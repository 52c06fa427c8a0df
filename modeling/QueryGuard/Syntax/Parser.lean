import QueryGuard.Syntax.Cursor
/-!
The grammar of the query language, as steps that read lexemes.

Nested expressions and conditions are read with a bound on the nesting; the number of lexemes is
enough, since each level reads one.
-/

set_option autoImplicit false

namespace QueryGuard

namespace Parse

/-- Reads the attributes of a path after its first name. -/
def pathFrom (root : Name) : Parse Path := do
  let attributes ← following (.symbol .dot) (word .attributeName)
  return ⟨root, attributes, attributes.foldl (fun span name => span.merge name.span) root.span⟩

/-- What an expression of one token stands for. -/
def constant? : Token → Option Literal
  | .string text => some (.string text)
  | .integer value => some (.integer (Int64.ofNat value))
  | .decimal value => some (.decimal value)
  | .keyword .true => some (.bool true)
  | .keyword .false => some (.bool false)
  | .keyword .null => some .null
  | _ => none

/-- The opposite of a number. -/
def negated? : Token → Option Literal
  | .integer value => some (.integer (Int64.ofInt (-(value : Int))))
  | .decimal value => some (.decimal value.neg)
  | _ => none

/-- Reads a number after a minus sign at the given place. -/
def negativeNumber (sign : Span) : Parse Expr := do
  match (← peek?).bind negated? with
  | some value =>
      let span ← here
      skip
      return .literal ⟨value, sign.merge span⟩
  | none => fail .numberAfterMinus

/-- The call of a function: aggregates take one argument, and only they may skip equal ones. -/
def callOf (name : Name) (distinct : Bool) (arguments : List Expr) (close : Span) : Parse Expr :=
  let span := name.span.merge close
  match Aggregate.ofName? name.value with
  | some function =>
      match arguments with
      | [argument] => return .aggregate function distinct argument span
      | _ =>
          throw (.unexpected .oneArgument (.arguments arguments.length) span
            (some (.singleExpression function)))
  | none =>
      if distinct then
        throw (.unexpected .argument (.token (.keyword .distinct)) name.span (some .distinctCall))
      else return .call name arguments span

/-- Reads the arguments of a call after its opening parenthesis. -/
def arguments (expr : Parse Expr) (name : Name) : Parse Expr := do
  let distinct ← acceptKeyword .distinct
  let arguments ← do
    if (← peek?) = some (.symbol .closeParen) then pure [] else commaList expr
  let close ← closeParen
  callOf name distinct arguments close

/-- Reads an expression of at most `depth` nested calls. -/
def expr : (depth : Nat) → Parse Expr
  | 0 => fail .expression
  | depth + 1 => fun cursor =>
      match cursor.rest with
      | ⟨.name text, _, span⟩ :: ⟨.symbol .openParen, _, _⟩ :: _ =>
          arguments (expr depth) ⟨text, span⟩ cursor.next.next
      | lexeme :: _ =>
          match lexeme.token with
          | .name text | .quotedName text =>
              (Expr.path <$> pathFrom ⟨text, lexeme.span⟩) cursor.next
          | .parameter name => .ok (.parameter ⟨name, lexeme.span⟩, cursor.next)
          | .symbol .minus => negativeNumber lexeme.span cursor.next
          | .symbol .equal => fail .expression (some .equality) cursor
          | token =>
              match constant? token with
              | some value => .ok (.literal ⟨value, lexeme.span⟩, cursor.next)
              | none => fail .expression none cursor
      | [] => fail .expression none cursor

/-- Reads an expression. -/
def expression : Parse Expr := do expr (← get).rest.length

/-- The comparison that a token stands for. -/
def comparison? : Token → Option Comparison
  | .symbol .equal => some .equal
  | .symbol .notEqual => some .notEqual
  | .symbol .less => some .less
  | .symbol .lessEqual => some .lessEqual
  | .symbol .greater => some .greater
  | .symbol .greaterEqual => some .greaterEqual
  | _ => none

/-- Reads the character after ESCAPE. -/
def escapeCharacter : Parse Name := fun cursor =>
  match cursor.rest with
  | ⟨.string text, _, span⟩ :: _ => .ok (⟨text, span⟩, cursor.next)
  | _ => fail .escapeCharacter none cursor

/-- Reads what an expression is to be one of. -/
def inSource (query : Parse Query) (tested : Expr) (negated : Bool) : Parse Predicate := do
  match ← peek? with
  | some (.parameter name) =>
      let span ← here
      skip
      return .test (.inParameter tested ⟨name, span⟩ negated)
  | _ =>
      let _ ← expect (.symbol .openParen) .sourceAfterIn
      if (← peek?) = some (.keyword .select) then
        let query ← query
        let _ ← closeParen
        return .inQuery tested query negated
      else
        let items ← commaList expression
        let _ ← closeParen
        return .test (.inList tested items negated)

/-- Reads the test of an expression after IN, BETWEEN or LIKE may have been negated. -/
def negatableTest (query : Parse Query) (tested : Expr) (negated : Bool) : Parse Predicate := do
  if ← acceptKeyword .in then inSource query tested negated
  else if ← acceptKeyword .between then
    let low ← expression
    let _ ← expectKeyword .and
    let high ← expression
    return .test (.between tested low high negated)
  else if ← acceptKeyword .like then
    let pattern ← expression
    let escape ← clause? .escape escapeCharacter
    return .test (.like tested pattern escape negated)
  else fail (if negated then .negatableTest else .comparison)

/-- Reads the test of an expression. -/
def test (query : Parse Query) (tested : Expr) : Parse Predicate := do
  match (← peek?).bind comparison? with
  | some comparison =>
      skip
      let right ← expression
      return .test (.compare tested comparison right)
  | none =>
      if ← acceptKeyword .is then
        let negated ← acceptKeyword .not
        let _ ← expectKeyword .null
        return .test (.isNull tested negated)
      else
        let negated ← acceptKeyword .not
        negatableTest query tested negated

/-- Reads a condition without AND, OR and NOT outside of parentheses. -/
def atom (condition : Parse Predicate) (query : Parse Query) : Parse Predicate := do
  if ← accept (.symbol .openParen) then
    let inner ← condition
    let _ ← closeParen
    return .group inner
  else if ← acceptKeyword .exists then
    let _ ← expect (.symbol .openParen) .openParenAfterExists
    let query ← query
    let _ ← closeParen
    return .existsIn query false
  else
    let tested ← expression
    test query tested

/-- The opposite of a condition; NOT in front of EXISTS belongs to it. -/
def opposite : Predicate → Predicate
  | .existsIn query negated => .existsIn query (!negated)
  | other => .not other

/-- Reads a condition with NOT in front of it, at most as often as the bound says. -/
def negation (atom : Parse Predicate) : Nat → Parse Predicate
  | 0 => atom
  | bound + 1 => do
      if ← acceptKeyword .not then
        if (← peek?) = some (.keyword .exists) then return opposite (← atom)
        else return .not (← negation atom bound)
      else atom

/-- Reads a condition in which AND binds tighter than OR. -/
def disjunction (atom : Parse Predicate) : Parse Predicate := do
  let negation : Parse Predicate := do negation atom (← get).rest.length
  let conjunction : Parse Predicate := .allOf <$> separated (.keyword .and) negation
  .anyOf <$> separated (.keyword .or) conjunction

/-- Reads an entity with its alias. -/
def range : Parse Range := do
  let entity ← word .entityName
  let _ ← acceptKeyword .as
  let name ← fun cursor =>
    match name .rangeAlias cursor with
    | .error (.unexpected expected found span _) =>
        .error (.unexpected expected found span (some .rangeAlias))
    | result => result
  return ⟨entity, name⟩

/-- Reads an expression of the select list with its label. -/
def selectItem : Parse SelectItem := do
  let expr ← expression
  let label ← do
    if ← acceptKeyword .as then some <$> name .label
    else
      match ← peek? with
      | some (.name _) | some (.quotedName _) => some <$> name .label
      | _ => pure none
  let span := match label with
    | some label => expr.span.merge label.span
    | none => expr.span
  return ⟨expr, label, span⟩

/-- Reads the words that announce a join. -/
def joinKind : Parse JoinKind := do
  let kind ← do
    if ← acceptKeyword .left then
      let _ ← acceptKeyword .outer
      pure JoinKind.left
    else
      let _ ← acceptKeyword .inner
      pure JoinKind.inner
  let _ ← expectKeyword .join
  return kind

/-- Reads what is joined: a path if a dot follows a name, else an entity. -/
def joinTarget : Parse JoinTarget := do
  let reserved := match ← peek? with
    | some (.keyword _) => true
    | _ => false
  let head ← word .joinTarget
  if !reserved && (← peek?) = some (.symbol .dot) then return .path (← pathFrom head)
  else return .entity head

/-- Reads a join; a join to an entity has a condition. -/
def join (condition : Parse Predicate) : Parse (Join Predicate) := do
  let start ← here
  let kind ← joinKind
  let target ← joinTarget
  let _ ← acceptKeyword .as
  let name ← name .joinAlias
  let condition ← clause? .on condition
  match target, condition with
  | .entity entity, none => fail (.keyword .on) (some (.joinCondition entity.value))
  | _, _ => return ⟨kind, target, name, condition, start.merge (← last)⟩

/-- Whether a join comes next. -/
def atJoin : Parse Bool := do
  match ← peek? with
  | some (.keyword .join) | some (.keyword .inner) | some (.keyword .left) => return true
  | _ => return false

/-- Reads joins as long as there are some; the bound is at least the number of lexemes. -/
def joins (condition : Parse Predicate) : Nat → Parse (List (Join Predicate))
  | 0 => return []
  | bound + 1 => do
      if ← atJoin then
        let first ← join condition
        let others ← joins condition bound
        return first :: others
      else return []

def orderItem : Parse OrderItem := do
  let expr ← expression
  let descending ← acceptKeyword .desc
  if !descending then
    let _ ← acceptKeyword .asc
  return ⟨expr, if descending then .descending else .ascending, expr.span.merge (← last)⟩

/-- Reads the number of a clause. -/
def count (clause : Keyword) : Parse (Located Nat) := fun cursor =>
  match cursor.rest with
  | ⟨.integer value, _, span⟩ :: _ => .ok (⟨value, span⟩, cursor.next)
  | _ => fail (.count clause) none cursor

/-- Reads a list that two keywords announce; without them it is empty. -/
def byClause {α : Type} (keyword : Keyword) (item : Parse α) : Parse (List α) := do
  let list ← clause? keyword do
    let _ ← expectKeyword .by
    commaList item
  return list.getD []

/-- Reads a query from SELECT on. -/
def query (condition : Parse Predicate) : Parse Query := do
  let start ← expectKeyword .select
  let distinct ← acceptKeyword .distinct
  let items ← commaList selectItem
  let _ ← expectKeyword .from
  let root ← range
  let joins ← do joins condition (← get).rest.length
  let filter ← clause? .where condition
  let groupBy ← byClause .group expression
  let having ← clause? .having condition
  let orderBy ← byClause .order orderItem
  let limit ← clause? .limit (count .limit)
  let offset ← clause? .offset (count .offset)
  return ⟨distinct, items, root, joins, filter, groupBy, having, orderBy, limit, offset,
    start.merge (← last)⟩

/-- Reads a query inside a condition of the given level, if the limit allows one. -/
def subquery (limit level : Nat) (query : Parse Query) : Parse Query := do
  if limit ≤ level then throw (.tooDeep limit (← here)) else query

/-- Reads a condition of a query at the given level, of at most `depth` nested conditions. -/
def condition (limit : Nat) : (depth level : Nat) → Parse Predicate
  | 0, _ => fail .expression
  | depth + 1, level => fun cursor =>
      let nested := query (condition limit depth (level + 1))
      disjunction (atom (condition limit depth level) (subquery limit level nested)) cursor

/-- Reads a whole query that may hold `limit` levels of others. -/
def statement (limit : Nat) : Parse Query := do
  query (condition limit (← get).rest.length 0)

/-- Reads a path. -/
def path : Parse Path := do
  let root ← name .label
  pathFrom root

end Parse

namespace Query

/-- How many levels of queries inside a query are allowed unless stated otherwise. -/
def defaultDepth : Nat := 1

/-- The query that a text writes, with at most `depth` levels of queries inside. -/
def parse (source : String) (depth : Nat := defaultDepth) : Except SyntaxError Query :=
  (Parse.statement depth).run .endOfQuery source

/-- A text is read by its characters: to evaluate it, rewrite with this first, since a literal is
slow to take apart. -/
theorem parse_ofList (chars : List Char) (depth : Nat) :
    parse (String.ofList chars) depth =
      match (Lexing.scan 0 chars).failure with
      | none => (Parse.statement depth).readAll .endOfQuery (Lexing.scan 0 chars).lexemes
          (String.ofList chars).utf8ByteSize
      | some error => .error (.lexical error) := by
  rw [parse, Parse.run, tokenize_ofList]
  cases (Lexing.scan 0 chars).failure <;> rfl

end Query

/-- The path that a text writes. -/
def Path.parse (source : String) : Except SyntaxError Path :=
  Parse.path.run .endOfPath source

end QueryGuard
