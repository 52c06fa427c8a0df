import QueryGuard.Syntax.Lexing
import QueryGuard.Syntax.Walk
/-!
Queries as text: keywords in lower case, one space between words, and parentheses only where they
were written or the tree needs them.
-/

set_option autoImplicit false

namespace QueryGuard

namespace Printing

/-- Whether a name can be written without quotes, reserved or not. -/
def isPlain : List Char → Bool
  | [] => false
  | c :: rest => Lexing.isNameStart c && rest.all Lexing.isNamePart

/-- The name of an entity; only names that are not plain are quoted. -/
def entity (name : String) : List Char :=
  if isPlain name.toList then name.toList else Text.quoted '"' name.toList

/-- Any other name; reserved words are quoted too. -/
def name (name : String) : List Char :=
  if isPlain name.toList && (Keyword.ofWord? name.toList).isNone then name.toList
  else Text.quoted '"' name.toList

/-- A string between its quotes. -/
def string (value : String) : List Char := Text.quoted '\'' value.toList

/-- A list with commas. -/
def commaList (items : List (List Char)) : List Char := [',', ' '].intercalate items

def parenthesized (text : List Char) : List Char := '(' :: (text ++ [')'])

/-- A list after its keywords, if it is not empty. -/
def listClause (keywords : String) (items : List (List Char)) : List Char :=
  if items.isEmpty then [] else keywords.toList ++ commaList items

/-- What belongs to a keyword, if there is something. -/
def clause (keyword : String) : Option (List Char) → List Char
  | some text => keyword.toList ++ text
  | none => []

/-- The word before a negated test. -/
def negation (negated : Bool) : List Char := if negated then "not ".toList else []

end Printing

open Printing

def Path.print (path : Path) : List Char :=
  Printing.name path.root.value ++
    path.attributes.flatMap fun part => '.' :: Printing.name part.value

def Literal.print : Literal → List Char
  | .null => "null".toList
  | .bool value => (toString value).toList
  | .integer value => (toString value.toInt).toList
  | .decimal value => value.pointedText
  | .string value => Printing.string value

/-- The walk that prints expressions. -/
def Expr.printWalk : ExprFold (List Char) where
  path := Path.print
  literal := fun constant => constant.value.print
  parameter := fun name => ':' :: name.value.toList
  aggregate := fun function distinct argument _ =>
    function.spelling.toList ++
      parenthesized ((if distinct then "distinct ".toList else []) ++ argument)
  call := fun name arguments _ => name.value.toList ++ parenthesized (commaList arguments)

def Expr.print : Expr → List Char := fold printWalk

def Comparison.spelling : Comparison → String
  | equal => "="
  | notEqual => "<>"
  | less => "<"
  | lessEqual => "<="
  | greater => ">"
  | greaterEqual => ">="

def Test.print : Test → List Char
  | .compare left comparison right =>
      left.print ++ ' ' :: (comparison.spelling.toList ++ ' ' :: right.print)
  | .inList tested items negated =>
      tested.print ++ ' ' :: (negation negated ++ "in ".toList ++
        parenthesized (commaList (items.map Expr.print)))
  | .inParameter tested parameter negated =>
      tested.print ++ ' ' :: (negation negated ++ "in :".toList ++ parameter.value.toList)
  | .between tested low high negated =>
      tested.print ++ ' ' :: (negation negated ++ "between ".toList ++ low.print ++
        " and ".toList ++ high.print)
  | .isNull tested negated => tested.print ++ " is ".toList ++ negation negated ++ "null".toList
  | .like tested pattern escape negated =>
      tested.print ++ ' ' :: (negation negated ++ "like ".toList ++ pattern.print ++
        clause " escape " (escape.map fun text => Printing.string text.value))

def SelectItem.print (item : SelectItem) : List Char :=
  item.expr.print ++ clause " as " (item.label.map fun label => Printing.name label.value)

def Range.print (range : Range) : List Char :=
  Printing.entity range.entity.value ++ ' ' :: Printing.name range.name.value

def JoinTarget.print : JoinTarget → List Char
  | .path chain => chain.print
  | .entity target => Printing.entity target.value

/-- A join, given the text of its condition. -/
def Join.print (join : Join (List Char)) : List Char :=
  (match join.kind with
    | .inner => " join ".toList
    | .left => " left join ".toList) ++
    join.target.print ++ ' ' :: (Printing.name join.name.value ++ clause " on " join.condition)

def OrderItem.print (item : OrderItem) : List Char :=
  item.expr.print ++ if item.direction = .descending then " desc".toList else []

/-- A query, given the texts of its conditions. -/
def Select.print (query : Select (List Char)) : List Char :=
  "select ".toList ++ (if query.distinct then "distinct ".toList else []) ++
    commaList (query.items.map SelectItem.print) ++ " from ".toList ++ query.root.print ++
    query.joins.flatMap Join.print ++
    clause " where " query.filter ++
    listClause " group by " (query.groupBy.map Expr.print) ++
    clause " having " query.having ++
    listClause " order by " (query.orderBy.map OrderItem.print) ++
    clause " limit " (query.limit.map fun count => (toString count.value).toList) ++
    clause " offset " (query.offset.map fun count => (toString count.value).toList)

/-- How tightly the outermost operator of a condition binds. -/
inductive Strength where
  | or | and | not | atom
deriving DecidableEq, Repr

namespace Strength

def rank : Strength → Nat
  | or => 1
  | and => 2
  | not => 3
  | atom => 4

end Strength

/-- The text of a condition, and how tightly it binds. -/
structure PrintedCondition where
  strength : Strength
  text : List Char

namespace PrintedCondition

/-- The text as an operand of an operator, which binds as tightly as given. -/
def operand (weakest : Strength) (condition : PrintedCondition) : List Char :=
  if condition.strength.rank < weakest.rank then parenthesized condition.text
  else condition.text

/-- Operands with an operator between them. One operand alone counts as an atom, and no operands
are written as a comparison. -/
def joined (strength : Strength) (operator empty : String) (operands : List PrintedCondition) :
    PrintedCondition :=
  match operands with
  | [] => ⟨.atom, empty.toList⟩
  | [only] => ⟨.atom, only.operand strength⟩
  | several => ⟨strength, operator.toList.intercalate (several.map (operand strength))⟩

end PrintedCondition

/-- The walk that prints conditions and queries. -/
def printWalk : PredicateFold PrintedCondition (List Char) where
  and := .joined .and " and " "1 = 1"
  or := .joined .or " or " "1 = 0"
  not := fun operand => ⟨.not, "not ".toList ++ operand.operand .not⟩
  group := fun operand => ⟨.atom, parenthesized operand.text⟩
  test := fun leaf => ⟨.atom, leaf.print⟩
  inQuery := fun tested query negated =>
    ⟨.atom, tested.print ++ ' ' :: (negation negated ++ "in ".toList ++ parenthesized query)⟩
  existsIn := fun query negated =>
    ⟨.atom, negation negated ++ "exists ".toList ++ parenthesized query⟩
  query := fun query => (query.map (·.text)).print

/-- The text of a condition with its strength. -/
def Predicate.printed : Predicate → PrintedCondition := Predicate.fold printWalk

def Predicate.print (predicate : Predicate) : List Char := predicate.printed.text

def Query.print : Query → List Char := Query.fold printWalk

def Expr.text (expr : Expr) : String := String.ofList expr.print

def Path.text (path : Path) : String := String.ofList path.print

def Predicate.text (predicate : Predicate) : String := String.ofList predicate.print

def Query.text (query : Query) : String := String.ofList query.print

theorem Query.text_eq_iff {query : Query} {text : String} :
    query.text = text ↔ query.print = text.toList := by
  rw [Query.text, ← String.ofList_inj, String.ofList_toList]

end QueryGuard
