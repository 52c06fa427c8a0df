import QueryGuard.Proofs.Reading.Reread
import QueryGuard.Proofs.Siblings.Rereading
/-!
Where the markers of a query stand in its text: the text is a layout with one place for each of them,
in the order in which they are listed. Other markers in their stead stand at the same places, and
nothing else changes.
-/

set_option autoImplicit false

namespace QueryGuard

/-! ### Other markers -/

section

variable (f : Name → Name)

/-- The expression with other markers. -/
def Expr.mapMarkers : Expr → Expr :=
  fold {
    path := .path
    literal := .literal
    parameter := fun name => .parameter (f name)
    aggregate := .aggregate
    call := .call }

/-- The test with other markers. -/
def Test.mapMarkers : Test → Test
  | .inParameter tested parameter negated =>
      .inParameter (tested.mapMarkers f) (f parameter) negated
  | other => other.mapExprs (Expr.mapMarkers f)

def SelectItem.mapMarkers (item : SelectItem) : SelectItem :=
  ⟨item.expr.mapMarkers f, item.label, item.span⟩

def OrderItem.mapMarkers (item : OrderItem) : OrderItem :=
  ⟨item.expr.mapMarkers f, item.direction, item.span⟩

/-- The clauses with other markers outside the conditions. -/
def Select.mapMarkers {Condition : Type} (query : Select Condition) : Select Condition :=
  { query with
    items := query.items.map (.mapMarkers f)
    groupBy := query.groupBy.map (Expr.mapMarkers f)
    orderBy := query.orderBy.map (.mapMarkers f) }

/-- The walk that replaces all markers. -/
def markingWalk : PredicateFold Predicate Query where
  and := .and
  or := .or
  not := .not
  group := .group
  test := fun leaf => .test (leaf.mapMarkers f)
  inQuery := fun tested query negated => .inQuery (tested.mapMarkers f) query negated
  existsIn := .existsIn
  query := Select.mapMarkers f

/-- The condition with other markers. -/
def Predicate.mapMarkers : Predicate → Predicate := Predicate.fold (markingWalk f)

/-- The query with other markers. -/
def Query.mapMarkers : Query → Query := Query.fold (markingWalk f)

theorem Expr.mapMarkers_call (name : Name) (arguments : List Expr) (span : Span) :
    (Expr.call name arguments span).mapMarkers f =
      .call name (arguments.map (mapMarkers f)) span := by
  simp only [mapMarkers, fold_call]

theorem Query.mapMarkers_eq (query : Query) :
    query.mapMarkers f = Select.mapMarkers f (query.map (Predicate.mapMarkers f)) :=
  Query.fold_eq (markingWalk f) query

theorem Predicate.mapMarkers_and (operands : List Predicate) :
    (Predicate.and operands).mapMarkers f = .and (operands.map (mapMarkers f)) := by
  simp only [mapMarkers, fold_and, markingWalk]

theorem Predicate.mapMarkers_or (operands : List Predicate) :
    (Predicate.or operands).mapMarkers f = .or (operands.map (mapMarkers f)) := by
  simp only [mapMarkers, fold_or, markingWalk]

/-! The same markers leave everything as it is. -/

theorem Expr.mapMarkers_id (expr : Expr) : expr.mapMarkers id = expr := by
  induction expr using Expr.induction with
  | path path => rfl
  | literal literal => rfl
  | parameter name => rfl
  | aggregate function distinct argument span ih =>
    exact congrArg (Expr.aggregate function distinct · span) ih
  | call name arguments span ih =>
    have each : arguments.map (mapMarkers id) = arguments := (List.map_congr_left ih).trans (List.map_id _)
    rw [mapMarkers_call, each]

theorem Test.mapMarkers_id (test : Test) : test.mapMarkers id = test := by
  have items : ∀ exprs : List Expr, exprs.map (Expr.mapMarkers id) = exprs := fun exprs =>
    (List.map_congr_left fun expr _ => expr.mapMarkers_id).trans (List.map_id _)
  cases test <;> simp only [mapMarkers, mapExprs, Expr.mapMarkers_id, items, id_eq]

theorem Select.mapMarkers_id {Condition : Type} (query : Select Condition) :
    query.mapMarkers id = query := by
  have items : query.items.map (.mapMarkers id) = query.items :=
    (List.map_congr_left fun item _ => by rw [SelectItem.mapMarkers, Expr.mapMarkers_id]; rfl).trans
      (List.map_id _)
  have grouped : query.groupBy.map (Expr.mapMarkers id) = query.groupBy :=
    (List.map_congr_left fun expr _ => expr.mapMarkers_id).trans (List.map_id _)
  have ordered : query.orderBy.map (.mapMarkers id) = query.orderBy :=
    (List.map_congr_left fun item _ => by rw [OrderItem.mapMarkers, Expr.mapMarkers_id]; rfl).trans
      (List.map_id _)
  rw [mapMarkers, items, grouped, ordered]

theorem Query.mapMarkers_id_of {query : Query}
    (each : ∀ condition ∈ query.conditions, condition.mapMarkers id = condition) :
    query.mapMarkers id = query := by
  rw [mapMarkers_eq, Select.map_eq_self each, Select.mapMarkers_id]

theorem Predicate.mapMarkers_id (predicate : Predicate) : predicate.mapMarkers id = predicate := by
  have all : ∀ operands : List Predicate,
      (∀ operand ∈ operands, operand.mapMarkers id = operand) →
        operands.map (mapMarkers id) = operands :=
    fun operands each => (List.map_congr_left each).trans (List.map_id _)
  induction predicate using Predicate.induction with
  | and operands ih => rw [mapMarkers_and, all operands ih]
  | or operands ih => rw [mapMarkers_or, all operands ih]
  | not operand ih => exact congrArg Predicate.not ih
  | group operand ih => exact congrArg Predicate.group ih
  | test test => exact congrArg Predicate.test test.mapMarkers_id
  | inQuery tested query negated ih =>
    exact congrArg₂ (Predicate.inQuery · · negated) tested.mapMarkers_id (Query.mapMarkers_id_of ih)
  | existsIn query negated ih =>
    exact congrArg (Predicate.existsIn · negated) (Query.mapMarkers_id_of ih)

@[simp] theorem Query.mapMarkers_id (query : Query) : query.mapMarkers id = query :=
  mapMarkers_id_of fun condition _ => condition.mapMarkers_id

/-! The markers are those that the function gives. -/

theorem Expr.markers_mapMarkers (expr : Expr) :
    (expr.mapMarkers f).markers = expr.markers.map f := by
  induction expr using Expr.induction with
  | path path => rfl
  | literal literal => rfl
  | parameter name => rfl
  | aggregate function distinct argument span ih => exact ih
  | call name arguments span ih =>
    rw [mapMarkers_call, markers_call, markers_call, List.flatMap_map, List.map_flatMap,
      List.flatMap_congr ih]

theorem Test.markers_mapMarkers (test : Test) :
    (test.mapMarkers f).markers = test.markers.map f := by
  have exprs : (test.mapExprs (Expr.mapMarkers f)).exprs.flatMap Expr.markers =
      (test.exprs.flatMap Expr.markers).map f := by
    rw [exprs_mapExprs, List.flatMap_map, List.map_flatMap, funext (Expr.markers_mapMarkers f)]
  cases test with
  | inParameter tested parameter negated =>
    change (tested.mapMarkers f).markers ++ [f parameter] = (tested.markers ++ [parameter]).map f
    rw [Expr.markers_mapMarkers, List.map_append, List.map_singleton]
  | _ => exact exprs

theorem Select.markersFrom_mapMarkers (query : Select (List Name)) :
    ((query.map (List.map f)).mapMarkers f).markersFrom = query.markersFrom.map f := by
  have optional : ∀ condition : Option (List Name),
      (condition.map (List.map f)).getD [] = (condition.getD []).map f := by
    intro condition
    cases condition <;> rfl
  simp only [markersFrom, mapMarkers, map, Join.map, SelectItem.mapMarkers, OrderItem.mapMarkers,
    List.flatMap_map, List.map_append, List.map_flatMap, Expr.markers_mapMarkers, optional]

theorem Query.markers_mapMarkers_of {query : Query}
    (each : ∀ condition ∈ query.conditions,
      (condition.mapMarkers f).markers = condition.markers.map f) :
    (query.mapMarkers f).markers = query.markers.map f := by
  have conditions : (query.map (Predicate.mapMarkers f)).map Predicate.markers =
      (query.map Predicate.markers).map (List.map f) := by
    rw [Select.map_map, Select.map_map]
    exact Select.map_congr each
  rw [mapMarkers_eq, markers, fold_eq, fold_eq]
  change (((query.map (Predicate.mapMarkers f)).map Predicate.markers).mapMarkers f).markersFrom = _
  rw [conditions]
  exact Select.markersFrom_mapMarkers f _

theorem Predicate.markers_mapMarkers (predicate : Predicate) :
    (predicate.mapMarkers f).markers = predicate.markers.map f := by
  induction predicate using Predicate.induction with
  | and operands ih =>
    rw [mapMarkers_and, markers_and, markers_and, List.flatMap_map, List.map_flatMap,
      List.flatMap_congr ih]
  | or operands ih =>
    rw [mapMarkers_or, markers_or, markers_or, List.flatMap_map, List.map_flatMap,
      List.flatMap_congr ih]
  | not operand ih => exact ih
  | group operand ih => exact ih
  | test test => exact test.markers_mapMarkers f
  | inQuery tested query negated ih =>
    change (tested.mapMarkers f).markers ++ (query.mapMarkers f).markers =
      (tested.markers ++ query.markers).map f
    rw [Expr.markers_mapMarkers, Query.markers_mapMarkers_of f ih, List.map_append]
  | existsIn query negated ih => exact Query.markers_mapMarkers_of f ih

theorem Query.markers_mapMarkers (query : Query) :
    (query.mapMarkers f).markers = query.markers.map f :=
  markers_mapMarkers_of f fun condition _ => condition.markers_mapMarkers f

end

/-! ### Layouts -/

/-- The text with the markers at its places, from left to right. -/
def fillIn : List (Option Char) → List String → List Char
  | [], _ => []
  | some c :: rest, names => c :: fillIn rest names
  | none :: rest, [] => ':' :: fillIn rest []
  | none :: rest, name :: names => ':' :: (name.toList ++ fillIn rest names)

theorem fillIn_append {first rest : List (Option Char)} {names : List String} (others : List String)
    (places : first.count none = names.length) :
    fillIn (first ++ rest) (names ++ others) = fillIn first names ++ fillIn rest others := by
  induction first generalizing names with
  | nil =>
    obtain rfl := List.eq_nil_of_length_eq_zero places.symm
    rfl
  | cons place first ih =>
    cases place with
    | some c =>
      rw [List.count_cons_of_ne (by simp)] at places
      exact congrArg (c :: ·) (ih places)
    | none =>
      rw [List.count_cons_self] at places
      cases names with
      | nil => cases places
      | cons name names =>
        change ':' :: (name.toList ++ fillIn (first ++ rest) (names ++ others)) =
          ':' :: (name.toList ++ fillIn first names) ++ fillIn rest others
        rw [ih (Nat.succ.inj places), List.cons_append, List.append_assoc]

/-- A text that depends on the markers shows each of them at a place of its own, in their order, and
nothing else of it depends on them. -/
def LaidOut (markers : List Name) (text : (Name → Name) → List Char) : Prop :=
  ∃ layout : List (Option Char), layout.count none = markers.length ∧
    ∀ f, text f = fillIn layout (markers.map fun marker => (f marker).value)

namespace LaidOut

variable {first rest : List Name} {start further : (Name → Name) → List Char}

theorem congr (shown : LaidOut first start) (markers : first = rest)
    (same : ∀ f, start f = further f) : LaidOut rest further :=
  markers ▸ funext same ▸ shown

/-- A text without markers. -/
theorem fixed (text : List Char) : LaidOut [] fun _ => text := by
  refine ⟨text.map some, List.count_eq_zero.mpr (by simp), fun _ => ?_⟩
  · induction text with
    | nil => rfl
    | cons c rest ih => exact congrArg (c :: ·) ih

theorem marker (name : Name) : LaidOut [name] fun f => ':' :: (f name).value.toList :=
  ⟨[none], rfl, fun _ => congrArg (':' :: ·) (List.append_nil _).symm⟩

theorem append (left : LaidOut first start) (right : LaidOut rest further) :
    LaidOut (first ++ rest) fun f => start f ++ further f := by
  obtain ⟨before, places, same⟩ := left
  obtain ⟨after, places', same'⟩ := right
  refine ⟨before ++ after, ?_, fun f => ?_⟩
  · rw [List.count_append, List.length_append, places, places']
  · rw [List.map_append, fillIn_append _ (by rw [places, List.length_map]), ← same, ← same']

theorem after (left : LaidOut first start) (text : List Char) :
    LaidOut first fun f => start f ++ text :=
  List.append_nil first ▸ left.append (fixed text)

theorem before (text : List Char) (right : LaidOut rest further) :
    LaidOut rest fun f => text ++ further f :=
  (fixed text).append right

theorem parenthesized (inner : LaidOut first start) :
    LaidOut first fun f => Printing.parenthesized (start f) :=
  before ['('] (inner.after [')'])

variable {α : Type} {markers : α → List Name} {text : (Name → Name) → α → List Char}

theorem flatMap {items : List α} (each : ∀ item ∈ items, LaidOut (markers item) (text · item)) :
    LaidOut (items.flatMap markers) fun f => items.flatMap (text f) := by
  induction items with
  | nil => exact fixed []
  | cons item items ih =>
    obtain ⟨here, others⟩ := List.forall_mem_cons.mp each
    exact here.append (ih others)

theorem intercalate (separator : List Char) (items : List α)
    (each : ∀ item ∈ items, LaidOut (markers item) (text · item)) :
    LaidOut (items.flatMap markers) fun f => separator.intercalate (items.map (text f)) := by
  induction items with
  | nil => exact fixed []
  | cons item items ih =>
    obtain ⟨here, others⟩ := List.forall_mem_cons.mp each
    rw [List.flatMap_cons]
    cases items with
    | nil =>
      refine (here.append (fixed [])).congr rfl fun f => ?_
      rw [List.map_singleton, List.intercalate_singleton, List.append_nil]
    | cons second items =>
      refine (here.append ((ih others).before separator)).congr rfl fun f => ?_
      simp only [List.map_cons, List.intercalate_cons_cons, List.append_assoc]

/-- What belongs to a keyword, if there is something. -/
theorem clause (keyword : String) {item : Option α}
    (each : ∀ found ∈ item, LaidOut (markers found) (text · found)) :
    LaidOut ((item.map markers).getD []) fun f => Printing.clause keyword (item.map (text f)) := by
  cases item with
  | none => exact fixed []
  | some found => exact (each found rfl).before keyword.toList

theorem listClause (keywords : String) (items : List α)
    (each : ∀ item ∈ items, LaidOut (markers item) (text · item)) :
    LaidOut (items.flatMap markers) fun f =>
      Printing.listClause keywords (items.map (text f)) := by
  cases items with
  | nil => exact fixed []
  | cons item items => exact (intercalate [',', ' '] _ each).before keywords.toList

end LaidOut

/-! ### Expressions -/

theorem Expr.laidOut (expr : Expr) : LaidOut expr.markers fun f => (expr.mapMarkers f).print := by
  induction expr using Expr.induction with
  | path path => exact .fixed path.print
  | literal literal => exact .fixed literal.value.print
  | parameter name => exact .marker name
  | aggregate function distinct argument span ih =>
    exact (ih.before _).parenthesized.before function.spelling.toList
  | call name arguments span ih =>
    have listed := (LaidOut.intercalate [',', ' '] _ ih).parenthesized
    refine (listed.before name.value.toList).congr (markers_call name arguments span).symm fun f => ?_
    rw [mapMarkers_call, print, fold_call, List.map_map]
    rfl

theorem Test.laidOut (test : Test) : LaidOut test.markers fun f => (test.mapMarkers f).print := by
  have operands : ∀ exprs : List Expr, ∀ expr ∈ exprs,
      LaidOut expr.markers fun f => (expr.mapMarkers f).print := fun _ expr _ => expr.laidOut
  cases test with
  | compare left comparison right =>
    have shown := left.laidOut.append (right.laidOut.before (' ' :: (comparison.spelling.toList ++ [' '])))
    refine shown.congr ?_ fun f => ?_
    · simp only [markers, exprs, List.flatMap_cons, List.flatMap_nil, List.append_nil]
    · simp only [mapMarkers, mapExprs, print, List.append_assoc, List.cons_append, List.nil_append]
  | inList tested items negated =>
    have listed := (LaidOut.intercalate [',', ' '] items (operands items)).parenthesized
    have shown := tested.laidOut.append
      (listed.before (' ' :: (Printing.negation negated ++ "in ".toList)))
    refine shown.congr rfl fun f => ?_
    simp only [mapMarkers, mapExprs, print, Printing.commaList, List.map_map, List.append_assoc,
      List.cons_append]
    rfl
  | inParameter tested parameter negated =>
    have shown := tested.laidOut.append
      ((LaidOut.marker parameter).before (' ' :: (Printing.negation negated ++ "in ".toList)))
    refine shown.congr rfl fun f => ?_
    have colon : "in :".toList = "in ".toList ++ [':'] := rfl
    simp only [mapMarkers, print, colon, List.append_assoc, List.cons_append, List.nil_append]
  | between tested low high negated =>
    have shown := tested.laidOut.append (((low.laidOut.after " and ".toList).append high.laidOut).before
      (' ' :: (Printing.negation negated ++ "between ".toList)))
    refine shown.congr ?_ fun f => ?_
    · simp only [markers, exprs, List.flatMap_cons, List.flatMap_nil, List.append_nil]
    · simp only [mapMarkers, mapExprs, print, List.append_assoc, List.cons_append]
  | isNull tested negated =>
    have shown := tested.laidOut.after
      (" is ".toList ++ Printing.negation negated ++ "null".toList)
    refine shown.congr (List.flatMap_singleton ..).symm fun f => ?_
    simp only [mapMarkers, mapExprs, print, List.append_assoc]
  | like tested pattern escape negated =>
    have shown := tested.laidOut.append ((pattern.laidOut.after (Printing.clause " escape "
      (escape.map fun text => Printing.string text.value))).before
        (' ' :: (Printing.negation negated ++ "like ".toList)))
    refine shown.congr ?_ fun f => ?_
    · simp only [markers, exprs, List.flatMap_cons, List.flatMap_nil, List.append_nil]
    · simp only [mapMarkers, mapExprs, print, List.append_assoc, List.cons_append]

theorem SelectItem.laidOut (item : SelectItem) :
    LaidOut item.expr.markers fun f => (item.mapMarkers f).print := by
  refine (item.expr.laidOut.after (Printing.clause " as " (item.label.map fun label =>
    Printing.name label.value))).congr rfl fun f => ?_
  rw [print, mapMarkers]

theorem OrderItem.laidOut (item : OrderItem) :
    LaidOut item.expr.markers fun f => (item.mapMarkers f).print :=
  (item.expr.laidOut.after (if item.direction = .descending then " desc".toList else [])).congr rfl
    fun _ => rfl

/-- A join is written as without its condition, and then the condition. -/
theorem Join.print_eq (join : Join (List Char)) :
    join.print = Join.print { join with condition := none } ++ Printing.clause " on " join.condition := by
  simp only [print, Printing.clause, List.append_nil, List.append_assoc, List.cons_append]

theorem Select.print_mapMarkers {Condition : Type} (f : Name → Name) (text : Condition → List Char)
    (query : Select Condition) : ((query.map text).mapMarkers f).print =
      "select ".toList ++ (if query.distinct then "distinct ".toList else []) ++
        Printing.commaList (query.items.map fun item => (item.mapMarkers f).print) ++
        " from ".toList ++ query.root.print ++ query.joins.flatMap (fun join => (join.map text).print) ++
        Printing.clause " where " (query.filter.map text) ++
        Printing.listClause " group by " (query.groupBy.map fun expr => (expr.mapMarkers f).print) ++
        Printing.clause " having " (query.having.map text) ++
        Printing.listClause " order by " (query.orderBy.map fun item => (item.mapMarkers f).print) ++
        Printing.clause " limit " (query.limit.map fun count => (toString count.value).toList) ++
        Printing.clause " offset " (query.offset.map fun count => (toString count.value).toList) := by
  have items : (query.items.map (.mapMarkers f)).map SelectItem.print =
      query.items.map fun item => (item.mapMarkers f).print := List.map_map
  have joins : (query.joins.map (·.map text)).flatMap Join.print =
      query.joins.flatMap fun join => (join.map text).print := List.flatMap_map ..
  have grouped : (query.groupBy.map (Expr.mapMarkers f)).map Expr.print =
      query.groupBy.map fun expr => (expr.mapMarkers f).print := List.map_map
  have ordered : (query.orderBy.map (.mapMarkers f)).map OrderItem.print =
      query.orderBy.map fun item => (item.mapMarkers f).print := List.map_map
  unfold print
  dsimp only [mapMarkers, map]
  rw [items, joins, grouped, ordered]
  -- only the decisions about DISTINCT differ
  congr

/-! ### Conditions -/

/-- The markers of the condition are laid out in its text, and with others it binds as tightly. -/
structure Predicate.LaidOut (predicate : Predicate) : Prop where
  strength : ∀ f, (predicate.mapMarkers f).printed.strength = predicate.printed.strength
  text : QueryGuard.LaidOut predicate.markers fun f => (predicate.mapMarkers f).print

namespace Predicate

/-- An atom binds tightly whatever its markers are. -/
theorem LaidOut.atom {predicate : Predicate}
    (atom : ∀ f, (predicate.mapMarkers f).printed.strength = .atom)
    (text : QueryGuard.LaidOut predicate.markers fun f => (predicate.mapMarkers f).print)
    (same : predicate.printed.strength = .atom) : predicate.LaidOut :=
  ⟨fun f => (atom f).trans same.symm, text⟩

theorem LaidOut.operand {predicate : Predicate} (shown : predicate.LaidOut) (weakest : Strength) :
    QueryGuard.LaidOut predicate.markers fun f =>
      (predicate.mapMarkers f).printed.operand weakest := by
  by_cases weaker : predicate.printed.strength.rank < weakest.rank
  · refine shown.text.parenthesized.congr rfl fun f => ?_
    rw [PrintedCondition.operand, shown.strength, if_pos weaker]
    rfl
  · refine shown.text.congr rfl fun f => ?_
    rw [PrintedCondition.operand, shown.strength, if_neg weaker]
    rfl

/-- Operands with an operator between them. -/
theorem LaidOut.joined (strength : Strength) (operator empty : String) {operands : List Predicate}
    (each : ∀ operand ∈ operands, operand.LaidOut) :
    (∀ f, (PrintedCondition.joined strength operator empty
        ((operands.map (mapMarkers f)).map printed)).strength =
      (PrintedCondition.joined strength operator empty (operands.map printed)).strength) ∧
    QueryGuard.LaidOut (operands.flatMap markers) fun f =>
      (PrintedCondition.joined strength operator empty
        ((operands.map (mapMarkers f)).map printed)).text := by
  rcases operands with _ | ⟨first, _ | ⟨second, rest⟩⟩
  · exact ⟨fun _ => rfl, .fixed empty.toList⟩
  · obtain ⟨only, _⟩ := List.forall_mem_cons.mp each
    exact ⟨fun _ => rfl, (only.operand strength).congr (List.flatMap_singleton ..).symm fun _ => rfl⟩
  · refine ⟨fun _ => rfl, ?_⟩
    refine (QueryGuard.LaidOut.intercalate operator.toList _ fun operand member =>
      (each operand member).operand strength).congr rfl fun f => ?_
    simp only [PrintedCondition.joined, List.map_cons, List.map_map]
    rfl

/-- A query is written with its markers in their order if its conditions are. -/
theorem laidOut_query_of {query : Query}
    (each : ∀ condition ∈ query.conditions, condition.LaidOut) :
    QueryGuard.LaidOut query.markers fun f => (query.mapMarkers f).print := by
  have items := QueryGuard.LaidOut.intercalate [',', ' '] query.items fun item _ =>
    item.laidOut
  have joins : QueryGuard.LaidOut
      (query.joins.flatMap fun join => (join.condition.map markers).getD [])
      fun f => query.joins.flatMap fun join =>
        (join.map fun condition => (condition.mapMarkers f).print).print := by
    refine .flatMap fun join member => ?_
    have condition := QueryGuard.LaidOut.clause " on " fun condition found =>
      (each condition (Select.mem_of_join member found)).text
    refine (condition.before (Join.print ⟨join.kind, join.target, join.name, none, join.span⟩)).congr
      rfl fun f => ?_
    rw [Join.print_eq (join.map _)]
    rfl
  have filter := QueryGuard.LaidOut.clause " where " fun condition found =>
    (each condition (Select.mem_of_filter found)).text
  have grouped := QueryGuard.LaidOut.listClause " group by " query.groupBy fun expr _ =>
    expr.laidOut
  have having := QueryGuard.LaidOut.clause " having " fun condition found =>
    (each condition (Select.mem_of_having found)).text
  have ordered := QueryGuard.LaidOut.listClause " order by " query.orderBy fun item _ =>
    item.laidOut
  have start := ((items.before ("select ".toList ++ if query.distinct then "distinct ".toList else [])).after
    " from ".toList).after query.root.print
  have clauses := ((((start.append joins).append filter).append grouped).append having).append ordered
  have counts := (clauses.after (Printing.clause " limit "
    (query.limit.map fun count => (toString count.value).toList))).after (Printing.clause " offset "
    (query.offset.map fun count => (toString count.value).toList))
  refine counts.congr ?_ fun f => ?_
  · rw [Query.markers, Query.fold_eq]
    change _ = (query.map markers).markersFrom
    simp only [Select.markersFrom, Select.map, Join.map, List.flatMap_map]
  · have conditions : (Query.mapMarkers f query).map print =
        Select.mapMarkers f (query.map fun condition => (condition.mapMarkers f).print) := by
      rw [Query.mapMarkers_eq]
      exact congrArg (Select.mapMarkers f) (Select.map_map (mapMarkers f) print query)
    rw [Query.print_eq, conditions, Select.print_mapMarkers]
    rfl

theorem laidOut (predicate : Predicate) : predicate.LaidOut := by
  induction predicate using Predicate.induction with
  | and operands ih =>
    obtain ⟨strength, text⟩ := LaidOut.joined .and " and " "1 = 1" ih
    refine ⟨fun f => ?_, text.congr (markers_and operands).symm fun f => ?_⟩
    · rw [mapMarkers_and, printed_and, printed_and, strength]
    · rw [mapMarkers_and, print, printed_and]
  | or operands ih =>
    obtain ⟨strength, text⟩ := LaidOut.joined .or " or " "1 = 0" ih
    refine ⟨fun f => ?_, text.congr (markers_or operands).symm fun f => ?_⟩
    · rw [mapMarkers_or, printed_or, printed_or, strength]
    · rw [mapMarkers_or, print, printed_or]
  | not operand ih => exact ⟨fun _ => rfl, (ih.operand .not).before "not ".toList⟩
  | group operand ih => exact ⟨fun _ => rfl, ih.text.parenthesized⟩
  | test test => exact ⟨fun _ => rfl, test.laidOut⟩
  | inQuery tested query negated ih =>
    have shown := tested.laidOut.append ((laidOut_query_of ih).parenthesized.before
      (' ' :: (Printing.negation negated ++ "in ".toList)))
    refine ⟨fun _ => rfl, shown.congr rfl fun f => ?_⟩
    change _ = (Predicate.inQuery (tested.mapMarkers f) (query.mapMarkers f) negated).print
    rw [print, printed, fold_inQuery, List.cons_append]
    rfl
  | existsIn query negated ih =>
    have shown := (laidOut_query_of ih).parenthesized.before
      (Printing.negation negated ++ "exists ".toList)
    exact ⟨fun _ => rfl, shown.congr rfl fun _ => rfl⟩

end Predicate

/-- The markers of a query stand in its text in the order in which they are listed, and other markers
in their stead stand at the same places. -/
theorem Query.laidOut (query : Query) :
    LaidOut query.markers fun f => (query.mapMarkers f).print :=
  Predicate.laidOut_query_of fun condition _ => condition.laidOut

end QueryGuard
