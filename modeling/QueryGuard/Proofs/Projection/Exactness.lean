import QueryGuard.Proofs.Projection.Expansion
/-!
Where the select list shows a path: at the first item that shows a path which is the same with all
joins followed.
-/

set_option autoImplicit false

namespace QueryGuard

/-! ### What items show -/

/-- An item shows a path: it is the path, or an aggregate of the path and nothing else. -/
inductive SelectItem.Shows (item : SelectItem) : Path → (aggregate : Bool) → Prop where
  | bare {path : Path} (is : item.expr = .path path) : item.Shows path false
  | aggregate {function : Aggregate} {distinct : Bool} {path : Path} {span : Span}
      (is : item.expr = .aggregate function distinct (.path path) span) : item.Shows path true

namespace SelectItem

variable {item : SelectItem} {path : Path} {aggregate : Bool}

theorem shows_iff : item.Shows path aggregate ↔ item.shown? = some (path, aggregate) := by
  unfold shown?
  constructor
  · rintro (is | is)
    · rw [is]
    · rw [is]
  · intro shown
    split at shown
    · rename_i is
      cases shown
      exact .bare is
    · rename_i is
      cases shown
      exact .aggregate is
    · cases shown

theorem Shows.mem_paths (shows : item.Shows path aggregate) : path ∈ item.expr.paths := by
  cases shows with
  | bare is =>
    rw [is]
    exact List.mem_cons_self
  | aggregate is =>
    rw [is]
    exact List.mem_cons_self

end SelectItem

namespace Model

/-- The item shows a path that is the wanted one with all joins followed. -/
def Projects (model : Model) (wanted : PathKey) (item : SelectItem) (aggregate : Bool) : Prop :=
  ∃ path, item.Shows path aggregate ∧ PathKey.Expands model.query path.key wanted

/-- The item at an index of the select list shows the wanted path. -/
def ShownAt (model : Model) (wanted : PathKey) (index : Nat) (aggregate : Bool) : Prop :=
  ∃ item, model.query.items[index]? = some item ∧ model.Projects wanted item aggregate

/-- The wanted path is shown at an index, and no item before shows it. -/
def FirstShownAt (model : Model) (wanted : PathKey) (index : Nat) (aggregate : Bool) : Prop :=
  model.ShownAt wanted index aggregate ∧
    ∀ earlier < index, ∀ other, ¬ model.ShownAt wanted earlier other

variable {model : Model} {wanted : PathKey}

theorem Projects.unique {item : SelectItem} {first second : Bool}
    (here : model.Projects wanted item first) (there : model.Projects wanted item second) :
    first = second := by
  obtain ⟨_, shows, _⟩ := here
  obtain ⟨_, shows', _⟩ := there
  rw [SelectItem.shows_iff] at shows shows'
  exact (Prod.mk.inj (Option.some.inj (shows.symm.trans shows'))).2

theorem FirstShownAt.unique {first second : Nat} {aggregate other : Bool}
    (here : model.FirstShownAt wanted first aggregate)
    (there : model.FirstShownAt wanted second other) : first = second ∧ aggregate = other := by
  obtain rfl : first = second := by
    rcases Nat.lt_trichotomy first second with less | same | less
    · exact absurd here.1 (there.2 _ less _)
    · exact same
    · exact absurd there.1 (here.2 _ less _)
  obtain ⟨item, found, projects⟩ := here.1
  obtain ⟨item', found', projects'⟩ := there.1
  obtain rfl := Option.some.inj (found.symm.trans found')
  exact ⟨rfl, projects.unique projects'⟩

/-! ### The search -/

/-- Each step of the search takes the item in front or leaves it out. -/
theorem findShown_cons (ordered : model.query.Ordered) (wanted : PathKey) (index : Nat)
    (item : SelectItem) (rest : List SelectItem) :
    (∃ aggregate, model.Projects wanted item aggregate ∧
        model.findShown wanted index (item :: rest) = some ⟨index, aggregate⟩) ∨
      (∀ aggregate, ¬ model.Projects wanted item aggregate) ∧
        model.findShown wanted index (item :: rest) = model.findShown wanted (index + 1) rest := by
  rw [findShown]
  cases shown : item.shown? with
  | none =>
    refine .inr ⟨?_, rfl⟩
    rintro aggregate ⟨path, shows, _⟩
    cases shown.symm.trans (SelectItem.shows_iff.mp shows)
  | some found =>
    obtain ⟨path, aggregate⟩ := found
    by_cases same : path.key.expand model.query.joins = wanted
    · refine .inl ⟨aggregate, ⟨path, SelectItem.shows_iff.mpr shown, ?_⟩, if_pos same⟩
      exact (PathKey.expands_iff ordered).mpr same
    · refine .inr ⟨?_, if_neg same⟩
      rintro other ⟨path', shows, expands⟩
      obtain ⟨rfl, _⟩ :=
        Prod.mk.inj (Option.some.inj (shown.symm.trans (SelectItem.shows_iff.mp shows)))
      exact same ((PathKey.expands_iff ordered).mp expands)

theorem findShown_none (ordered : model.query.Ordered) {index : Nat} {items : List SelectItem}
    (none : model.findShown wanted index items = none) :
    ∀ item ∈ items, ∀ aggregate, ¬ model.Projects wanted item aggregate := by
  induction items generalizing index with
  | nil => exact fun _ member => nomatch member
  | cons item rest ih =>
    rcases findShown_cons ordered wanted index item rest with
      ⟨aggregate, _, found⟩ | ⟨other, further⟩
    · cases none.symm.trans found
    · exact List.forall_mem_cons.mpr ⟨other, ih (further.symm.trans none)⟩

theorem findShown_some (ordered : model.query.Ordered) {index : Nat} {items : List SelectItem}
    {projection : Projection} (some : model.findShown wanted index items = some projection) :
    ∃ before item after, items = before ++ item :: after ∧
      projection.index = index + before.length ∧
      model.Projects wanted item projection.aggregate ∧
      ∀ other ∈ before, ∀ aggregate, ¬ model.Projects wanted other aggregate := by
  induction items generalizing index with
  | nil => cases some
  | cons item rest ih =>
    rcases findShown_cons ordered wanted index item rest with
      ⟨aggregate, projects, found⟩ | ⟨other, further⟩
    · obtain rfl := Option.some.inj (found.symm.trans some)
      exact ⟨[], item, rest, rfl, rfl, projects, fun _ member => nomatch member⟩
    · obtain ⟨before, found, after, rfl, place, projects, others⟩ := ih (further.symm.trans some)
      refine ⟨item :: before, found, after, rfl, ?_, projects,
        List.forall_mem_cons.mpr ⟨other, others⟩⟩
      rw [place, List.length_cons]
      omega

theorem findShown_first (ordered : model.query.Ordered) {projection : Projection}
    (some : model.findShown wanted 0 model.query.items = some projection) :
    model.FirstShownAt wanted projection.index projection.aggregate := by
  obtain ⟨before, item, after, split, place, projects, others⟩ := findShown_some ordered some
  rw [Nat.zero_add] at place
  rw [place]
  refine ⟨⟨item, ?_, projects⟩, ?_⟩
  · rw [split]
    simp
  · rintro earlier less aggregate ⟨other, found, shown⟩
    rw [split, List.getElem?_append_left less] at found
    exact others other (List.mem_of_getElem? found) aggregate shown

/-! ### Looking up a position -/

theorem positionOf_undeclared {target : Path} (undeclared : target.root.value ∉ model.aliases) :
    model.positionOf target = .error (.unresolved target.root.value target.dotted
      (.undeclared target.root.value) target.root.span) := by
  have absent : model.range? target.root.value = none := by
    refine List.find?_eq_none.mpr fun range member same => undeclared ?_
    rw [← eq_of_beq same]
    exact List.mem_map_of_mem member
  rw [positionOf, absent]
  rfl

theorem positionOf_declared {target : Path} (declared : target.root.value ∈ model.aliases) :
    model.positionOf target =
      .ok (model.findShown (target.key.expand model.query.joins) 0 model.query.items) := by
  obtain ⟨range, member, named⟩ := List.mem_map.mp declared
  cases found : model.range? target.root.value with
  | none =>
    have missing := List.find?_eq_none.mp found range member
    simp [named] at missing
  | some other =>
    rw [positionOf, found]
    rfl

/-- A path whose alias is declared is shown at the first item that shows it, or nowhere. -/
theorem positionOf_iff (ordered : model.query.Ordered) {target : Path}
    (expands : PathKey.Expands model.query target.key wanted)
    (declared : target.root.value ∈ model.aliases) :
    (∀ index aggregate, model.positionOf target = .ok (some ⟨index, aggregate⟩) ↔
        model.FirstShownAt wanted index aggregate) ∧
      (model.positionOf target = .ok none ↔
        ∀ index aggregate, ¬ model.ShownAt wanted index aggregate) := by
  rw [positionOf_declared declared, (PathKey.expands_iff ordered).mp expands]
  cases result : model.findShown wanted 0 model.query.items with
  | none =>
    have nowhere : ∀ index aggregate, ¬ model.ShownAt wanted index aggregate := by
      rintro index aggregate ⟨item, found, projects⟩
      exact findShown_none ordered result item (List.mem_of_getElem? found) aggregate projects
    exact ⟨fun index aggregate => ⟨(nomatch ·), fun first => absurd first.1 (nowhere _ _)⟩,
      fun _ => nowhere, fun _ => rfl⟩
  | some projection =>
    have first := findShown_first ordered result
    refine ⟨fun index aggregate => ⟨?_, fun other => ?_⟩, (nomatch ·), fun nowhere => ?_⟩
    · rintro same
      cases same
      exact first
    · obtain ⟨rfl, rfl⟩ := first.unique other
      rfl
    · exact absurd first.1 (nowhere _ _)

/-- Following the joins of a path comes to an end, as each of them starts at a range further in
front. A path has no position only if its alias is no range of the model; the position of any other
path is that of the first item that shows it, if one does. -/
theorem Reachable.positionOf_exact {schema : Schema} (reachable : Reachable schema model)
    (target : Path) :
    (∀ name path, model.query.joined? name = some path →
        name ∈ model.query.aliases.map (·.value) ∧
          (model.query.aliases.map (·.value)).idxOf path.root.value <
            (model.query.aliases.map (·.value)).idxOf name) ∧
      (∀ key, ∃! result, PathKey.Expands model.query key result) ∧
      (∀ error, model.positionOf target = .error error ↔
        target.root.value ∉ model.aliases ∧ error = .unresolved target.root.value target.dotted
          (.undeclared target.root.value) target.root.span) ∧
      ∀ wanted, PathKey.Expands model.query target.key wanted →
        target.root.value ∈ model.aliases →
          (∀ index aggregate, model.positionOf target = .ok (some ⟨index, aggregate⟩) ↔
              model.ShownAt wanted index aggregate ∧
                ∀ earlier < index, ∀ other, ¬ model.ShownAt wanted earlier other) ∧
            (model.positionOf target = .ok none ↔
              ∀ index aggregate, ¬ model.ShownAt wanted index aggregate) := by
  have ordered := reachable.ordered
  refine ⟨fun name path joined => ordered.idxOf_lt joined, fun key => ?_, fun error => ?_,
    fun wanted expands declared => positionOf_iff ordered expands declared⟩
  · exact ⟨_, PathKey.expands_expand ordered key,
      fun other expands => expands.unique (PathKey.expands_expand ordered key)⟩
  · by_cases declared : target.root.value ∈ model.aliases
    · rw [positionOf_declared declared]
      exact ⟨(nomatch ·), fun undeclared => absurd declared undeclared.1⟩
    · rw [positionOf_undeclared declared]
      exact ⟨fun same => ⟨declared, (Except.error.inj same).symm⟩, fun same => by rw [same.2]⟩

end Model

/-! ### A market -/

/-- Customers in regions, with their orders. -/
def Schema.market : Schema :=
  let id : Attribute := ⟨"id", .scalar .uuid, .single, false⟩
  let name : Attribute := ⟨"name", .scalar .string, .single, false⟩
  ((empty.insert ⟨"Region", "id", [id, name], ⟨none, none⟩⟩).insert
    ⟨"Customer", "id", [id, name, ⟨"region", .reference "Region", .single, false⟩,
      ⟨"orders", .reference "Order", .collection, false⟩], ⟨none, none⟩⟩).insert
    ⟨"Order", "id", [id, ⟨"total", .scalar .decimal, .single, false⟩,
      ⟨"customer", .reference "Customer", .single, false⟩], ⟨none, none⟩⟩

/-- Two joins are followed, items that show another path or call a function of the wanted one are
passed over, and a second item that shows it comes too late. -/
theorem Model.Reachable.positionOf_exact_market :
    ∃ query model target,
      Query.parse "select o.total, lower(r.name), count(r.name), r.name, c.region.name from Order o join o.customer c join c.region r"
        2 = .ok query ∧
      Model.bind .market query .empty = .ok model ∧
      Path.parse "o.customer.region.name" = .ok target ∧
      (∃! result, PathKey.Expands model.query ⟨"r", ["name"]⟩ result) ∧
      (∀ error, model.positionOf target ≠ .error error) ∧
      PathKey.Expands model.query target.key ⟨"o", ["customer", "region", "name"]⟩ ∧
      model.positionOf target = .ok (some ⟨2, true⟩) ∧
      model.ShownAt ⟨"o", ["customer", "region", "name"]⟩ 2 true ∧
      ∀ earlier < 2, ∀ other,
        ¬ model.ShownAt ⟨"o", ["customer", "region", "name"]⟩ earlier other := by
  have runs : ((Query.parse "select o.total, lower(r.name), count(r.name), r.name, c.region.name from Order o join o.customer c join c.region r"
      2).toOption.bind fun query => (Model.bind .market query .empty).toOption.bind fun model =>
        (Path.parse "o.customer.region.name").toOption.map fun target =>
          (decide (target.root.value ∈ model.aliases), target.key.expand model.query.joins,
            (model.positionOf target).toOption)) =
      some (true, ⟨"o", ["customer", "region", "name"]⟩, some (some ⟨2, true⟩)) := by
    decide +kernel
  obtain ⟨query, parsed, runs⟩ := Option.bind_eq_some_iff.mp runs
  obtain ⟨model, bind, runs⟩ := Option.bind_eq_some_iff.mp runs
  obtain ⟨target, path, runs⟩ := Option.map_eq_some_iff.mp runs
  obtain ⟨declared, runs⟩ := Prod.mk.inj runs
  obtain ⟨expanded, position⟩ := Prod.mk.inj runs
  have declared := of_decide_eq_true declared
  have position := ok_of_toOption position
  have reachable : Reachable .market model := .bound (ok_of_toOption bind)
  have expands := (PathKey.expands_iff reachable.ordered).mpr expanded
  obtain ⟨_, unique, fails, exact⟩ := Reachable.positionOf_exact reachable target
  obtain ⟨found, _⟩ := exact _ expands declared
  obtain ⟨shown, first⟩ := (found 2 true).mp position
  exact ⟨query, model, target, ok_of_toOption parsed, ok_of_toOption bind, ok_of_toOption path,
    unique _, fun error failing => ((fails error).mp failing).1 declared, expands, position, shown,
    first⟩

end QueryGuard
