import Mathlib.Algebra.Group.End
import QueryGuard.Proofs.Rewriting.Requested
/-!
The aliases of the ranges that criteria add. Under two namings they differ by a permutation of all
aliases, which leaves the ranges of the model alone; what is known of them is the same.
-/

set_option autoImplicit false

namespace QueryGuard

/-- Pairs of different names are part of a permutation of all names. -/
theorem exists_perm_of_pairs {pairs : List (String × String)} (distinct : (pairs.map (·.1)).Nodup)
    (distinct' : (pairs.map (·.2)).Nodup) :
    ∃ f : Equiv.Perm String, ∀ pair ∈ pairs, f pair.1 = pair.2 := by
  induction pairs with
  | nil => exact ⟨1, fun _ none => nomatch none⟩
  | cons pair rest ih =>
    obtain ⟨new, others⟩ := List.nodup_cons.mp distinct
    obtain ⟨new', others'⟩ := List.nodup_cons.mp distinct'
    obtain ⟨f, translates⟩ := ih others others'
    -- Swapping what the first name goes to with what it should go to moves no other name.
    refine ⟨Equiv.swap (f pair.1) pair.2 * f, List.forall_mem_cons.mpr
      ⟨Equiv.swap_apply_left _ _, fun other member => ?_⟩⟩
    rw [Equiv.Perm.mul_apply, translates other member]
    refine Equiv.swap_apply_of_ne_of_ne (fun same => new ?_) fun same => new' ?_
    · rw [← translates other member] at same
      exact List.mem_map.mpr ⟨other, member, f.injective same⟩
    · exact List.mem_map.mpr ⟨other, member, same⟩

theorem lookup_iff {α β : Type} [BEq α] [LawfulBEq α] {key : α} {value : β} {pairs : List (α × β)}
    (distinct : (pairs.map (·.1)).Nodup) :
    pairs.lookup key = some value ↔ (key, value) ∈ pairs :=
  ⟨mem_of_lookup, lookup_of_mem distinct⟩

/-- A criterion added the range of an alias. -/
def Model.Injects (model : Model) (name criterion : String) : Prop :=
  ∃ range ∈ model.ranges, range.name = name ∧ range.injectedBy = some criterion

namespace Model

variable {model : Model}

theorem mem_injected {name criterion : String} :
    (name, criterion) ∈ model.progress.injected ↔ model.Injects name criterion := by
  simp only [progress, List.mem_filterMap, Option.map_eq_some_iff, Prod.mk.injEq, Injects]
  constructor
  · rintro ⟨range, among, _, owner, named, rfl⟩
    exact ⟨range, among, named, owner⟩
  · rintro ⟨range, among, named, owner⟩
    exact ⟨range, among, criterion, owner, named, rfl⟩

theorem Injects.mem_aliases {name criterion : String} (injects : model.Injects name criterion) :
    name ∈ model.aliases := by
  obtain ⟨range, among, rfl, _⟩ := injects
  exact List.mem_map_of_mem among

theorem injected_sublist (model : Model) :
    (model.progress.injected.map (·.1)).Sublist model.aliases := by
  rw [progress, aliases, List.map_filterMap]
  induction model.ranges with
  | nil => exact .slnil
  | cons range rest ih =>
    cases written : range.injectedBy with
    | none => simpa [written] using ih.cons _
    | some owner => simpa [written] using ih

end Model

namespace Constraint

/-- The alias of the range that is added for a request, if one is. -/
def Naming.used (naming : Naming) (request : Request) : Option String :=
  request.label?.map fun _ => naming request.range request.criterion

/-- The list says which criterion added which range: those of the model, and those of the requests. -/
structure Naming.Lists (naming : Naming) (model : Model) (requests : List Request)
    (injected : List (String × String)) : Prop where
  nodup : (injected.map (·.1)).Nodup
  mem_iff : ∀ name criterion, (name, criterion) ∈ injected ↔ model.Injects name criterion ∨
    ∃ request ∈ requests, naming.used request = some name ∧ request.criterion = criterion

/-- The permutation leaves the ranges of the model alone, and takes the aliases of one naming to those of
the other. -/
structure Translates (f : Equiv.Perm String) (model : Model) (requests : List Request)
    (naming naming' : Naming) : Prop where
  aliases : ∀ name ∈ model.aliases, f name = name
  used : ∀ request ∈ requests, (naming.used request).map f = naming'.used request

variable {naming naming' : Naming} {requests others : List Request} {model : Model}

theorem Naming.Suits.drawn_eq {taken : List String} (suits : naming.Suits (drawn taken requests)) :
    drawn taken requests =
      requests.filterMap fun request => (naming.used request).map (request, ·) := by
  induction requests generalizing taken with
  | nil => rfl
  | cons request rest ih =>
    rw [drawn] at suits ⊢
    cases labelled : request.label? with
    | none =>
      rw [labelled] at suits
      rw [List.filterMap_cons_none (by rw [used, labelled]; rfl)]
      exact ih suits
    | some label =>
      rw [labelled] at suits
      obtain ⟨here, others⟩ := List.forall_mem_cons.mp suits
      have named : naming.used request = some (pick taken label) := by
        rw [used, labelled]
        exact congrArg some here
      rw [List.filterMap_cons_some (by rw [named]; rfl)]
      exact congrArg (_ :: ·) (ih others)

/-- If the aliases of both namings are different and new, a permutation takes the ones to the others. -/
theorem exists_translates (distinct : (model.aliases ++ requests.filterMap naming.used).Nodup)
    (distinct' : (model.aliases ++ requests.filterMap naming'.used).Nodup) :
    ∃ f, Translates f model requests naming naming' := by
  let kept : List (String × String) := model.aliases.map fun name => (name, name)
  let changed : List (String × String) := requests.filterMap fun request =>
    request.label?.map fun _ =>
      (naming request.range request.criterion, naming' request.range request.criterion)
  have firsts : (kept ++ changed).map (·.1) = model.aliases ++ requests.filterMap naming.used := by
    simp only [kept, changed, List.map_append, List.map_map, List.map_filterMap, Option.map_map,
      Function.comp_def, List.map_id']
    rfl
  have seconds : (kept ++ changed).map (·.2) =
      model.aliases ++ requests.filterMap naming'.used := by
    simp only [kept, changed, List.map_append, List.map_map, List.map_filterMap, Option.map_map,
      Function.comp_def, List.map_id']
    rfl
  obtain ⟨f, translates⟩ := exists_perm_of_pairs (firsts ▸ distinct) (seconds ▸ distinct')
  obtain ⟨aliases, used⟩ := List.forall_mem_append.mp translates
  refine ⟨f, fun name member => aliases _ (List.mem_map_of_mem member), fun request member => ?_⟩
  cases labelled : request.label? with
  | none => rw [Naming.used, Naming.used, labelled]; rfl
  | some label =>
    rw [Naming.used, Naming.used, labelled]
    exact congrArg some (used _ (List.mem_filterMap.mpr ⟨request, member, by rw [labelled]; rfl⟩))

/-- What is known of the ranges that criteria added is the same under both namings. -/
theorem Translates.lookup_eq {f : Equiv.Perm String}
    (translates : Translates f model requests naming naming')
    {injected injected' : List (String × String)} (lists : naming.Lists model requests injected)
    (lists' : naming'.Lists model requests injected') (name : String) :
    injected'.lookup (f name) = injected.lookup name := by
  apply Option.ext
  intro criterion
  rw [lookup_iff lists.nodup, lookup_iff lists'.nodup, lists.mem_iff, lists'.mem_iff]
  have old : model.Injects (f name) criterion ↔ model.Injects name criterion := by
    constructor
    · intro injects
      rwa [f.injective (translates.aliases _ injects.mem_aliases)] at injects
    · intro injects
      rwa [translates.aliases name injects.mem_aliases]
  have added : (∃ request ∈ requests, naming'.used request = some (f name) ∧
      request.criterion = criterion) ↔
      ∃ request ∈ requests, naming.used request = some name ∧ request.criterion = criterion := by
    refine exists_congr fun request => and_congr_right fun member => and_congr_left' ?_
    rw [← translates.used request member, Option.map_eq_some_iff]
    exact ⟨fun ⟨used, is, moved⟩ => f.injective moved ▸ is, fun is => ⟨name, is, rfl⟩⟩
  rw [old, added]

namespace Naming.Lists

variable {injected : List (String × String)}

theorem perm (lists : naming.Lists model requests injected) (same : requests.Perm others) :
    naming.Lists model others injected :=
  ⟨lists.nodup, fun name criterion => by simp only [lists.mem_iff, same.mem_iff]⟩

theorem lookup_used (lists : naming.Lists model requests injected) {request : Request}
    (member : request ∈ requests) {name : String} (used : naming.used request = some name) :
    injected.lookup name = some request.criterion :=
  (lookup_iff lists.nodup).mpr ((lists.mem_iff _ _).mpr (.inr ⟨request, member, used, rfl⟩))

theorem lookup_model (lists : naming.Lists model requests injected) {name : String}
    (unused : ∀ request ∈ requests, naming.used request ≠ some name) {criterion : String} :
    injected.lookup name = some criterion ↔ model.Injects name criterion := by
  rw [lookup_iff lists.nodup, lists.mem_iff]
  exact or_iff_left fun ⟨request, member, used, _⟩ => unused request member used

end Naming.Lists

/-- A request whose range is one of the model is worded as in the other naming. -/
theorem Translates.relabel_worded {f : Equiv.Perm String}
    (translates : Translates f model requests naming naming') {request : Request}
    (member : request ∈ requests) (among : request.range ∈ model.aliases)
    (simple : request.contribution.Simple request.range) :
    (request.worded naming).relabel f = request.worded naming' := by
  rw [Request.worded, simple.relabel_worded (translates.aliases _ among)]
  have used := translates.used request member
  rw [Naming.used, Naming.used] at used
  cases labelled : request.label? with
  | some label =>
    rw [labelled] at used
    rw [Option.some.inj used, Request.worded]
  | none =>
    cases simple with
    | plain plain =>
      rw [Request.worded, Contribution.Simple.worded_plain plain,
        Contribution.Simple.worded_plain plain]
    | inside _ is => cases (Contribution.Simple.label?_inside is).symm.trans labelled

/-! ### What criteria have added -/

namespace Setting.Fits

variable {setting : Setting}

theorem used_eq (fits : setting.Fits naming) :
    (drawn setting.model.aliases setting.requests).map (·.2) =
      setting.requests.filterMap naming.used := by
  rw [Naming.Suits.drawn_eq fits, List.map_filterMap]
  refine List.filterMap_congr fun request _ => ?_
  rw [Option.map_map]
  exact Option.map_id'

/-- The aliases of added ranges are different, and new. -/
theorem nodup (fits : setting.Fits naming) (distinct : setting.model.aliases.Nodup) :
    (setting.model.aliases ++ setting.requests.filterMap naming.used).Nodup := by
  obtain ⟨nodup, new⟩ := nodup_drawn setting.model.aliases setting.requests
  rw [used_eq fits] at nodup new
  exact List.nodup_append.mpr
    ⟨distinct, nodup, fun name member used among same => new used among (same ▸ member)⟩

theorem used_new (fits : setting.Fits naming) (distinct : setting.model.aliases.Nodup)
    {request : Request} (member : request ∈ setting.requests) {name : String}
    (used : naming.used request = some name) : name ∉ setting.model.aliases := fun known =>
  (List.nodup_append.mp (fits.nodup distinct)).2.2 name known name
    (List.mem_filterMap.mpr ⟨request, member, used⟩) rfl

/-- Behind the requests it is known which criterion added which range. -/
theorem lists (fits : setting.Fits naming) (distinct : setting.model.aliases.Nodup) :
    naming.Lists setting.model setting.requests setting.reachedProgress.injected := by
  have known : setting.reachedProgress.injected =
      (setting.requests.filterMap fun request =>
        (naming.used request).map (·, request.criterion)).reverse ++
        setting.model.progress.injected := by
    change ((drawn setting.model.aliases setting.requests).map _).reverse ++ _ = _
    rw [Naming.Suits.drawn_eq fits, List.map_filterMap]
    simp only [Option.map_map, Function.comp_def]
  constructor
  · have apart := fits.nodup distinct
    rw [known, List.map_append, List.map_reverse, List.map_filterMap]
    simp only [Option.map_map, Function.comp_def, Option.map_id']
    have kept : (setting.model.progress.injected.map (·.1) ++
        setting.requests.filterMap naming.used).Nodup :=
      apart.sublist (setting.model.injected_sublist.append_right _)
    exact (((List.reverse_perm _).append_right _).trans List.perm_append_comm).nodup_iff.mpr kept
  · intro name criterion
    rw [known, List.mem_append, List.mem_reverse, Model.mem_injected, or_comm]
    simp only [List.mem_filterMap, Option.map_eq_some_iff, Prod.mk.injEq]
    refine or_congr_right (exists_congr fun request => and_congr_right fun _ => ?_)
    exact ⟨fun ⟨used, is, named, owner⟩ => ⟨named ▸ is, owner⟩,
      fun ⟨is, owner⟩ => ⟨name, is, rfl, owner⟩⟩

end Setting.Fits

end Constraint

end QueryGuard
