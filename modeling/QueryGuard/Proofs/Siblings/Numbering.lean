import Mathlib.Order.Interval.Finset.Nat
import Mathlib.Order.Bounds.Basic
import QueryGuard.Proofs.Siblings.Choosing
/-!
Numbering an alias until the candidate is free. The search ends, and the number that it comes to is the
least one whose candidate is neither taken nor reserved.
-/

set_option autoImplicit false

namespace QueryGuard

namespace FreshAlias

/-- Candidates are tried from a number on until one is not to be avoided. Counted are those tried. -/
inductive Tries (avoid : String → Prop) (name : String) : Nat → Nat → String → Prop where
  | free {number : Nat} (free : ¬ avoid (numbered name number)) :
      Tries avoid name number 1 (numbered name number)
  | next {number count : Nat} {found : String} (taken : avoid (numbered name number))
      (later : Tries avoid name (number + 1) count found) :
      Tries avoid name number (count + 1) found

namespace Tries

variable {avoid : String → Prop} {name : String} {start : Nat}

/-- A search has one outcome at most. -/
theorem unique {count count' : Nat} {found found' : String} (tries : Tries avoid name start count found)
    (tries' : Tries avoid name start count' found') : count = count' ∧ found = found' := by
  induction tries generalizing count' with
  | free free =>
    cases tries' with
    | free => exact ⟨rfl, rfl⟩
    | next taken => exact absurd taken free
  | next taken _ ih =>
    cases tries' with
    | free free => exact absurd taken free
    | next _ later =>
      obtain ⟨rfl, rfl⟩ := ih later
      exact ⟨rfl, rfl⟩

/-- A search passes the candidates to be avoided one by one. -/
theorem of_avoided (length : Nat)
    (avoided : ∀ number, start ≤ number → number < start + length → avoid (numbered name number))
    (free : ¬ avoid (numbered name (start + length))) :
    Tries avoid name start (length + 1) (numbered name (start + length)) := by
  induction length generalizing start with
  | zero => exact .free free
  | succ length ih =>
    have same : start + 1 + length = start + (length + 1) := by omega
    refine .next (avoided start (Nat.le_refl _) (by omega)) ?_
    rw [← same] at free avoided ⊢
    exact ih (fun number after before => avoided number (by omega) before) free

end Tries

/-- The number that an alias gets: its candidate is the first free one, there are not more candidates
up to it than aliases to avoid and one, and the search tries just these. -/
structure IsFresh (taken reserved : List String) (name : String) (number : Nat) : Prop where
  least : IsLeast
    {n | 1 ≤ n ∧ stem name ++ toString n ∉ taken ∧ stem name ++ toString n ∉ reserved} number
  bounded : number ≤ taken.toFinset.card + reserved.toFinset.card + 1
  search : ∀ count found,
    Tries (fun candidate => candidate ∈ taken ∨ candidate ∈ reserved) name 1 count found ↔
      count = number ∧ found = stem name ++ toString number

/-- Different numbers make different candidates, so few of them can be avoided. -/
theorem le_card_of_avoided {avoid : Finset String} {name : String} {length : Nat}
    (avoided : ∀ number, 1 ≤ number → number ≤ length → numbered name number ∈ avoid) :
    length ≤ avoid.card := by
  have injective : Set.InjOn (numbered name) (Finset.Icc 1 length) :=
    fun _ _ _ _ same => numbered_inj same
  have among : Set.MapsTo (numbered name) (Finset.Icc 1 length) avoid := by
    intro number member
    obtain ⟨positive, small⟩ := Finset.mem_Icc.mp member
    exact avoided number positive small
  have small := Finset.card_le_card_of_injOn (numbered name) among injective
  rwa [Nat.card_Icc, Nat.add_sub_cancel] at small

theorem exists_isFresh (taken reserved : List String) (name : String) :
    ∃ number, IsFresh taken reserved name number ∧
      choose (taken ++ reserved) name = stem name ++ toString number := by
  obtain ⟨number, positive, chosen, free, before⟩ := exists_choice (taken ++ reserved) name
  obtain ⟨length, rfl⟩ := Nat.exists_eq_add_of_le positive
  have union : (taken ++ reserved).toFinset.card ≤ taken.toFinset.card + reserved.toFinset.card := by
    rw [List.toFinset_append]
    exact Finset.card_union_le _ _
  have passed : length ≤ (taken ++ reserved).toFinset.card :=
    le_card_of_avoided fun earlier first small =>
      List.mem_toFinset.mpr (before earlier first (by omega))
  have tries : Tries (fun candidate => candidate ∈ taken ∨ candidate ∈ reserved) name 1 (length + 1)
      (numbered name (1 + length)) :=
    .of_avoided length (fun earlier first small => List.mem_append.mp (before earlier first small))
      (fun avoided => free (List.mem_append.mpr avoided))
  refine ⟨1 + length, ⟨⟨⟨positive, ?_⟩, ?_⟩, by omega, fun count found => ⟨fun other => ?_, ?_⟩⟩, chosen⟩
  · rw [List.mem_append, not_or] at free
    exact free
  · rintro earlier ⟨first, untaken, unreserved⟩
    by_contra smaller
    have avoided := List.mem_append.mp (before earlier first (Nat.lt_of_not_le smaller))
    exact avoided.elim untaken unreserved
  · obtain ⟨rfl, rfl⟩ := tries.unique other
    exact ⟨Nat.add_comm _ _, rfl⟩
  · rintro ⟨rfl, rfl⟩
    rw [Nat.add_comm 1 length] at tries ⊢
    exact tries

/-- The stem is what stands in front of the digits at the end, unless nothing does. -/
theorem stem_eq (name : String) : ∃ letters digits, name.toList = letters ++ digits ∧
    (∀ c ∈ digits, c.isDigit) ∧ (∀ c ∈ letters.getLast?, ¬ c.isDigit) ∧
    stem name = if letters = [] then name else String.ofList letters := by
  refine ⟨(name.toList.reverse.dropWhile Char.isDigit).reverse,
    (name.toList.reverse.takeWhile Char.isDigit).reverse, ?_, ?_, ?_, ?_⟩
  · rw [← List.reverse_append, List.takeWhile_append_dropWhile, List.reverse_reverse]
  · intro c member
    exact List.all_eq_true.mp List.all_takeWhile c (List.mem_reverse.mp member)
  · intro c last
    rw [List.getLast?_reverse] at last
    have stops := List.head?_dropWhile_not Char.isDigit name.toList.reverse
    rw [Option.mem_def.mp last] at stops
    simpa using stops
  · simp only [stem, List.isEmpty_iff]

/-- An added query and a query beside others get the least number: for the one a candidate is free if it is
neither taken nor reserved, for the other if it is not taken, and then it is. -/
theorem numbers_least (name : String) :
    (∀ taken reserved, ∃ number, IsFresh taken reserved name number ∧
      choose (taken ++ reserved) name = stem name ++ toString number) ∧
    (∀ (visible : List Siblings.Chosen) (before : Siblings.State), ¬ Siblings.Seen visible name →
      name ∈ before.closed → ∃ number, IsFresh before.taken [] name number ∧
        (Siblings.choose visible name).run before = (stem name ++ toString number,
          { before with taken := (stem name ++ toString number) :: before.taken })) ∧
    ∃ letters digits, name.toList = letters ++ digits ∧ (∀ c ∈ digits, c.isDigit) ∧
      (∀ c ∈ letters.getLast?, ¬ c.isDigit) ∧
      stem name = if letters = [] then name else String.ofList letters := by
  refine ⟨fun taken reserved => exists_isFresh taken reserved name, ?_, stem_eq name⟩
  intro visible before unseen closed
  obtain ⟨number, isFresh, chosen⟩ := exists_isFresh before.taken [] name
  rw [List.append_nil] at chosen
  have renamed : (!(visible.any fun pair => pair.1 == name || pair.2 == name) &&
      before.closed.contains name) = true := by
    rw [Bool.eq_false_iff.mpr fun is => unseen (Siblings.any_eq_true_iff_seen.mp is)]
    simpa using closed
  refine ⟨number, isFresh, ?_⟩
  rw [Siblings.choose_run, if_pos renamed, chosen]

/-- The digit of the alias is replaced, by the first one that is free. -/
theorem numbers_least_order :
    ¬ Siblings.Seen [] "o9" ∧ "o9" ∈ ["o9"] ∧
      (Siblings.choose [] "o9").run ⟨["o9", "o1"], ["o9"]⟩ =
        ("o2", ⟨["o2", "o9", "o1"], ["o9"]⟩) := by
  have unseen : ¬ Siblings.Seen [] "o9" := by simp [Siblings.Seen]
  have closed : "o9" ∈ ["o9"] := List.mem_singleton_self _
  refine ⟨unseen, closed, ?_⟩
  obtain ⟨number, isFresh, run⟩ :=
    (numbers_least "o9").2.1 [] ⟨["o9", "o1"], ["o9"]⟩ unseen closed
  obtain ⟨positive, untaken, _⟩ := isFresh.least.1
  have small : number ≤ 2 := isFresh.least.2 ⟨by decide, by decide +kernel, by decide +kernel⟩
  have other : number ≠ 1 := by
    rintro rfl
    exact absurd untaken (by decide +kernel)
  obtain rfl : number = 2 := by omega
  have shown : stem "o9" ++ toString 2 = "o2" := by decide +kernel
  rw [run, shown]

end FreshAlias

end QueryGuard
