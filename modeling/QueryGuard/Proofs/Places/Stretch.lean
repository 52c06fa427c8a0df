import QueryGuard.Proofs.Grammar.Shape
import QueryGuard.Proofs.Lexing.Tiling
/-!
Values that stand in a list of lexemes one after another, with other lexemes in between, and the
places that they have.

This is what is left of a rule of the grammar where only some of its parts matter: the parts have
lexemes of their own, and these come in the order of the parts. As lexemes stand one behind the
other in a text, so do the places of the parts.
-/

set_option autoImplicit false

namespace QueryGuard

namespace Grammar

/-! ### Values among lexemes -/

/-- Each value is derived from lexemes behind those of the one before it. -/
inductive Among {α : Type} (item : Rule α) : Rule (List α) where
  | none {words : List Lexeme} : Among item words []
  | next {before words after : List Lexeme} {value : α} {values : List α}
      (holds : item words value) (others : Among item after values) :
      Among item (before ++ (words ++ after)) (value :: values)

section

variable {α β : Type} {item : Rule α} {item' : Rule β} {words words' : List Lexeme}

namespace Among

variable {values values' : List α}

theorem behind (among : Among item words values) (before : List Lexeme) :
    Among item (before ++ words) values := by
  cases among with
  | none => exact .none
  | @next ahead words after _ _ holds others =>
    rw [← List.append_assoc]
    exact .next holds others

theorem append (among : Among item words values) (among' : Among item words' values') :
    Among item (words ++ words') (values ++ values') := by
  induction among with
  | none => exact among'.behind _
  | next holds _ ih =>
    rw [List.append_assoc, List.append_assoc]
    exact .next holds ih

theorem before (among : Among item words values) (after : List Lexeme) :
    Among item (words ++ after) values := by
  have both : Among item (words ++ after) (values ++ []) := among.append .none
  rwa [List.append_nil] at both

theorem single {value : α} (holds : item words value) : Among item words [value] := by
  have alone : Among item ([] ++ (words ++ [])) [value] := .next holds .none
  rwa [List.append_nil] at alone

/-- One more value, the lexemes of which come first. -/
theorem cons {value : α} (holds : item words value) (others : Among item words' values) :
    Among item (words ++ words') (value :: values) := by
  have first : Among item ([] ++ (words ++ words')) (value :: values) := .next holds others
  exact first

theorem flatMap {f : α → List β} (among : Among item words values)
    (each : ∀ words value, item words value → Among item' words (f value)) :
    Among item' words (values.flatMap f) := by
  induction among with
  | none => exact .none
  | next holds _ ih => exact ((each _ _ holds).append ih).behind _

/-- Some of the values, in another form. -/
theorem filterMap {f : α → Option β} (among : Among item words values)
    (each : ∀ words value found, item words value → f value = some found → item' words found) :
    Among item' words (values.filterMap f) := by
  induction among with
  | none => exact .none
  | @next ahead words after value values holds _ ih =>
    rw [List.filterMap_cons]
    split
    · exact (ih.behind _).behind _
    · rename_i found known
      exact .next (each _ _ _ holds known) ih

theorem each (among : Among item words values) :
    ∀ value ∈ values, ∃ part, part <:+: words ∧ item part value := by
  induction among with
  | none => exact fun _ found => nomatch found
  | @next ahead words after value values holds _ ih =>
    refine List.forall_mem_cons.mpr ⟨⟨words, ⟨ahead, after, by simp⟩, holds⟩, ?_⟩
    intro other found
    obtain ⟨part, inside, derived⟩ := ih other found
    have rest : after <:+: ahead ++ (words ++ after) := ⟨ahead ++ words, [], by simp⟩
    exact ⟨part, inside.trans rest, derived⟩

end Among

/-! ### Parts of the rules -/

variable {separator token : Token}

theorem Behind.among {f : α → List β} {value : α} (behind : Behind token item words value)
    (each : ∀ words value, item words value → Among item' words (f value)) :
    Among item' words (f value) := by
  cases behind with
  | mk _ holds => exact (each _ _ holds).behind [_]

theorem Enclosed.among {f : α → List β} {value : α} (enclosed : Enclosed item words value)
    (each : ∀ words value, item words value → Among item' words (f value)) :
    Among item' words (f value) := by
  cases enclosed with
  | mk _ holds _ => exact ((each _ _ holds).before [_]).behind [_]

theorem Maybe.among {f : α → List β} {value : Option α} (maybe : Maybe item words value)
    (each : ∀ words value, item words value → Among item' words (f value)) :
    Among item' words (value.toList.flatMap f) := by
  cases maybe with
  | absent => exact .none
  | present holds =>
    rw [Option.toList_some, List.flatMap_singleton]
    exact each _ _ holds

theorem Repeated.among {f : α → List β} {values : List α} (repeated : Repeated item words values)
    (each : ∀ words value, item words value → Among item' words (f value)) :
    Among item' words (values.flatMap f) := by
  induction repeated with
  | none => exact .none
  | more first _ ih => exact (each _ _ first).append ih

theorem Separated.among {f : α → List β} {values : List α}
    (separated : Separated separator item words values)
    (each : ∀ words value, item words value → Among item' words (f value)) :
    Among item' words (values.flatMap f) := by
  cases separated with
  | mk first others =>
    exact (each _ _ first).append (others.among fun _ _ behind => behind.among each)

/-! Where each item stands for one of the values, these are the items in another form. -/

section

variable {f : α → β} (each : ∀ words value, item words value → item' words (f value))
include each

theorem Repeated.among_map {values : List α} (repeated : Repeated item words values) :
    Among item' words (values.map f) := by
  rw [List.map_eq_flatMap]
  exact repeated.among fun _ _ holds => .single (each _ _ holds)

theorem Repeated.among_map_behind {values : List α}
    (repeated : Repeated (Behind separator item) words values) :
    Among item' words (values.map f) := by
  rw [List.map_eq_flatMap]
  exact repeated.among fun _ _ behind =>
    behind.among (f := fun value => [f value]) fun _ _ holds => .single (each _ _ holds)

theorem Separated.among_map {values : List α}
    (separated : Separated separator item words values) : Among item' words (values.map f) := by
  cases separated with
  | mk first others => exact .cons (each _ _ first) (others.among_map_behind each)

theorem Maybe.among_map {value : Option α} (maybe : Maybe (Behind token item) words value) :
    Among item' words (value.toList.map f) := by
  rw [List.map_eq_flatMap]
  exact maybe.among fun _ _ behind =>
    behind.among (f := fun value => [f value]) fun _ _ holds => .single (each _ _ holds)

end

end

end Grammar

/-! ### Places -/

/-- One span lies inside another. -/
def Span.Within : Span → Span → Prop
  | .between start stop, .between start' stop' => start' ≤ start ∧ stop ≤ stop'
  | _, _ => False

namespace Grammar

/-- The lexemes reach from one offset to another. They are not empty, and none starts before the one
in front of it has ended. -/
inductive Stretch : List Lexeme → Nat → Nat → Prop where
  | single {lexeme : Lexeme} {start stop : Nat} (place : lexeme.span = .between start stop)
      (nonempty : start < stop) : Stretch [lexeme] start stop
  | cons {lexeme : Lexeme} {words : List Lexeme} {start stop start' stop' : Nat}
      (place : lexeme.span = .between start stop) (nonempty : start < stop)
      (behind : stop ≤ start') (others : Stretch words start' stop') :
      Stretch (lexeme :: words) start stop'

namespace Stretch

variable {words words' : List Lexeme} {start stop : Nat}

theorem lt (stretch : Stretch words start stop) : start < stop := by
  induction stretch with
  | single _ nonempty => exact nonempty
  | cons _ nonempty behind _ ih => omega

theorem ne_nil (stretch : Stretch words start stop) : words ≠ [] := by
  cases stretch <;> exact List.cons_ne_nil _ _

theorem lastPlace (stretch : Stretch words start stop) (previous : Span) :
    ∃ last, start ≤ last ∧ Grammar.lastPlace previous words = .between last stop := by
  induction stretch generalizing previous with
  | single place nonempty => exact ⟨_, Nat.le_refl _, place⟩
  | @cons lexeme _ _ _ _ _ _ nonempty behind _ ih =>
    obtain ⟨last, after, found⟩ := ih lexeme.span
    exact ⟨last, by omega, found⟩

/-- The place of a construct is the stretch of its lexemes. -/
theorem extent (stretch : Stretch words start stop) : extent words = .between start stop := by
  have long := stretch.lt
  cases stretch with
  | single place nonempty =>
    rw [Grammar.extent, Grammar.lastPlace, List.foldl_nil, place, Span.between_merge_between,
      Nat.min_self, Nat.max_self]
  | cons place nonempty behind others =>
    obtain ⟨last, after, found⟩ := others.lastPlace _
    have further := others.lt
    rw [Grammar.extent, found, place, Span.between_merge_between, Nat.min_eq_left (by omega),
      Nat.max_eq_right (by omega)]

theorem of_single {lexeme : Lexeme} (stretch : Stretch [lexeme] start stop) :
    lexeme.span = .between start stop := by
  cases stretch with
  | single place _ => exact place
  | cons _ _ _ others => exact absurd rfl others.ne_nil

theorem uncons {lexeme next : Lexeme} (stretch : Stretch (lexeme :: next :: words) start stop) :
    ∃ middle middle', lexeme.span = .between start middle ∧ start < middle ∧ middle ≤ middle' ∧
      Stretch (next :: words) middle' stop := by
  cases stretch with
  | cons place nonempty behind others => exact ⟨_, _, place, nonempty, behind, others⟩

theorem head {lexeme : Lexeme} (stretch : Stretch (lexeme :: words) start stop) :
    ∃ middle, start < middle ∧ lexeme.span = .between start middle := by
  cases stretch with
  | single place nonempty => exact ⟨_, nonempty, place⟩
  | cons place nonempty _ _ => exact ⟨_, nonempty, place⟩

theorem split (stretch : Stretch (words ++ words') start stop) (nonempty : words ≠ [])
    (nonempty' : words' ≠ []) : ∃ middle middle', Stretch words start middle ∧
      middle ≤ middle' ∧ Stretch words' middle' stop := by
  induction words generalizing start with
  | nil => exact absurd rfl nonempty
  | cons lexeme rest ih =>
    rw [List.cons_append] at stretch
    generalize whole : rest ++ words' = others at stretch
    cases stretch with
    | single => simp [nonempty'] at whole
    | @cons _ _ _ middle next _ place long behind others =>
      subst whole
      by_cases last : rest = []
      · subst last
        exact ⟨middle, next, .single place long, behind, others⟩
      · obtain ⟨_, _, first, between, second⟩ := ih others last
        exact ⟨_, _, .cons place long behind first, between, second⟩

theorem left (stretch : Stretch (words ++ words') start stop) (nonempty : words ≠ []) :
    ∃ middle, middle ≤ stop ∧ Stretch words start middle := by
  by_cases last : words' = []
  · rw [last, List.append_nil] at stretch
    exact ⟨stop, Nat.le_refl _, stretch⟩
  · obtain ⟨middle, middle', first, between, second⟩ := stretch.split nonempty last
    exact ⟨middle, Nat.le_trans between (Nat.le_of_lt second.lt), first⟩

theorem right (stretch : Stretch (words ++ words') start stop) (nonempty : words' ≠ []) :
    ∃ middle, start ≤ middle ∧ Stretch words' middle stop := by
  by_cases first : words = []
  · rw [first, List.nil_append] at stretch
    exact ⟨start, Nat.le_refl _, stretch⟩
  · obtain ⟨middle, middle', first, between, second⟩ := stretch.split first nonempty
    exact ⟨middle', Nat.le_trans (Nat.le_of_lt first.lt) between, second⟩

/-- A part of the lexemes reaches over a part of the stretch. -/
theorem part {part : List Lexeme} (stretch : Stretch words start stop)
    (inside : part <:+: words) (nonempty : part ≠ []) :
    ∃ start' stop', start ≤ start' ∧ stop' ≤ stop ∧ Stretch part start' stop' := by
  obtain ⟨before, after, rfl⟩ := inside
  rw [List.append_assoc] at stretch
  obtain ⟨start', later, rest⟩ := stretch.right (by simp [nonempty])
  obtain ⟨stop', sooner, stretch⟩ := rest.left nonempty
  exact ⟨start', stop', later, sooner, stretch⟩

end Stretch

/-- Values are derived from lexemes that reach from the start to the end of their places. -/
def Reaching {α : Type} (item : Rule α) (place : α → Span) : Prop :=
  ∀ {words value}, item words value → words ≠ [] ∧
    ∀ {start stop}, Stretch words start stop → place value = .between start stop

/-- Values that stand one after another have places in the same order, all in the stretch of the
lexemes. -/
theorem Among.places {α : Type} {item : Rule α} {place : α → Span} {words : List Lexeme}
    {values : List α} {start stop : Nat} (among : Among item words values)
    (reaching : Reaching item place) (stretch : Stretch words start stop) :
    values.Pairwise (fun first second => (place first).Before (place second)) ∧
      ∀ value ∈ values, (place value).Within (.between start stop) := by
  induction among generalizing start with
  | none => exact ⟨.nil, fun _ none => nomatch none⟩
  | @next before words after value values holds others ih =>
    obtain ⟨nonempty, placed⟩ := reaching holds
    obtain ⟨first, later, rest⟩ := stretch.right (by simp [nonempty])
    by_cases last : after = []
    · subst last
      obtain rfl : values = [] := by
        refine List.eq_nil_iff_forall_not_mem.mpr fun other found => ?_
        obtain ⟨part, inside, derived⟩ := others.each other found
        exact (reaching derived).1 (List.infix_nil.mp inside)
      rw [List.append_nil] at rest
      refine ⟨List.pairwise_singleton _ _, List.forall_mem_singleton.mpr ?_⟩
      rw [placed rest]
      exact ⟨later, Nat.le_refl _⟩
    · obtain ⟨middle, middle', own, between, behind⟩ := rest.split nonempty last
      obtain ⟨ordered, within⟩ := ih behind
      have place_eq := placed own
      have long := behind.lt
      refine ⟨List.pairwise_cons.mpr ⟨fun other found => ?_, ordered⟩,
        List.forall_mem_cons.mpr ⟨?_, fun other found => ?_⟩⟩
      · have inside := within other found
        rw [place_eq]
        revert inside
        cases place other with
        | synthetic => exact False.elim
        | between start' stop' => exact fun inside => Nat.le_trans between inside.1
      · rw [place_eq]
        exact ⟨later, by omega⟩
      · have inside := within other found
        have shorter := own.lt
        revert inside
        cases place other with
        | synthetic => exact False.elim
        | between start' stop' => exact fun inside => ⟨by have := inside.1; omega, inside.2⟩

end Grammar

open Lexing

theorem Lexing.Piece.byteLength_pos {text after : List Char} {found : Front}
    (piece : Piece text after found) : 0 < byteLength text := by
  obtain ⟨c, rest, rfl, _⟩ := piece.front_eq
  exact Nat.lt_of_lt_of_le c.utf8Size_pos (Nat.le_add_right _ _)

/-- The lexemes of a text stand one behind the other. -/
theorem Lexing.Tiles.stretch {text : List Char} {offset : Nat} {lexemes : List Lexeme}
    (tiles : Tiles offset text lexemes) (nonempty : lexemes ≠ []) :
    ∃ start stop, offset ≤ start ∧ Grammar.Stretch lexemes start stop := by
  induction tiles with
  | last => exact absurd rfl nonempty
  | @next offset gap word rest token lexemes _ alone after ih =>
    have long := alone.byteLength_pos
    by_cases last : lexemes = []
    · subst last
      exact ⟨_, _, Nat.le_add_right _ _, .single rfl (by omega)⟩
    · obtain ⟨start, stop, behind, others⟩ := ih last
      exact ⟨_, stop, Nat.le_add_right _ _, .cons rfl (by omega) behind others⟩

end QueryGuard
