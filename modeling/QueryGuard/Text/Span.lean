/-!
Where a piece of text was written: byte ranges of a source, and values that carry one.
-/

set_option autoImplicit false

namespace QueryGuard

/-- A half-open range of byte offsets, or no range for what was never written down. -/
inductive Span where
  | synthetic
  | between (start stop : Nat)
deriving DecidableEq, Repr, Inhabited

namespace Span

/-- The empty range at one offset. -/
def point (offset : Nat) : Span := .between offset offset

/-- The smallest range that covers both; a synthetic span is absorbed. -/
def merge : Span → Span → Span
  | .synthetic, other => other
  | span, .synthetic => span
  | .between start stop, .between start' stop' => .between (min start start') (max stop stop')

/-- The number of bytes covered. -/
def length : Span → Nat
  | .synthetic => 0
  | .between start stop => stop - start

def isSynthetic : Span → Bool
  | .synthetic => true
  | .between _ _ => false

@[simp] theorem synthetic_merge (span : Span) : synthetic.merge span = span := rfl

@[simp] theorem merge_synthetic (span : Span) : span.merge synthetic = span := by
  cases span <;> rfl

@[simp] theorem between_merge_between (start stop start' stop' : Nat) :
    (between start stop).merge (between start' stop') =
      between (min start start') (max stop stop') := rfl

theorem merge_assoc (first second third : Span) :
    (first.merge second).merge third = first.merge (second.merge third) := by
  cases first <;> cases second <;> cases third <;>
    simp only [synthetic_merge, merge_synthetic, between_merge_between, Nat.min_assoc,
      Nat.max_assoc]

theorem merge_comm (first second : Span) : first.merge second = second.merge first := by
  cases first <;> cases second <;>
    simp only [synthetic_merge, merge_synthetic, between_merge_between, Nat.min_comm,
      Nat.max_comm]

end Span

/-- A value together with the place it was written at. -/
structure Located (α : Type) where
  value : α
  span : Span
deriving DecidableEq, Repr, Inhabited

/-- A name in a query. -/
abbrev Name := Located String

/-- A value that was never written down. -/
def Located.synthetic {α : Type} (value : α) : Located α := ⟨value, .synthetic⟩

@[simp] theorem Located.synthetic_value {α : Type} (value : α) :
    (Located.synthetic value).value = value := rfl

end QueryGuard
