/-!
Quoted text: a quote inside is written twice.
-/

set_option autoImplicit false

namespace QueryGuard.Text

/-- The text with each quote written twice. -/
def doubled (quote : Char) : List Char → List Char
  | [] => []
  | c :: rest => if c = quote then quote :: quote :: doubled quote rest else c :: doubled quote rest

/-- The text between quotes. -/
def quoted (quote : Char) (text : List Char) : List Char :=
  quote :: (doubled quote text ++ [quote])

/-- Reads on after an opening quote: the text that was quoted and what follows the closing
quote. -/
def unquote (quote : Char) : List Char → Option (List Char × List Char)
  | [] => none
  | [c] => if c = quote then some ([], []) else none
  | c :: d :: rest =>
      if c = quote then
        if d = quote then (unquote quote rest).map fun (text, after) => (quote :: text, after)
        else some ([], d :: rest)
      else (unquote quote (d :: rest)).map fun (text, after) => (c :: text, after)

/-- What is read back is what was quoted, as long as no further quote follows. -/
theorem unquote_doubled (quote : Char) (text after : List Char)
    (closed : after.head? ≠ some quote) :
    unquote quote (doubled quote text ++ quote :: after) = some (text, after) := by
  induction text with
  | nil =>
    cases after with
    | nil => simp [doubled, unquote]
    | cons d after =>
      have different : d ≠ quote := by simpa using closed
      simp [doubled, unquote, different]
  | cons c rest ih =>
    by_cases same : c = quote
    · subst same
      simp [doubled, unquote, ih]
    · have step : ∀ more : List Char, more ≠ [] →
          unquote quote (c :: more) = (unquote quote more).map fun (text, after) =>
            (c :: text, after) := by
        intro more nonempty
        cases more with
        | nil => exact absurd rfl nonempty
        | cons d more => simp [unquote, same]
      simp only [doubled, same, ↓reduceIte, List.cons_append]
      rw [step _ (by simp), ih]
      rfl

theorem unquote_length {quote : Char} {source text after : List Char}
    (read : unquote quote source = some (text, after)) : after.length < source.length := by
  fun_induction unquote quote source generalizing text with
  | case1 => simp at read
  | case2 =>
    simp only [Option.some.injEq, Prod.mk.injEq] at read
    simp [← read.2]
  | case3 c other => simp at read
  | case4 rest ih =>
    simp only [Option.map_eq_some_iff, Prod.mk.injEq, Prod.exists] at read
    obtain ⟨text', after', inner, _, rfl⟩ := read
    have shorter := ih inner
    simp only [List.length_cons]
    omega
  | case5 d rest other =>
    simp only [Option.some.injEq, Prod.mk.injEq] at read
    simp [← read.2]
  | case6 c d rest other ih =>
    simp only [Option.map_eq_some_iff, Prod.mk.injEq, Prod.exists] at read
    obtain ⟨text', after', inner, _, rfl⟩ := read
    have shorter := ih inner
    simp only [List.length_cons] at shorter ⊢
    omega

end QueryGuard.Text
