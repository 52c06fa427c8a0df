import QueryGuard.Proofs.Reading.Spelling
import QueryGuard.Syntax.Cursor
/-!
What is known of the values that steps of the parser return.
-/

set_option autoImplicit false

namespace QueryGuard

/-- What tokenizing promises of a token. -/
def Token.Sound : Token → Prop
  | .name text => Printing.isPlain text.toList ∧ Keyword.ofWord? text.toList = none
  | .parameter marker => Lexing.IsMarker marker.toList
  | .integer value => value ≤ Lexing.largestInteger
  | _ => True

/-- All lexemes still to be read are as tokenizing promises. -/
def Cursor.Sound (cursor : Cursor) : Prop := ∀ lexeme ∈ cursor.rest, lexeme.token.Sound

namespace Lexing

theorem word_sound {c : Char} {rest : List Char} (start : isNameStart c)
    (parts : ∀ d ∈ rest, isNamePart d) : (word (c :: rest)).Sound := by
  unfold word
  split
  · exact trivial
  · rename_i free
    refine ⟨?_, by rwa [String.toList_ofList]⟩
    rw [String.toList_ofList, Printing.isPlain, start, Bool.true_and, List.all_eq_true]
    exact parts

theorem number_sound {c : Char} {rest : List Char} {token : Token} {length : Nat}
    (result : number c rest = (.token token, length)) : token.Sound := by
  have integer : ∀ {value : Nat} {fault : Front} {size size' : Nat},
      (if value ≤ largestInteger then (Front.token (.integer value), size) else (fault, size')) =
        (.token token, length) → (∀ token, fault ≠ .token token) → token.Sound := by
    intro value fault size size' result isFault
    split at result
    · rename_i bound
      obtain rfl := Front.token.inj (Prod.mk.inj result).1
      exact bound
    · exact absurd (Prod.mk.inj result).1 (isFault token)
  unfold number at result
  dsimp only at result
  split at result
  · split at result
    · exact integer result fun token => by simp
    · obtain rfl := Front.token.inj (Prod.mk.inj result).1
      exact trivial
  · exact integer result fun token => by simp

theorem quotation_sound {quote : Char} {m : String → Token} {fault : LexicalFault}
    {rest : List Char} {token : Token} {length : Nat} (sound : ∀ text, (m text).Sound)
    (result : quotation quote m fault rest = (.token token, length)) : token.Sound := by
  unfold quotation at result
  split at result
  · obtain rfl := Front.token.inj (Prod.mk.inj result).1
    exact sound _
  · simp at result

theorem special_sound {c : Char} {rest : List Char} {token : Token} {length : Nat}
    (result : special c rest = (.token token, length)) : token.Sound := by
  unfold special at result
  split at result
  case h_5 =>
    split at result
    · rename_i start
      obtain rfl := Front.token.inj (Prod.mk.inj result).1
      change IsMarker (String.ofList _).toList
      rw [String.toList_ofList]
      exact ⟨start, List.all_eq_true.mp List.all_takeWhile⟩
    · simp at result
  case h_1 => exact quotation_sound (m := .quotedName) (fun _ => trivial) result
  case h_2 => exact quotation_sound (m := .string) (fun _ => trivial) result
  case h_4 => split at result <;> simp at result
  all_goals
    first
    | (simp at result; done)
    | (obtain rfl := Front.token.inj (Prod.mk.inj result).1; exact trivial)

theorem front_sound {c : Char} {rest : List Char} {token : Token} {length : Nat}
    (result : front c rest = (.token token, length)) : token.Sound := by
  unfold front at result
  split at result
  · simp at result
  · split at result
    · rename_i start
      obtain rfl := Front.token.inj (Prod.mk.inj result).1
      exact word_sound start (List.all_eq_true.mp List.all_takeWhile)
    · split at result
      · exact number_sound result
      · exact special_sound result

theorem scan_sound (offset : Nat) (text : List Char) :
    ∀ lexeme ∈ (Lexing.scan offset text).lexemes, lexeme.token.Sound := by
  induction size : text.length using Nat.strongRecOn generalizing offset text with
  | ind size ih =>
    subst size
    cases text with
    | nil => simp [Lexing.scan]
    | cons c rest =>
      have shorter : ∀ length, (rest.drop length).length < (c :: rest).length := by
        intro length
        rw [List.length_drop, List.length_cons]
        omega
      rw [Lexing.scan]
      cases starts : front c rest with
      | mk first length =>
        cases first with
        | gap => exact ih _ (shorter length) _ _ rfl
        | token token =>
          intro lexeme found
          rcases List.mem_cons.mp found with rfl | found
          · exact front_sound starts
          · exact ih _ (shorter length) _ _ rfl lexeme found
        | fault fault => simp

end Lexing

namespace Parse

variable {α β : Type}

/-- From sound lexemes, of which the next is as given, the step returns values with the
property, if any, and leaves sound lexemes. -/
def Yields (starts : Option Token → Prop) (step : Parse α) (good : α → Prop) : Prop :=
  ∀ cursor value after, cursor.Sound → starts cursor.token? →
    step cursor = .ok (value, after) → after.Sound ∧ good value

/-- Whatever comes next. -/
def anywhere (_ : Option Token) : Prop := True

namespace Yields

variable {S : Option Token → Prop} {step : Parse α} {P Q : α → Prop}

theorem of_anywhere (yields : Yields anywhere step P) : Yields S step P :=
  fun cursor value after sound _ result => yields cursor value after sound trivial result

theorem mono (yields : Yields S step P) (weaker : ∀ value, P value → Q value) :
    Yields S step Q := fun cursor value after sound first result =>
  (yields cursor value after sound first result).imp_right (weaker value)

theorem pure {value : α} (holds : P value) : Yields S (pure value) P := by
  intro cursor value' after sound _ result
  obtain ⟨rfl, rfl⟩ := Prod.mk.inj (Except.ok.inj result)
  exact ⟨sound, holds⟩

theorem fail (expected : Expectation) (hint : Option Hint) :
    Yields S (Parse.fail expected hint) P := by
  intro cursor value after _ _ result
  cases result

theorem throw (error : SyntaxError) : Yields S (throw error : Parse α) P := by
  intro cursor value after _ _ result
  cases result

theorem bind {next : α → Parse β} {Q : β → Prop} (first : Yields S step P)
    (second : ∀ value, P value → Yields anywhere (next value) Q) :
    Yields S (step >>= next) Q := by
  intro cursor value after sound ahead result
  change (step cursor >>= fun (value, cursor) => next value cursor) = _ at result
  cases between : step cursor with
  | error error => rw [between] at result; cases result
  | ok found =>
    rw [between] at result
    obtain ⟨sound', holds⟩ := first cursor found.1 found.2 sound ahead between
    exact second found.1 holds found.2 value after sound' trivial result

theorem map {f : α → β} {Q : β → Prop}
    (yields : Yields S step fun value => Q (f value)) :
    Yields S (f <$> step) Q :=
  bind yields fun _ holds => pure holds

theorem measured {f : Nat → Parse α} (yields : ∀ size, Yields S (f size) P) :
    Yields S (do f (← get).rest.length) P :=
  fun cursor value after sound ahead result =>
    yields cursor.rest.length cursor value after sound ahead result

/-- The same for a step that is followed by another one. -/
theorem measured_bind {f : Nat → Parse α} {next : α → Parse β} {Q : β → Prop}
    (yields : ∀ size, Yields S (f size) P)
    (second : ∀ value, P value → Yields anywhere (next value) Q) :
    Yields S (do next (← f (← get).rest.length)) Q :=
  measured (f := fun size => f size >>= next) fun size => bind (yields size) second

theorem peek {next : Option Token → Parse α}
    (yields : ∀ token, S token → Yields (· = token) (next token) P) :
    Yields S (peek? >>= next) P :=
  fun cursor value after sound ahead result =>
    yields cursor.token? ahead cursor value after sound rfl result

theorem here {next : Span → Parse α} (yields : ∀ span, Yields S (next span) P) :
    Yields S (Parse.here >>= next) P :=
  fun cursor value after sound ahead result =>
    yields cursor.span cursor value after sound ahead result

theorem last {next : Span → Parse α} (yields : ∀ span, Yields S (next span) P) :
    Yields S (Parse.last >>= next) P :=
  fun cursor value after sound ahead result =>
    yields cursor.previous cursor value after sound ahead result

theorem sound_next {cursor : Cursor} (sound : cursor.Sound) : cursor.next.Sound := by
  unfold Cursor.next
  split
  · rename_i lexeme rest left
    exact fun other found => sound other (by rw [left]; exact List.mem_cons_of_mem _ found)
  · exact sound

theorem skip : Yields S Parse.skip fun _ => True := by
  intro cursor value after sound _ result
  obtain ⟨_, rfl⟩ := Prod.mk.inj (Except.ok.inj result)
  exact ⟨sound_next sound, trivial⟩

/-- A token that is read if it is there. -/
theorem accept {token : Token} {next : Bool → Parse α}
    (accepted : S (some token) → Yields anywhere (next true) P)
    (passed : Yields (fun found => S found ∧ found ≠ some token) (next false) P) :
    Yields S (Parse.accept token >>= next) P := by
  have unfolded : Parse.accept token >>= next = Parse.peek? >>= fun found =>
      if found = some token then Parse.skip >>= fun _ => next true else next false := by
    rw [Parse.accept, bind_assoc]
    refine congrArg _ (funext fun found => ?_)
    split
    · rw [bind_assoc]
      rfl
    · rfl
  rw [unfolded]
  apply peek
  intro found ahead
  split
  · rename_i same
    exact bind (P := fun _ => True) skip fun _ _ => accepted (same ▸ ahead)
  · rename_i other
    rintro cursor value after sound rfl result
    exact passed cursor value after sound ⟨ahead, other⟩ result

theorem ite {condition : Prop} [Decidable condition] {yes no : Parse α}
    (first : condition → Yields S yes P) (second : ¬ condition → Yields S no P) :
    Yields S (if condition then yes else no) P := by
  split
  · exact first ‹_›
  · exact second ‹_›

/-- A token that may be left out. -/
theorem accept_any {token : Token} : Yields S (Parse.accept token) fun _ => True := by
  have yields : Yields S (Parse.accept token >>= Pure.pure) fun _ => True :=
    accept (fun _ => pure trivial) (pure trivial)
  rwa [bind_pure] at yields

theorem expect {token : Token} {expected : Expectation} :
    Yields S (expect token expected) fun _ => True :=
  here fun _ => accept (fun _ => pure trivial) (fail _ _)

/-- Behind a token that has to come next. -/
theorem expecting {token : Token} {expected : Expectation} {next : Span → Parse α}
    (yields : ∀ span, Yields anywhere (next span) P) :
    Yields S (Parse.expect token expected >>= next) P :=
  bind expect fun span _ => yields span

theorem name {expected : Expectation} : Yields S (Parse.name expected) fun _ => True := by
  intro cursor value after sound _ result
  unfold Parse.name at result
  split at result
  · split at result
    · obtain ⟨_, rfl⟩ := Prod.mk.inj (Except.ok.inj result)
      exact ⟨sound_next sound, trivial⟩
    · cases result
  · cases result

theorem word {expected : Expectation} : Yields S (Parse.word expected) fun _ => True := by
  intro cursor value after sound _ result
  unfold Parse.word at result
  split at result
  · obtain ⟨_, rfl⟩ := Prod.mk.inj (Except.ok.inj result)
    exact ⟨sound_next sound, trivial⟩
  · cases result

theorem more {separator : Token} {item : Parse α} (each : Yields anywhere item P)
    (bound : Nat) :
    Yields S (Parse.more separator item bound) fun values =>
      ∀ value ∈ values, P value := by
  induction bound generalizing S with
  | zero => exact pure (by simp)
  | succ bound ih =>
    refine accept (fun _ => ?_) (pure (by simp))
    refine bind each fun first holds => bind ih fun others hold => pure fun value found => ?_
    rcases List.mem_cons.mp found with rfl | found
    · exact holds
    · exact hold value found

theorem separated {separator : Token} {item : Parse α} (each : Yields anywhere item P) :
    Yields S (Parse.separated separator item) fun values =>
      values ≠ [] ∧ ∀ value ∈ values, P value := by
  refine bind each.of_anywhere fun first holds => bind (measured fun size => more each size)
    fun others hold => pure ⟨List.cons_ne_nil _ _, fun value found => ?_⟩
  rcases List.mem_cons.mp found with rfl | found
  · exact holds
  · exact hold value found

theorem clause {keyword : Keyword} {body : Parse α} (yields : Yields anywhere body P) :
    Yields S (clause? keyword body) fun found => ∀ value ∈ found, P value := by
  refine accept (fun _ => bind yields fun value holds => pure ?_) (pure ?_)
  · intro found same
    obtain rfl := Option.mem_some_iff.mp same
    exact holds
  · simp

/-- What a step that yields the property returns for a whole source has it. -/
theorem run {expected : Expectation} {source : String} {value : α}
    (yields : Yields anywhere step P) (result : step.run expected source = .ok value) :
    P value := by
  unfold Parse.run at result
  split at result
  · cases result
  · rename_i lexemes tokens
    have sound : Cursor.Sound ⟨.point 0, lexemes, source.utf8ByteSize⟩ := by
      unfold tokenize at tokens
      simp only at tokens
      split at tokens
      · obtain rfl := Except.ok.inj tokens
        exact Lexing.scan_sound 0 source.toList
      · cases tokens
    have whole : Yields anywhere (do let value ← step; finish expected; return value) P :=
      bind yields fun value holds => bind (P := fun _ => True) (peek fun token _ => by
        split
        · exact fail _ _
        · exact pure trivial) fun _ _ => pure holds
    have unwrapped : ∀ outcome : Except SyntaxError (α × Cursor),
        outcome.map (·.1) = .ok value → ∃ after, outcome = .ok (value, after) := by
      rintro (error | ⟨found, after⟩) same
      · cases same
      · cases same
        exact ⟨after, rfl⟩
    obtain ⟨after, final⟩ := unwrapped _ result
    exact (whole _ value after sound trivial final).2

end Yields

end Parse

end QueryGuard
