import QueryGuard.Proofs.Lexing.Tiling
import QueryGuard.Proofs.Reading.Yields
import QueryGuard.Proofs.Rewriting.Conflicts
/-!
Whether the parameters that criteria supply can be read where they are written: behind a colon stands the
name of a parameter as far as it goes.
-/

set_option autoImplicit false

namespace QueryGuard

namespace Lexing

/-- The name behind a colon is read as one parameter of this name. -/
def Readable (name : String) : Prop :=
  ∃ lexeme, tokenize (":" ++ name) = .ok [lexeme] ∧ lexeme.token = .parameter name

theorem tokenize_sound {source : String} {lexemes : List Lexeme}
    (found : tokenize source = .ok lexemes) : ∀ lexeme ∈ lexemes, lexeme.token.Sound := by
  rw [tokenize] at found
  split at found
  · rw [← Except.ok.inj found]
    exact scan_sound 0 source.toList
  · cases found

/-- Just the names of the form of parameters can be read as such. -/
theorem readable_iff {name : String} : Readable name ↔ IsMarker name.toList := by
  constructor
  · rintro ⟨lexeme, found, token⟩
    have sound := tokenize_sound found lexeme List.mem_cons_self
    rwa [token] at sound
  · intro marker
    cases letters : name.toList with
    | nil =>
      rw [letters] at marker
      exact marker.elim
    | cons c rest =>
      rw [letters] at marker
      have alone := tokenize_alone (.marker marker.1 marker.2 (.nil _))
      have named : String.ofList (c :: rest) = name := by rw [← letters, String.ofList_toList]
      have source : String.ofList (':' :: c :: rest) = ":" ++ name := by
        rw [← String.toList_inj, String.toList_append, String.toList_ofList, letters]
        rfl
      rw [source, named] at alone
      exact ⟨_, alone, rfl⟩

/-- Behind a text that parameter names may start with, all further characters have to be such of names. -/
theorem IsMarker.append_iff {front back : List Char} (marker : IsMarker front) :
    IsMarker (front ++ back) ↔ ∀ c ∈ back, isMarkerPart c := by
  refine ⟨fun whole => ?_, marker.append⟩
  cases front with
  | nil => exact marker.elim
  | cons c rest => exact (List.forall_mem_append.mp whole.2).2

end Lexing

open Lexing

namespace CriterionContext

variable {context : CriterionContext}

/-- The parameters of checked settings can be read if their local names have no other characters than
letters, digits and underscores. -/
theorem readable_parameter_iff (start : IsMarker context.parameterPrefix.toList) {localName : String} :
    Readable (context.parameter localName) ↔ ∀ c ∈ localName.toList, isMarkerPart c := by
  rw [readable_iff, parameter, String.toList_append]
  exact start.append_iff

end CriterionContext

namespace Criterion

variable {criterion : Criterion} {context : CriterionContext} {contribution : Contribution}

/-- The local names that are joined from two can be read, whatever these are. -/
theorem Comparing.readable (comparing : criterion.Comparing)
    (start : IsMarker context.parameterPrefix.toList)
    (result : criterion.contribute context = .ok (some contribution)) {parameter : String × Value}
    (member : parameter ∈ contribution.parameters) : Readable parameter.1 := by
  obtain ⟨attr, _, named⟩ := comparing.name_of_contribute result member
  rw [named]
  exact (CriterionContext.readable_parameter_iff start).mpr (isMarkerPart_localName _ _)

/-- Under checked settings, a parameter that a criterion supplies can be read, unless it is the tenant's
and was given a local name with other characters than letters, digits and underscores. -/
theorem contribute_readable_iff {settings : Settings} (checked : settings.check = .ok ())
    (standard : criterion.Standard) (same : context.parameterPrefix = settings.scope.parameterPrefix)
    (result : criterion.contribute context = .ok (some contribution)) :
    ∀ parameter ∈ contribution.parameters, Readable parameter.1 ↔
      ∀ localName, criterion = tenant localName → ∀ c ∈ localName.toList, isMarkerPart c := by
  intro parameter member
  have start : IsMarker context.parameterPrefix.toList := same ▸ Settings.isMarker_of_check checked
  have ofTenant : ∀ localName, criterion = tenant localName →
      (Readable parameter.1 ↔ ∀ c ∈ localName.toList, isMarkerPart c) := by
    rintro localName rfl
    obtain ⟨attr, rfl⟩ := tenant_contribute_ok result
    rw [List.mem_singleton.mp member]
    exact CriterionContext.readable_parameter_iff start
  refine ⟨fun readable localName is => (ofTenant localName is).mp readable, fun letters => ?_⟩
  cases standard with
  | tenant localName => exact (ofTenant localName rfl).mpr (letters localName rfl)
  | softDelete =>
    obtain ⟨attr, rfl⟩ := softDelete_contribute_ok result
    exact absurd member List.not_mem_nil
  | policy policy => exact (Comparing.policy policy).readable start result member
  | membership rule => exact (Comparing.membership rule).readable start result member

/-- A local name with a hyphen makes the tenant's parameter one that cannot be read. -/
theorem contribute_readable_iff_hyphen :
    let context : CriterionContext :=
      { name := "c"
        entity := ⟨"Customer", "id", [], ⟨none, some "owner"⟩⟩
        schema := .empty
        security := .anonymous
        parameterPrefix := Settings.standard.scope.parameterPrefix }
    Settings.standard.check = .ok () ∧ ∃ contribution parameter,
      (tenant "tenant-id").contribute context = .ok (some contribution) ∧
      contribution.parameters = [(parameter, .string Schema.defaultSentinel)] ∧
      parameter = "criterion_tenant-id" ∧ ¬ Readable parameter := by
  intro context
  have checked : Settings.standard.check = .ok () := by decide +kernel
  refine ⟨checked, _, _, rfl, rfl, by decide +kernel, fun readable => ?_⟩
  have standard : (tenant "tenant-id").Standard := .tenant "tenant-id"
  have contributes : (tenant "tenant-id").contribute context = .ok (some _) := rfl
  have iff := contribute_readable_iff checked standard rfl contributes _ List.mem_cons_self
  exact absurd (iff.mp readable _ rfl '-' (by decide)) (by decide)

end Criterion

end QueryGuard
