import QueryGuard.Engine.Basic
/-!
The engine's cache never changes what a text is parsed as. So an engine that guards many texts, each with the
cache that the texts before it left, answers as engines without a cache do that are asked once each.
-/

set_option autoImplicit false

namespace QueryGuard

namespace ParseCache

/-- All queries that are kept are what their texts are parsed as. -/
def Faithful (parse : String → Except SyntaxError Query) (cache : ParseCache) : Prop :=
  ∀ entry ∈ cache.entries, parse entry.text = .ok entry.query

namespace Faithful

variable {parse : String → Except SyntaxError Query} {cache : ParseCache}

theorem ofCapacity (capacity : Nat) : Faithful parse (.ofCapacity capacity) := by
  intro entry member
  cases member

theorem makeRoom (faithful : cache.Faithful parse) : cache.makeRoom.Faithful parse := by
  unfold ParseCache.makeRoom
  split
  · exact faithful
  · intro entry member
    apply faithful entry
    simp only [withoutLeastHit] at member
    split at member
    · exact List.mem_of_mem_eraseP member
    · exact member

theorem recordMiss (faithful : cache.Faithful parse) : cache.recordMiss.Faithful parse := faithful

theorem recordHit (faithful : cache.Faithful parse) (text : String) :
    (cache.recordHit text).Faithful parse := by
  intro entry member
  obtain ⟨kept, among, rfl⟩ := List.mem_map.mp member
  split
  · exact faithful kept among
  · exact faithful kept among

theorem add (faithful : cache.Faithful parse) {text : String} {query : Query}
    (parsed : parse text = .ok query) : (cache.add text query).Faithful parse := by
  intro entry member
  rcases List.mem_append.mp member with old | new
  · exact faithful entry old
  · rw [List.mem_singleton.mp new]
    exact parsed

theorem rearrange (faithful : cache.Faithful parse) {entries : List Entry}
    (same : entries.Perm cache.entries) : { cache with entries }.Faithful parse :=
  fun entry member => faithful entry (same.mem_iff.mp member)

/-- A faithful cache answers as the parser does, and stays faithful. -/
theorem get (faithful : cache.Faithful parse) (text : String) :
    (cache.get parse text).1 = parse text ∧ (cache.get parse text).2.Faithful parse := by
  unfold ParseCache.get
  split
  · rename_i entry found
    have same : entry.text = text := by simpa using List.find?_some found
    have parsed := faithful entry (List.mem_of_find?_eq_some found)
    rw [same] at parsed
    exact ⟨parsed.symm, faithful.recordHit text⟩
  · cases parsed : parse text with
    | ok query => exact ⟨rfl, faithful.makeRoom.recordMiss.add parsed⟩
    | error error => exact ⟨rfl, faithful.makeRoom.recordMiss⟩

end Faithful

end ParseCache

namespace Engine

variable {engine : Engine}

/-- With a faithful cache or without, a text is parsed as it is written. -/
theorem parse_faithful {cache : Option ParseCache}
    (faithful : ∀ kept ∈ cache, kept.Faithful engine.parseDirectly) (text : String) :
    (engine.parse text cache).1 = engine.parseDirectly text ∧
      ∀ left ∈ (engine.parse text cache).2, left.Faithful engine.parseDirectly := by
  cases cache with
  | none => exact ⟨rfl, fun left absent => by cases absent⟩
  | some cache =>
    obtain ⟨answers, remains⟩ := (faithful cache rfl).get text
    refine ⟨answers, fun left found => ?_⟩
    obtain rfl := Option.some.inj found
    exact remains

/-- With a faithful cache or without, the query that a text writes is guarded. -/
theorem guard_faithful {cache : Option ParseCache}
    (faithful : ∀ kept ∈ cache, kept.Faithful engine.parseDirectly) (source : String)
    (parameters : ParameterMap) (security : SecurityContext) :
    (engine.guard source parameters security cache).1 =
      match Query.parse source engine.settings.depth with
      | .ok query => engine.guardQuery query parameters security
      | .error error => .error (.syntactic error) := by
  have answers := (engine.parse_faithful faithful source).1
  unfold parseDirectly at answers
  unfold guard
  simp only [answers]
  cases Query.parse source engine.settings.depth <;> rfl

/-- The caches that the engine has after any number of texts. -/
inductive Reachable (engine : Engine) : Option ParseCache → Prop where
  | initial : Reachable engine engine.initialCache
  | parse {cache : Option ParseCache} (before : Reachable engine cache) (text : String) :
      Reachable engine (engine.parse text cache).2

theorem Reachable.faithful {cache : Option ParseCache} (reachable : engine.Reachable cache) :
    ∀ kept ∈ cache, kept.Faithful engine.parseDirectly := by
  induction reachable with
  | initial =>
    intro kept found
    obtain ⟨capacity, _, rfl⟩ := Option.map_eq_some_iff.mp found
    exact .ofCapacity capacity
  | parse _ text faithful => exact (engine.parse_faithful faithful text).2

/-- With a cache or without, a text is parsed as it is written. -/
theorem parse_reachable {cache : Option ParseCache} (reachable : engine.Reachable cache)
    (text : String) : (engine.parse text cache).1 = engine.parseDirectly text :=
  (engine.parse_faithful reachable.faithful text).1

/-- With a cache or without, the query that a text writes is guarded. -/
theorem guard_reachable {cache : Option ParseCache} (reachable : engine.Reachable cache)
    (source : String) (parameters : ParameterMap) (security : SecurityContext) :
    (engine.guard source parameters security cache).1 =
      match Query.parse source engine.settings.depth with
      | .ok query => engine.guardQuery query parameters security
      | .error error => .error (.syntactic error) :=
  engine.guard_faithful reachable.faithful source parameters security

end Engine

/-! ### Many texts -/

namespace Engine

/-- What an engine is asked for: to guard a text with its parameters for somebody. -/
structure Call where
  source : String
  parameters : ParameterMap
  security : SecurityContext

/-- The answer to a call, with the cache that is left. -/
def answer (engine : Engine) (call : Call) (cache : Option ParseCache) :
    Except QueryError Guarded × Option ParseCache :=
  engine.guard call.source call.parameters call.security cache

/-- The engine answers the calls one after another, each with the cache that those before it left.
The entries of the cache are in no order: which one of those with the fewest hits makes room is
left open. -/
inductive Serves (engine : Engine) :
    Option ParseCache → List Call → List (Except QueryError Guarded) → Prop where
  | done {cache : Option ParseCache} : Serves engine cache [] []
  | answer {cache : Option ParseCache} {call : Call} {calls : List Call}
      {results : List (Except QueryError Guarded)}
      (further : Serves engine (engine.answer call cache).2 calls results) :
      Serves engine cache (call :: calls) ((engine.answer call cache).1 :: results)
  | rearrange {cache : ParseCache} {calls : List Call}
      {results : List (Except QueryError Guarded)} {entries : List ParseCache.Entry}
      (same : entries.Perm cache.entries)
      (further : Serves engine (some { cache with entries }) calls results) :
      Serves engine (some cache) calls results

theorem check_uncached (engine : Engine) :
    { engine.settings with cacheCapacity := none }.check = .ok () := by
  have checked := engine.checked
  unfold Settings.check at checked ⊢
  cases named : Settings.isPrefix engine.settings.scope.parameterPrefix.toList with
  | true => rfl
  | false => simp [named, bind, Except.bind, throw, throwThe, MonadExceptOf.throw] at checked

/-- The engine with the same catalog, criteria and settings, but without a cache. -/
def uncached (engine : Engine) : Engine :=
  { engine with
    settings := { engine.settings with cacheCapacity := none }
    checked := engine.check_uncached }

/-- The answer of an engine without a cache that was asked for nothing before. -/
def freshAnswer (engine : Engine) (call : Call) : Except QueryError Guarded :=
  (engine.uncached.answer call engine.uncached.initialCache).1

variable {engine : Engine} {cache : Option ParseCache}

/-- One call: a faithful cache does not show in the answer, and is left faithful. -/
theorem answer_faithful (faithful : ∀ kept ∈ cache, kept.Faithful engine.parseDirectly)
    (call : Call) :
    (engine.answer call cache).1 = engine.freshAnswer call ∧
      ∀ left ∈ (engine.answer call cache).2, left.Faithful engine.parseDirectly := by
  constructor
  · have fresh : engine.uncached.Reachable engine.uncached.initialCache := .initial
    rw [freshAnswer, answer, answer, guard_faithful faithful, guard_reachable fresh]
    rfl
  · have left : (engine.answer call cache).2 = (engine.parse call.source cache).2 := by
      unfold answer guard
      cases engine.parse call.source cache with
      | mk result left => cases result <;> rfl
    rw [left]
    exact (engine.parse_faithful faithful call.source).2

theorem Serves.eq_map {calls : List Call} {results : List (Except QueryError Guarded)}
    (serves : engine.Serves cache calls results)
    (faithful : ∀ kept ∈ cache, kept.Faithful engine.parseDirectly) :
    results = calls.map engine.freshAnswer := by
  induction serves with
  | done => rfl
  | @answer _ call _ _ _ ih =>
    obtain ⟨same, left⟩ := answer_faithful faithful call
    rw [List.map_cons, same, ih left]
  | @rearrange cache _ _ _ same _ ih =>
    refine ih fun kept found => ?_
    obtain rfl := Option.some.inj found
    exact (faithful cache rfl).rearrange same

theorem exists_serves (engine : Engine) (cache : Option ParseCache) (calls : List Call) :
    ∃ results, engine.Serves cache calls results := by
  induction calls generalizing cache with
  | nil => exact ⟨[], .done⟩
  | cons call rest ih =>
    obtain ⟨results, serves⟩ := ih (engine.answer call cache).2
    exact ⟨_, .answer serves⟩

/-- The cache is invisible: however many texts an engine guards, with whatever parameters and for
whomever, and whether they can be parsed or not, its results are those of an engine without a cache
that is asked for nothing else. -/
theorem serves_iff (engine : Engine) (calls : List Call)
    (results : List (Except QueryError Guarded)) :
    engine.Serves engine.initialCache calls results ↔ results = calls.map engine.freshAnswer := by
  have faithful : ∀ kept ∈ engine.initialCache, kept.Faithful engine.parseDirectly :=
    Reachable.initial.faithful
  constructor
  · intro serves
    exact serves.eq_map faithful
  · rintro rfl
    obtain ⟨results, serves⟩ := engine.exists_serves engine.initialCache calls
    rwa [← serves.eq_map faithful]

end Engine

end QueryGuard
