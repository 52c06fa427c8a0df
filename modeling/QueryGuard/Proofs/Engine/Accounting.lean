import QueryGuard.Proofs.Engine.Caching
/-!
What a cache keeps and counts while it is asked for one text after another. A cache that was never
full only grows. Once it is full, every text that it does not hold costs it an entry with the fewest
hits: room is made before it is known whether the text can be parsed.
-/

set_option autoImplicit false

namespace QueryGuard

namespace ParseCache

variable {parse : String → Except SyntaxError Query} {cache : ParseCache} {text : String}

/-! ### Entries -/

/-- The texts whose queries are kept. -/
def texts (cache : ParseCache) : List String := cache.entries.map (·.text)

theorem contains_iff : cache.contains text = true ↔ text ∈ cache.texts := by
  simp [contains, find?, texts]

theorem contains_eq_false_iff : cache.contains text = false ↔ text ∉ cache.texts := by
  rw [← contains_iff, Bool.not_eq_true]

theorem contains_of_find? {entry : Entry} (found : cache.find? text = some entry) :
    cache.contains text = true := by
  rw [contains, found]
  rfl

theorem mem_of_find? {entry : Entry} (found : cache.find? text = some entry) :
    entry ∈ cache.entries ∧ entry.text = text :=
  ⟨List.mem_of_find?_eq_some found, by simpa using List.find?_some found⟩

theorem find?_eq_none_iff : cache.find? text = none ↔ cache.contains text = false := by
  rw [contains, Option.isSome_eq_false_iff, Option.isNone_iff_eq_none]

@[simp] theorem texts_recordHit : (cache.recordHit text).texts = cache.texts := by
  simp only [texts, recordHit, List.map_map]
  refine List.map_congr_left fun entry _ => ?_
  dsimp only [Function.comp]
  split <;> rfl

@[simp] theorem size_recordHit : (cache.recordHit text).size = cache.size := List.length_map _

@[simp] theorem statistics_recordHit : (cache.recordHit text).statistics =
    { cache.statistics with hits := cache.statistics.hits + 1 } := rfl

@[simp] theorem statistics_recordMiss : cache.recordMiss.statistics =
    { cache.statistics with
      misses := cache.statistics.misses + 1, parses := cache.statistics.parses + 1 } := rfl

@[simp] theorem statistics_add {query : Query} :
    (cache.add text query).statistics = cache.statistics := rfl

@[simp] theorem texts_recordMiss : cache.recordMiss.texts = cache.texts := rfl

@[simp] theorem size_recordMiss : cache.recordMiss.size = cache.size := rfl

@[simp] theorem texts_add {query : Query} :
    (cache.add text query).texts = cache.texts ++ [text] := List.map_append

@[simp] theorem size_add {query : Query} : (cache.add text query).size = cache.size + 1 :=
  List.length_append

@[simp] theorem hits_makeRoom : cache.makeRoom.statistics.hits = cache.statistics.hits := by
  unfold makeRoom
  split <;> rfl

@[simp] theorem misses_makeRoom : cache.makeRoom.statistics.misses = cache.statistics.misses := by
  unfold makeRoom
  split <;> rfl

@[simp] theorem parses_makeRoom : cache.makeRoom.statistics.parses = cache.statistics.parses := by
  unfold makeRoom
  split <;> rfl

/-- The entry that goes is one of those with the fewest hits; all others stay as they are. -/
theorem withoutLeastHit_split {entries : List Entry} (nonempty : entries ≠ []) :
    ∃ before fewest after, entries = before ++ fewest :: after ∧
      withoutLeastHit entries = before ++ after ∧ ∀ entry ∈ entries, fewest.hits ≤ entry.hits := by
  unfold withoutLeastHit
  cases least : (entries.map (·.hits)).min? with
  | none => exact absurd (List.map_eq_nil_iff.mp (List.min?_eq_none_iff.mp least)) nonempty
  | some hits =>
    obtain ⟨among, fewer⟩ := List.min?_eq_some_iff.mp least
    obtain ⟨entry, member, reached⟩ := List.mem_map.mp among
    obtain ⟨fewest, before, after, _, same, split, erased⟩ :=
      List.exists_of_eraseP (p := (·.hits == hits)) member (by simpa using reached)
    refine ⟨before, fewest, after, split, erased, fun other otherMember => ?_⟩
    rw [show fewest.hits = hits by simpa using same]
    exact fewer other.hits (List.mem_map_of_mem otherMember)

/-! ### One question -/

theorem get_kept {entry : Entry} (found : cache.find? text = some entry) :
    cache.get parse text = (.ok entry.query, cache.recordHit text) := by
  rw [get, found]

theorem get_parsed {query : Query} (absent : cache.contains text = false)
    (parsed : parse text = .ok query) :
    cache.get parse text = (.ok query, cache.makeRoom.recordMiss.add text query) := by
  rw [get, find?_eq_none_iff.mpr absent]
  simp only [parsed]

theorem get_failed {error : SyntaxError} (absent : cache.contains text = false)
    (fails : parse text = .error error) :
    cache.get parse text = (.error error, cache.makeRoom.recordMiss) := by
  rw [get, find?_eq_none_iff.mpr absent]
  simp only [fails]

/-- What a question does: it is answered from an entry, or the cache makes room, and the text is
parsed and its query kept, or it cannot be parsed. -/
theorem get_cases (parse : String → Except SyntaxError Query) (text : String)
    (cache : ParseCache) :
    (∃ entry, cache.find? text = some entry ∧
      cache.get parse text = (.ok entry.query, cache.recordHit text)) ∨
    (cache.contains text = false ∧ ∃ query, parse text = .ok query ∧
      cache.get parse text = (.ok query, cache.makeRoom.recordMiss.add text query)) ∨
    (cache.contains text = false ∧ ∃ error, parse text = .error error ∧
      cache.get parse text = (.error error, cache.makeRoom.recordMiss)) := by
  cases held : cache.find? text with
  | some entry => exact .inl ⟨entry, rfl, get_kept held⟩
  | none =>
    have absent := find?_eq_none_iff.mp held
    cases parsed : parse text with
    | ok query => exact .inr (.inl ⟨absent, query, rfl, get_parsed absent parsed⟩)
    | error error => exact .inr (.inr ⟨absent, error, rfl, get_failed absent parsed⟩)

/-- The cache has room for a query, holds no more than it has room for, and no text twice. -/
structure Sound (cache : ParseCache) : Prop where
  room : 0 < cache.capacity
  bounded : cache.size ≤ cache.capacity
  distinct : cache.texts.Nodup

/-- Making room changes nothing unless the cache is full; then one entry with the fewest hits goes,
and nothing else. -/
theorem Sound.makeRoom_cases (sound : cache.Sound) :
    cache.size < cache.capacity ∧ cache.makeRoom = cache ∨
      cache.size = cache.capacity ∧ ∃ before fewest after,
        cache.entries = before ++ fewest :: after ∧
        (∀ entry ∈ cache.entries, fewest.hits ≤ entry.hits) ∧
        cache.makeRoom = { cache with
          entries := before ++ after
          statistics := { cache.statistics with
            evictions := cache.statistics.evictions + 1 } } := by
  by_cases free : cache.size < cache.capacity
  · exact .inl ⟨free, if_pos free⟩
  · have full : cache.size = cache.capacity := Nat.le_antisymm sound.bounded (Nat.not_lt.mp free)
    have nonempty : cache.entries ≠ [] := by
      rw [← List.length_pos_iff]
      exact Nat.lt_of_lt_of_eq sound.room full.symm
    obtain ⟨before, fewest, after, split, left, fewer⟩ := withoutLeastHit_split nonempty
    refine .inr ⟨full, before, fewest, after, split, fewer, ?_⟩
    rw [makeRoom, if_neg free, left]

namespace Sound

/-- Afterwards there is room, and what is gone is counted. -/
theorem makeRoom_size (sound : cache.Sound) :
    cache.makeRoom.size < cache.capacity ∧
      cache.makeRoom.size + cache.makeRoom.statistics.evictions =
        cache.size + cache.statistics.evictions := by
  obtain ⟨free, same⟩ | ⟨full, before, fewest, after, split, _, left⟩ := sound.makeRoom_cases
  · rw [same]
    exact ⟨free, rfl⟩
  · have one : cache.size = (before ++ after).length + 1 := by
      rw [size, split]
      simp only [List.length_append, List.length_cons]
      omega
    rw [left]
    simp only [size] at one full ⊢
    omega

theorem makeRoom_entries (sound : cache.Sound) :
    cache.makeRoom.entries.Sublist cache.entries := by
  obtain ⟨_, same⟩ | ⟨_, before, fewest, after, split, _, left⟩ := sound.makeRoom_cases
  · simp only [same, List.Sublist.refl]
  · rw [left, split]
    exact (List.sublist_cons_self fewest after).append_left before

theorem makeRoom_texts (sound : cache.Sound) : cache.makeRoom.texts.Sublist cache.texts :=
  sound.makeRoom_entries.map _

theorem makeRoom_capacity (sound : cache.Sound) : cache.makeRoom.capacity = cache.capacity := by
  obtain ⟨_, same⟩ | ⟨_, _, _, _, _, _, left⟩ := sound.makeRoom_cases
  · rw [same]
  · rw [left]

theorem makeRoom (sound : cache.Sound) : cache.makeRoom.Sound where
  room := sound.makeRoom_capacity ▸ sound.room
  bounded := sound.makeRoom_capacity ▸ Nat.le_of_lt sound.makeRoom_size.1
  distinct := sound.distinct.sublist sound.makeRoom_texts

theorem ofCapacity (capacity : Nat) : (ParseCache.ofCapacity capacity).Sound where
  room := Nat.le_max_right capacity 1
  bounded := Nat.zero_le _
  distinct := .nil

theorem get (sound : cache.Sound) (parse : String → Except SyntaxError Query) (text : String) :
    (cache.get parse text).2.Sound := by
  have made := sound.makeRoom
  obtain ⟨entry, _, gets⟩ | ⟨absent, query, _, gets⟩ | ⟨absent, error, _, gets⟩ :=
    get_cases parse text cache
  · rw [gets]
    have texts : (cache.recordHit text).texts.Nodup := by
      rw [texts_recordHit]
      exact sound.distinct
    exact ⟨sound.room, Nat.le_trans (Nat.le_of_eq size_recordHit) sound.bounded, texts⟩
  · rw [gets]
    refine ⟨made.room, ?_, ?_⟩
    · rw [size_add]
      exact sound.makeRoom_capacity ▸ sound.makeRoom_size.1
    · rw [texts_add, texts_recordMiss, List.nodup_append]
      refine ⟨made.distinct, List.pairwise_singleton _ _, fun kept member other added => ?_⟩
      rw [List.mem_singleton.mp added]
      rintro rfl
      exact contains_eq_false_iff.mp absent (sound.makeRoom_texts.subset member)
  · rw [gets]
    exact ⟨made.room, made.bounded, made.distinct⟩

theorem get_capacity (sound : cache.Sound) (parse : String → Except SyntaxError Query)
    (text : String) : (cache.get parse text).2.capacity = cache.capacity := by
  obtain ⟨_, _, gets⟩ | ⟨_, _, _, gets⟩ | ⟨_, _, _, gets⟩ := get_cases parse text cache
  · rw [gets]
    rfl
  · rw [gets]
    exact sound.makeRoom_capacity
  · rw [gets]
    exact sound.makeRoom_capacity

/-- What goes to make room had no more hits than anything else. -/
theorem makeRoom_fewest (sound : cache.Sound) {evicted : Entry} (held : evicted ∈ cache.entries)
    (gone : evicted.text ∉ cache.makeRoom.texts) :
    ∀ entry ∈ cache.entries, evicted.hits ≤ entry.hits := by
  obtain ⟨_, same⟩ | ⟨_, before, fewest, after, split, fewer, left⟩ := sound.makeRoom_cases
  · rw [same] at gone
    exact absurd (List.mem_map_of_mem held) gone
  · have others : evicted ∉ before ++ after := by
      rw [left] at gone
      exact fun kept => gone (List.mem_map_of_mem kept)
    rw [split, List.perm_middle.mem_iff, List.mem_cons] at held
    rw [held.resolve_right others]
    exact fewer

theorem get_fewest (sound : cache.Sound) {parse : String → Except SyntaxError Query}
    {text : String} {evicted : Entry} (held : evicted ∈ cache.entries)
    (gone : evicted.text ∉ (cache.get parse text).2.texts) :
    ∀ entry ∈ cache.entries, evicted.hits ≤ entry.hits := by
  obtain ⟨_, _, gets⟩ | ⟨_, query, _, gets⟩ | ⟨_, _, _, gets⟩ := get_cases parse text cache
  · rw [gets, texts_recordHit] at gone
    exact absurd (List.mem_map_of_mem held) gone
  · rw [gets, texts_add, texts_recordMiss, List.mem_append, not_or] at gone
    exact sound.makeRoom_fewest held gone.1
  · rw [gets] at gone
    exact sound.makeRoom_fewest held gone

theorem clear (sound : cache.Sound) : cache.clear.Sound where
  room := sound.room
  bounded := Nat.zero_le _
  distinct := .nil

theorem rearrange (sound : cache.Sound) {entries : List Entry}
    (same : entries.Perm cache.entries) : { cache with entries }.Sound where
  room := sound.room
  bounded := Nat.le_trans (Nat.le_of_eq same.length_eq) sound.bounded
  distinct := (same.map _).nodup_iff.mpr sound.distinct

end Sound

/-! ### Many questions -/

/-- A question: the cache that it finds, the text, and how it is parsed if need be. -/
structure Lookup where
  cache : ParseCache
  text : String
  parse : String → Except SyntaxError Query

namespace Lookup

def answer (lookup : Lookup) : Except SyntaxError Query :=
  (lookup.cache.get lookup.parse lookup.text).1

/-- The cache afterwards. -/
def left (lookup : Lookup) : ParseCache := (lookup.cache.get lookup.parse lookup.text).2

/-- The text's query is kept already. -/
def isHit (lookup : Lookup) : Bool := lookup.cache.contains lookup.text

/-- The text's query is not kept yet, but can be parsed. -/
def isNew (lookup : Lookup) : Bool :=
  !lookup.isHit && (lookup.parse lookup.text).toOption.isSome

end Lookup

/-- The questions, the last one first, that led from an empty cache to the given one. Nothing says
in which order entries stand, and so which one goes of those with equally few hits: their order may
change at any time. -/
inductive History (capacity : Nat) : List Lookup → ParseCache → Prop where
  | new : History capacity [] (.ofCapacity capacity)
  | get {log : List Lookup} (lookup : Lookup) (before : History capacity log lookup.cache) :
      History capacity (lookup :: log) lookup.left
  | rearrange {log : List Lookup} {cache : ParseCache} (before : History capacity log cache)
      {entries : List Entry} (same : entries.Perm cache.entries) :
      History capacity log { cache with entries }

/-- What the statistics say of the questions. -/
structure Tallies (log : List Lookup) (cache : ParseCache) : Prop where
  hits : cache.statistics.hits = log.countP (·.isHit)
  misses : cache.statistics.misses = log.countP (!·.isHit)
  parses : cache.statistics.parses = cache.statistics.misses
  kept : cache.size + cache.statistics.evictions = log.countP (·.isNew)

/-- The query of each entry was the answer to a question for its text. -/
def Answered (log : List Lookup) (cache : ParseCache) : Prop :=
  ∀ entry ∈ cache.entries, ∃ lookup ∈ log,
    lookup.isNew = true ∧ lookup.text = entry.text ∧ lookup.answer = .ok entry.query

/-- How often a text was answered from its entry since it was parsed. -/
def hitsOf (text : String) : List Lookup → Nat
  | [] => 0
  | lookup :: earlier =>
      if lookup.text = text then
        if lookup.isHit then hitsOf text earlier + 1 else 0
      else hitsOf text earlier

/-- The hits of each entry are those of its text. -/
def Counted (log : List Lookup) (cache : ParseCache) : Prop :=
  ∀ entry ∈ cache.entries, entry.hits = hitsOf entry.text log

variable {log : List Lookup}

theorem Tallies.get {lookup : Lookup} (tallies : Tallies log lookup.cache)
    (sound : lookup.cache.Sound) : Tallies (lookup :: log) lookup.left := by
  obtain ⟨hits, misses, parses, kept⟩ := tallies
  have room := sound.makeRoom_size.2
  unfold Lookup.left
  obtain ⟨entry, held, gets⟩ | ⟨absent, query, parsed, gets⟩ | ⟨absent, error, fails, gets⟩ :=
    get_cases lookup.parse lookup.text lookup.cache
  · have isHit : lookup.isHit = true := contains_of_find? held
    have isOld : lookup.isNew = false := by rw [Lookup.isNew, isHit]; rfl
    rw [gets]
    constructor <;> simp [isHit, isOld, hits, misses, parses, kept]
  · have isMiss : lookup.isHit = false := absent
    have isNew : lookup.isNew = true := by rw [Lookup.isNew, isMiss, parsed]; rfl
    rw [gets]
    constructor <;> simp [isMiss, isNew, hits, misses, parses]
    omega
  · have isMiss : lookup.isHit = false := absent
    have isOld : lookup.isNew = false := by rw [Lookup.isNew, isMiss, fails]; rfl
    rw [gets]
    constructor <;> simp [isMiss, isOld, hits, misses, parses]
    omega

theorem Tallies.rearrange (tallies : Tallies log cache) {entries : List Entry}
    (same : entries.Perm cache.entries) : Tallies log { cache with entries } where
  hits := tallies.hits
  misses := tallies.misses
  parses := tallies.parses
  kept := by
    rw [← tallies.kept, size, size, same.length_eq]

theorem Answered.get {lookup : Lookup} (answered : Answered log lookup.cache)
    (sound : lookup.cache.Sound) : Answered (lookup :: log) lookup.left := by
  have older : ∀ entry ∈ lookup.cache.entries, ∃ earlier ∈ lookup :: log,
      earlier.isNew = true ∧ earlier.text = entry.text ∧ earlier.answer = .ok entry.query := by
    intro entry member
    obtain ⟨earlier, among, answers⟩ := answered entry member
    exact ⟨earlier, List.mem_cons_of_mem _ among, answers⟩
  intro entry member
  unfold Lookup.left at member
  obtain ⟨_, _, gets⟩ | ⟨absent, query, parsed, gets⟩ | ⟨_, error, _, gets⟩ :=
    get_cases lookup.parse lookup.text lookup.cache
  · rw [gets] at member
    obtain ⟨before, among, rfl⟩ := List.mem_map.mp member
    split
    · exact older before among
    · exact older before among
  · have isNew : lookup.isNew = true := by
      rw [Lookup.isNew, Lookup.isHit, absent, parsed]
      rfl
    rw [gets] at member
    rcases List.mem_append.mp member with kept | added
    · exact older entry (sound.makeRoom_entries.subset kept)
    · rw [List.mem_singleton.mp added]
      refine ⟨lookup, List.mem_cons_self, isNew, rfl, ?_⟩
      rw [Lookup.answer, gets]
  · rw [gets] at member
    exact older entry (sound.makeRoom_entries.subset member)

theorem Counted.get {lookup : Lookup} (counted : Counted log lookup.cache)
    (sound : lookup.cache.Sound) : Counted (lookup :: log) lookup.left := by
  -- Entries that stay after a miss are of other texts.
  have others (absent : lookup.cache.contains lookup.text = false) :
      ∀ entry ∈ lookup.cache.makeRoom.entries,
        entry.hits = hitsOf entry.text (lookup :: log) := by
    intro entry member
    have before := sound.makeRoom_entries.subset member
    have other : lookup.text ≠ entry.text := by
      intro same
      rw [same] at absent
      exact contains_eq_false_iff.mp absent (List.mem_map_of_mem before)
    rw [hitsOf, if_neg other]
    exact counted entry before
  intro entry member
  unfold Lookup.left at member
  obtain ⟨_, held, gets⟩ | ⟨absent, query, _, gets⟩ | ⟨absent, error, _, gets⟩ :=
    get_cases lookup.parse lookup.text lookup.cache
  · rw [gets] at member
    obtain ⟨before, among, rfl⟩ := List.mem_map.mp member
    have isHit : lookup.isHit = true := contains_of_find? held
    split
    · rename_i same
      rw [hitsOf, if_pos same.symm, if_pos isHit, counted before among]
    · rename_i other
      rw [hitsOf, if_neg (Ne.symm other), counted before among]
  · rw [gets] at member
    rcases List.mem_append.mp member with kept | added
    · exact others absent entry kept
    · have isMiss : lookup.isHit = false := absent
      rw [List.mem_singleton.mp added, hitsOf, if_pos rfl, isMiss]
      rfl
  · rw [gets] at member
    exact others absent entry member

namespace History

variable {capacity : Nat}

theorem sound (history : History capacity log cache) : cache.Sound := by
  induction history with
  | new => exact .ofCapacity capacity
  | get lookup _ sound => exact sound.get lookup.parse lookup.text
  | rearrange _ same sound => exact sound.rearrange same

theorem tallies (history : History capacity log cache) : Tallies log cache := by
  induction history with
  | new => exact ⟨rfl, rfl, rfl, rfl⟩
  | get lookup before tallies => exact tallies.get before.sound
  | rearrange _ same tallies => exact tallies.rearrange same

theorem answered (history : History capacity log cache) : Answered log cache := by
  induction history with
  | new =>
    intro entry member
    cases member
  | get lookup before answered => exact answered.get before.sound
  | rearrange _ same answered => exact fun entry member => answered entry (same.mem_iff.mp member)

theorem counted (history : History capacity log cache) : Counted log cache := by
  induction history with
  | new =>
    intro entry member
    cases member
  | get lookup before counted => exact counted.get before.sound
  | rearrange _ same counted => exact fun entry member => counted entry (same.mem_iff.mp member)

theorem capacity_eq (history : History capacity log cache) :
    cache.capacity = max capacity 1 := by
  induction history with
  | new => rfl
  | get lookup before same => exact (before.sound.get_capacity lookup.parse lookup.text).trans same
  | rearrange _ _ same => exact same

/-- Whatever a cache is asked for, it stays within its capacity, keeps answers only, and its
statistics add up. What it holds it answers from, at no cost; and what it gives up was asked for
least. -/
theorem accounts (history : History capacity log cache) :
    cache.size ≤ max capacity 1 ∧ cache.texts.Nodup ∧ Answered log cache ∧ Counted log cache ∧
      Tallies log cache ∧ cache.statistics.hits + cache.statistics.misses = log.length ∧
      ∀ next : Lookup, next.cache = cache →
        (next.text ∈ cache.texts →
          (∃ entry ∈ cache.entries, entry.text = next.text ∧ next.answer = .ok entry.query) ∧
          next.left.texts = cache.texts ∧
          next.left.statistics =
            { cache.statistics with hits := cache.statistics.hits + 1 }) ∧
        ∀ evicted ∈ cache.entries, evicted.text ∉ next.left.texts →
          ∀ entry ∈ cache.entries, evicted.hits ≤ entry.hits := by
  have bounded := history.sound.bounded
  rw [history.capacity_eq] at bounded
  have total : cache.statistics.hits + cache.statistics.misses = log.length := by
    rw [history.tallies.hits, history.tallies.misses, log.length_eq_countP_add_countP (·.isHit)]
    simp only [Bool.not_eq_true, Bool.decide_eq_false]
  refine ⟨bounded, history.sound.distinct, history.answered, history.counted, history.tallies,
    total, ?_⟩
  rintro next rfl
  refine ⟨fun held => ?_, fun evicted held gone => history.sound.get_fewest held gone⟩
  obtain ⟨entry, found⟩ := Option.isSome_iff_exists.mp (contains_iff.mpr held)
  obtain ⟨member, same⟩ := mem_of_find? found
  unfold Lookup.answer Lookup.left
  rw [get_kept found]
  exact ⟨⟨entry, member, same, rfl⟩, texts_recordHit, rfl⟩

/-- A cache for one query, which is asked for two texts that can be parsed, and for one that cannot
in between. -/
theorem accounts_third :
    let parse := fun text => Query.parse text Query.defaultDepth
    let first : Lookup := ⟨.ofCapacity 1, "select a from A a", parse⟩
    let second : Lookup := ⟨first.left, "select from", parse⟩
    let third : Lookup := ⟨second.left, "select b from B b", parse⟩
    third.left.size = 1 ∧ third.left.size ≤ 1 ∧
      third.left.size + third.left.statistics.evictions = 2 ∧
      third.left.statistics.hits + third.left.statistics.misses = 3 := by
  intro parse first second third
  have start : History 1 [] (.ofCapacity 1) := .new
  obtain ⟨bounded, _, _, _, tallies, total, _⟩ :=
    accounts (.get third (.get second (.get first start)))
  refine ⟨?_, bounded, tallies.kept.trans ?_, total⟩
  · decide +kernel
  · decide +kernel

end History

/-! ### Questions in vain -/

/-- The caches that there are if all questions are answered by one parser. -/
inductive Reachable (parse : String → Except SyntaxError Query) : ParseCache → Prop where
  | new (capacity : Nat) : Reachable parse (.ofCapacity capacity)
  | get {cache : ParseCache} (before : Reachable parse cache) (text : String) :
      Reachable parse (cache.get parse text).2
  | clear {cache : ParseCache} (before : Reachable parse cache) : Reachable parse cache.clear
  | rearrange {cache : ParseCache} (before : Reachable parse cache) {entries : List Entry}
      (same : entries.Perm cache.entries) : Reachable parse { cache with entries }

namespace Reachable

theorem sound (reachable : Reachable parse cache) : cache.Sound := by
  induction reachable with
  | new capacity => exact .ofCapacity capacity
  | get _ text sound => exact sound.get parse text
  | clear _ sound => exact sound.clear
  | rearrange _ same sound => exact sound.rearrange same

theorem faithful (reachable : Reachable parse cache) : cache.Faithful parse := by
  induction reachable with
  | new capacity => exact .ofCapacity capacity
  | get _ text faithful => exact (faithful.get text).2
  | clear =>
    intro entry member
    cases member
  | rearrange _ same faithful => exact faithful.rearrange same

/-- A text that cannot be parsed is not kept. -/
theorem not_contains (reachable : Reachable parse cache) {error : SyntaxError}
    (fails : parse text = .error error) : cache.contains text = false := by
  rw [contains_eq_false_iff]
  intro held
  obtain ⟨entry, member, rfl⟩ := List.mem_map.mp held
  rw [reachable.faithful entry member] at fails
  cases fails

/-- A text that cannot be parsed is refused and never kept. While there is room it costs nothing
else: all entries stay as they are, and only misses and parses are counted. If the cache is full,
just one entry goes, one of those with the fewest hits, and nothing else changes. -/
theorem get_error (reachable : Reachable parse cache) {error : SyntaxError}
    (fails : parse text = .error error) :
    (cache.get parse text).1 = .error error ∧ (cache.get parse text).2.contains text = false ∧
      cache.size ≤ cache.capacity ∧
      (cache.size < cache.capacity →
        (cache.get parse text).2 = { cache with
          statistics := { cache.statistics with
            misses := cache.statistics.misses + 1, parses := cache.statistics.parses + 1 } }) ∧
      (cache.size = cache.capacity → ∃ before fewest after,
        cache.entries = before ++ fewest :: after ∧
        (∀ entry ∈ cache.entries, fewest.hits ≤ entry.hits) ∧
        (cache.get parse text).2 = { cache with
          entries := before ++ after
          statistics := { cache.statistics with
            misses := cache.statistics.misses + 1, parses := cache.statistics.parses + 1
            evictions := cache.statistics.evictions + 1 } }) := by
  have absent := reachable.not_contains fails
  have left := (Reachable.get reachable text).not_contains fails
  have room := reachable.sound.makeRoom_cases
  rw [get_failed absent fails] at left ⊢
  refine ⟨rfl, left, reachable.sound.bounded, fun free => ?_, fun full => ?_⟩
  · obtain ⟨_, same⟩ | ⟨full, _⟩ := room
    · rw [same]
      rfl
    · omega
  · obtain ⟨free, _⟩ | ⟨_, before, fewest, after, split, fewer, left⟩ := room
    · omega
    · refine ⟨before, fewest, after, split, fewer, ?_⟩
      rw [left]
      rfl

theorem selectFrom_fails : ∃ error, Query.parse "select from" Query.defaultDepth = .error error := by
  have fails : (Query.parse "select from" Query.defaultDepth).isOk = false := by decide +kernel
  cases parsed : Query.parse "select from" Query.defaultDepth with
  | ok query =>
    rw [parsed] at fails
    cases fails
  | error error => exact ⟨error, rfl⟩

/-- A cache for two queries that holds one: asked for a text that cannot be parsed, it keeps it. -/
theorem get_error_room :
    let parse := fun text => Query.parse text Query.defaultDepth
    let cache := ((ofCapacity 2).get parse "select a from A a").2
    (cache.get parse "select from").2.texts = ["select a from A a"] := by
  intro parse cache
  obtain ⟨error, fails⟩ : ∃ error, parse "select from" = .error error := selectFrom_fails
  have reachable : Reachable parse cache := .get (.new 2) "select a from A a"
  have free : cache.size < cache.capacity := by decide +kernel
  obtain ⟨_, _, _, same, _⟩ := get_error reachable fails
  rw [same free]
  decide +kernel

/-- A text that cannot be parsed costs a full cache what it holds. -/
theorem get_error_evicts :
    let parse := fun text => Query.parse text Query.defaultDepth
    let cache := ((ofCapacity 1).get parse "select a from A a").2
    Reachable parse cache ∧ (∃ error, parse "select from" = .error error) ∧
      cache.texts = ["select a from A a"] ∧ (cache.get parse "select from").2.texts = [] ∧
      (cache.get parse "select from").2.statistics.evictions =
        cache.statistics.evictions + 1 := by
  intro parse cache
  refine ⟨.get (.new 1) "select a from A a", selectFrom_fails, ?_, ?_, ?_⟩
  · decide +kernel
  · decide +kernel
  · decide +kernel

end Reachable

end ParseCache

end QueryGuard
