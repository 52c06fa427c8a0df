import QueryGuard.Number.Binary64
import QueryGuard.Syntax.Parser
/-!
A store of parsed queries by their texts, of limited size. If it is full, the query that was asked
for least makes room for another one.
-/

set_option autoImplicit false

namespace QueryGuard

namespace ParseCache

/-- A parsed text and how often it was asked for again. -/
structure Entry where
  text : String
  query : Query
  hits : Nat

/-- What a cache was asked for, and what it did. -/
structure Statistics where
  hits : Nat
  misses : Nat
  parses : Nat
  evictions : Nat
deriving DecidableEq, Repr

/-- The part of all questions that needed no parsing. -/
def Statistics.hitRate (statistics : Statistics) : Binary64 :=
  let total := statistics.hits + statistics.misses
  if total = 0 then .zero else .ofRatio false statistics.hits total

end ParseCache

structure ParseCache where
  capacity : Nat
  entries : List ParseCache.Entry
  statistics : ParseCache.Statistics

namespace ParseCache

/-- An empty cache; it has room for one query at least. -/
def ofCapacity (capacity : Nat) : ParseCache := ⟨max capacity 1, [], ⟨0, 0, 0, 0⟩⟩

def find? (cache : ParseCache) (text : String) : Option Entry :=
  cache.entries.find? (·.text == text)

def contains (cache : ParseCache) (text : String) : Bool := (cache.find? text).isSome

def size (cache : ParseCache) : Nat := cache.entries.length

/-- Forgets all queries, but not what was counted. -/
def clear (cache : ParseCache) : ParseCache := { cache with entries := [] }

/-- The entries without the first one of those with the fewest hits. -/
def withoutLeastHit (entries : List Entry) : List Entry :=
  match (entries.map (·.hits)).min? with
  | some fewest => entries.eraseP (·.hits == fewest)
  | none => entries

/-- Makes room for one more query in a full cache. -/
def makeRoom (cache : ParseCache) : ParseCache :=
  if cache.size < cache.capacity then cache
  else { cache with
    entries := withoutLeastHit cache.entries
    statistics := { cache.statistics with evictions := cache.statistics.evictions + 1 } }

/-- Counts a question that the cache could answer. -/
def recordHit (cache : ParseCache) (text : String) : ParseCache :=
  { cache with
    entries := cache.entries.map fun entry =>
      if entry.text = text then { entry with hits := entry.hits + 1 } else entry
    statistics := { cache.statistics with hits := cache.statistics.hits + 1 } }

/-- Counts a question that needed parsing. -/
def recordMiss (cache : ParseCache) : ParseCache :=
  { cache with
    statistics := { cache.statistics with
      misses := cache.statistics.misses + 1, parses := cache.statistics.parses + 1 } }

/-- Keeps a parsed query. -/
def add (cache : ParseCache) (text : String) (query : Query) : ParseCache :=
  { cache with entries := cache.entries ++ [⟨text, query, 0⟩] }

/-- The query of a text, parsed if the cache does not hold it; room is made before parsing, and
only queries that parse are kept. -/
def get (parse : String → Except SyntaxError Query) (text : String) (cache : ParseCache) :
    Except SyntaxError Query × ParseCache :=
  match cache.find? text with
  | some entry => (.ok entry.query, cache.recordHit text)
  | none =>
      let ready := cache.makeRoom.recordMiss
      match parse text with
      | .ok query => (.ok query, ready.add text query)
      | .error error => (.error error, ready)

end ParseCache

end QueryGuard
