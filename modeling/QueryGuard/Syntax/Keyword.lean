/-!
The reserved words of the query language.
-/

set_option autoImplicit false

namespace QueryGuard

/-- A reserved word. -/
inductive Keyword where
  | select | distinct | from | as | join | inner | left | outer | on | where | group | having
  | order | by | asc | desc | limit | offset
  | and | or | not | in | between | is | like | escape | exists
  | null | true | false
deriving DecidableEq, Repr

namespace Keyword

/-- All reserved words. -/
def all : List Keyword :=
  [select, distinct, «from», as, join, inner, left, outer, on, «where», group, having,
    order, «by», asc, desc, limit, offset,
    and, or, not, «in», between, is, like, escape, «exists»,
    null, true, false]

/-- The word in lower case. -/
def spelling : Keyword → String
  | select => "select"
  | distinct => "distinct"
  | «from» => "from"
  | as => "as"
  | join => "join"
  | inner => "inner"
  | left => "left"
  | outer => "outer"
  | on => "on"
  | «where» => "where"
  | group => "group"
  | having => "having"
  | order => "order"
  | «by» => "by"
  | asc => "asc"
  | desc => "desc"
  | limit => "limit"
  | offset => "offset"
  | and => "and"
  | or => "or"
  | not => "not"
  | «in» => "in"
  | between => "between"
  | is => "is"
  | like => "like"
  | escape => "escape"
  | «exists» => "exists"
  | null => "null"
  | true => "true"
  | false => "false"

/-- The word in upper case, as error messages show it. -/
def capitals (keyword : Keyword) : String :=
  String.ofList (keyword.spelling.toList.map Char.toUpper)

/-- The reserved word with the given letters in any case. -/
def ofWord? (word : List Char) : Option Keyword :=
  all.find? fun keyword => keyword.spelling.toList == word.map Char.toLower

theorem mem_all (keyword : Keyword) : keyword ∈ all := by
  cases keyword <;> decide

/-- Each reserved word is read back from its spelling. -/
theorem ofWord?_spelling (keyword : Keyword) :
    ofWord? keyword.spelling.toList = some keyword := by
  cases keyword <;> decide

end Keyword

end QueryGuard
