import QueryGuard.Catalog.Navigation
import QueryGuard.Parameter.Map
import QueryGuard.Syntax.Error
/-!
What can go wrong with one query.
-/

set_option autoImplicit false

namespace QueryGuard

/-- Why an alias or a path means nothing. -/
inductive Unresolved where
  | unknownEntity (name : String)
  | outOfScope (name : String)
  | undeclared (name : String)
  | scalarJoin
  | navigation (error : NavigationError)
deriving DecidableEq, Repr

def Unresolved.message : Unresolved → String
  | unknownEntity name => "unknown entity '" ++ name ++ "'"
  | outOfScope name => "alias '" ++ name ++ "' is not declared in this scope"
  | undeclared name => "alias '" ++ name ++ "' is not declared"
  | scalarJoin => "a scalar attribute cannot be joined"
  | navigation error => error.message

/-- Why no text can be given for a query. -/
inductive QueryError where
  | syntactic (error : SyntaxError)
  | unresolved (root path : String) (reason : Unresolved) (span : Span)
  | aliasCollision (name : String) (span : Span)
  | conflict (criterion parameter : String) (owner : Owner)
  | unboundParameter (name : String) (span : Span)
  | missingAttribute (criterion attr : String)
  | configuration (error : ConfigurationError)
deriving DecidableEq, Repr

namespace QueryError

def message : QueryError → String
  | syntactic error => error.message
  | unresolved root path reason _ =>
      "unresolved path '" ++ (if path.isEmpty then root else root ++ "." ++ path) ++ "': " ++
        reason.message
  | aliasCollision name _ => "alias '" ++ name ++ "' is declared more than once"
  | conflict criterion parameter owner =>
      "criterion '" ++ criterion ++ "' contributes parameter ':" ++ parameter ++
        "' already owned by " ++ owner.text
  | unboundParameter name _ => "no value supplied for parameter ':" ++ name ++ "'"
  | missingAttribute criterion attr =>
      "criterion '" ++ criterion ++ "' failed: missing context attribute: " ++ attr
  | configuration error => error.message

/-- The place in the text of the query, if the error has one. -/
def span : QueryError → Span
  | syntactic error => error.span
  | unresolved _ _ _ place => place
  | aliasCollision _ place => place
  | unboundParameter _ place => place
  | conflict _ _ _ | missingAttribute _ _ | configuration _ => .synthetic

def advice? : QueryError → Option String
  | syntactic error => error.advice?
  | _ => none

/-- The report of the error with the line of the source it stands in. -/
def report (error : QueryError) (source : String) : String :=
  Text.excerpt error.message error.span error.advice? source

end QueryError

end QueryGuard
