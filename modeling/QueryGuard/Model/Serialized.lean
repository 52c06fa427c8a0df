import QueryGuard.Model.Basic
import QueryGuard.QueryError
import QueryGuard.Syntax.Parts
import QueryGuard.Syntax.Printer
/-!
The text of a model with the parameters that occur in it.
-/

set_option autoImplicit false

namespace QueryGuard

/-- A query as it is handed on. -/
structure Serialized where
  text : String
  parameters : ParameterMap

namespace ParameterMap

/-- The caller's parameters in their order, then all others in theirs. -/
def callerFirst (parameters : ParameterMap) : ParameterMap :=
  let isCaller (entry : String × Binding) : Bool := entry.2.owner = .caller
  let entries := parameters.entries.filter isCaller ++
    parameters.entries.filter fun entry => !isCaller entry
  ⟨entries, ((List.filter_append_perm isCaller parameters.entries).map _).nodup_iff.mpr
    parameters.nodup⟩

end ParameterMap

namespace Model

/-- The text of the query and the parameters that occur in it; each has a value. -/
def serialize (model : Model) : Except QueryError Serialized := do
  let markers := model.query.markers
  match markers.find? fun marker => !model.parameters.contains marker.value with
  | some missing => throw (.unboundParameter missing.value missing.span)
  | none =>
      let occurs (name : String) (_ : Binding) : Bool := markers.any (·.value == name)
      return ⟨model.query.text, model.parameters.callerFirst.filter occurs⟩

end Model

end QueryGuard
