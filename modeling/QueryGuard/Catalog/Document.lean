import QueryGuard.Catalog.Schema
import QueryGuard.Json.Reader
import QueryGuard.Json.Record
/-!
Catalogs as JSON documents.
-/

set_option autoImplicit false

namespace QueryGuard

open Json

def ScalarType.ofWritten? (written : Written) : Option ScalarType :=
  written.unitVariant?.bind ofSpelling?

def AttributeKind.ofWritten? (written : Written) : Option AttributeKind :=
  match written.variant? with
  | some ("scalar", some type) => (ScalarType.ofWritten? type).map .scalar
  | some ("reference", some entity) => entity.string?.map .reference
  | _ => none

def Cardinality.ofWritten? (written : Written) : Option Cardinality :=
  match written.unitVariant? with
  | some "single" => some .single
  | some "collection" => some .collection
  | _ => none

def Attribute.ofWritten? (written : Written) : Option Attribute := do
  let record ← written.record? ["name", "kind", "cardinality", "nullable"]
  return {
    name := ← record.required "name" Written.string?
    kind := ← record.required "kind" AttributeKind.ofWritten?
    cardinality := ← record.optional "cardinality" .single Cardinality.ofWritten?
    nullable := ← record.optional "nullable" false Written.bool? }

def Lifecycle.ofWritten? (written : Written) : Option Lifecycle := do
  let record ← written.record? ["soft_delete_attribute", "tenant_attribute"]
  return {
    softDelete := ← record.optional "soft_delete_attribute" none (Written.nullable? Written.string?)
    tenant := ← record.optional "tenant_attribute" none (Written.nullable? Written.string?) }

def Entity.ofWritten? (written : Written) : Option Entity := do
  let record ← written.record? ["name", "identity_attribute", "attributes", "lifecycle"]
  return {
    name := ← record.required "name" Written.string?
    identity := ← record.required "identity_attribute" Written.string?
    attributes := ← record.optional "attributes" [] (Written.list? Attribute.ofWritten?)
    lifecycle := ← record.optional "lifecycle" ⟨none, none⟩ Lifecycle.ofWritten? }

namespace Schema

/-- The entities of a document and the tenant that stands for none. -/
def ofWritten? (written : Written) : Option (List Entity × Option String) := do
  let record ← written.record? ["entities", "no_value_sentinel"]
  return (← record.required "entities" (Written.list? Entity.ofWritten?),
    ← record.optional "no_value_sentinel" none (Written.nullable? Written.string?))

/-- The checked catalog that a document describes. -/
def ofText (text : String) : Except ConfigurationError Schema := do
  match (Written.read? text).bind ofWritten? with
  | none => throw .unreadableSchema
  | some (entities, sentinel) =>
      let schema ← ofEntities entities
      return schema.withSentinel (sentinel.getD schema.sentinel)

end Schema

end QueryGuard
