/-!
What can be wrong before any query is looked at.
-/

set_option autoImplicit false

namespace QueryGuard

/-- A fault of the catalog, of the settings or of the criteria. -/
inductive ConfigurationError where
  | unreadableSchema
  | unreadableSettings
  | duplicateEntity (name : String)
  | missingIdentity (entity attr : String)
  | unknownReference (entity attr target : String)
  | tenantAttribute (attr entity : String)
  | softDeleteAttribute (attr entity : String)
  | missingEntity (name : String)
  | duplicateCriterion (name : String)
  | parameterPrefix (text : String)
  | cacheCapacity
deriving DecidableEq, Repr

namespace ConfigurationError

def description : ConfigurationError → String
  | unreadableSchema => "invalid schema JSON"
  | unreadableSettings => "invalid engine configuration"
  | duplicateEntity name => "entity '" ++ name ++ "' is defined more than once"
  | missingIdentity entity attr =>
      "entity '" ++ entity ++ "' has no identity attribute '" ++ attr ++ "'"
  | unknownReference entity attr target =>
      "attribute '" ++ entity ++ "." ++ attr ++ "' references unknown entity '" ++ target ++ "'"
  | tenantAttribute attr entity =>
      "tenant attribute '" ++ attr ++ "' of entity '" ++ entity ++
        "' must be a single scalar attribute"
  | softDeleteAttribute attr entity =>
      "soft-delete attribute '" ++ attr ++ "' of entity '" ++ entity ++
        "' must be a nullable scalar attribute"
  | missingEntity name => "entity '" ++ name ++ "' vanished from the schema"
  | duplicateCriterion name => "criterion '" ++ name ++ "' is registered more than once"
  | parameterPrefix text => "criterion parameter prefix '" ++ text ++ "' is not a valid identifier"
  | cacheCapacity => "parse cache capacity must be positive; use null to disable caching"

def message (error : ConfigurationError) : String := "configuration error: " ++ error.description

end ConfigurationError

end QueryGuard
