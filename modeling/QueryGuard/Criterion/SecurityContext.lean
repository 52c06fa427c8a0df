import QueryGuard.Parameter.Value
/-!
Who asks a query, and what is known of them.
-/

set_option autoImplicit false

namespace QueryGuard

/-- The caller's identity, tenant and attributes. Of several attributes of a name the first counts;
administrators are exempt from policies. -/
structure SecurityContext where
  principal : String
  tenant : Option String
  attributes : List (String × Value)
  admin : Bool

namespace SecurityContext

/-- A caller of whom nothing but the identity is known. -/
def ofPrincipal (principal : String) : SecurityContext := ⟨principal, none, [], false⟩

def anonymousName : String := "anonymous"

def anonymous : SecurityContext := ofPrincipal anonymousName

/-- The platform itself. -/
def system : SecurityContext := { ofPrincipal "system" with admin := true }

def withTenant (context : SecurityContext) (tenant : String) : SecurityContext :=
  { context with tenant := some tenant }

/-- Sets an attribute, also one that was set before. -/
def withAttribute (context : SecurityContext) (name : String) (value : Value) : SecurityContext :=
  { context with attributes := (name, value) :: context.attributes }

def attribute? (context : SecurityContext) (name : String) : Option Value :=
  context.attributes.lookup name

def isAnonymous (context : SecurityContext) : Bool := context.principal = anonymousName

/-- The tenant, or what stands for none. -/
def tenantOr (context : SecurityContext) (sentinel : String) : String :=
  context.tenant.getD sentinel

end SecurityContext

end QueryGuard
