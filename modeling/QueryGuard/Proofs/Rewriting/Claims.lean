import QueryGuard.Model.Constraint
import QueryGuard.Proofs.Parameters
import QueryGuard.Proofs.Rewriting.Replacement
/-!
The parameters that criteria ask for: whether all of them can be had, and which parameters there are
then. Neither depends on who asks first.
-/

set_option autoImplicit false

namespace QueryGuard

/-- A parameter that a criterion asks for. -/
structure Claim where
  criterion : String
  name : String
  value : Value

namespace Claim

def binding (claim : Claim) : Binding := .of (.criterion claim.criterion) claim.value

/-- The criterion may have the parameter: if there is one of its name, the criterion supplied it with
the same value, and if there is none, the text has no marker of the name. -/
structure Admissible (markers : List String) (parameters : ParameterMap) (claim : Claim) : Prop where
  own : ∀ kept owner, (claim.name, kept, owner) ∈ parameters.untyped →
    owner = .criterion claim.criterion ∧ kept.same claim.value = true
  unmarked : claim.name ∈ markers → claim.name ∈ parameters.names

/-- Two claims to a parameter that is not there yet are the same one, and repeating it is no
conflict. -/
def Compatible (parameters : ParameterMap) (first second : Claim) : Prop :=
  first.name = second.name → first.name ∉ parameters.names →
    first = second ∧ first.value.same first.value = true

theorem Compatible.symm {parameters : ParameterMap} {first second : Claim}
    (compatible : Compatible parameters first second) : Compatible parameters second first := by
  intro named new
  obtain ⟨rfl, same⟩ := compatible named.symm (named ▸ new)
  exact ⟨rfl, same⟩

end Claim

namespace ParameterMap

/-- The parameters with the claimed one, if there is none of its name yet. -/
def grant (parameters : ParameterMap) (claim : Claim) : ParameterMap :=
  if claim.name ∈ parameters.names then parameters
  else parameters.insert claim.name claim.binding

def grantAll (parameters : ParameterMap) (claims : List Claim) : ParameterMap :=
  claims.foldl grant parameters

/-- The claims can be granted one after the other. -/
def Accepts (markers : List String) : ParameterMap → List Claim → Prop
  | _, [] => True
  | parameters, claim :: rest =>
      claim.Admissible markers parameters ∧ Accepts markers (parameters.grant claim) rest

variable {markers : List String} {parameters : ParameterMap}

theorem entries_insert {name : String} (new : name ∉ parameters.names) (binding : Binding) :
    (parameters.insert name binding).entries = parameters.entries ++ [(name, binding)] :=
  insertEntry_new new binding

theorem names_grant_new {claim : Claim} (new : claim.name ∉ parameters.names) :
    (parameters.grant claim).names = parameters.names ++ [claim.name] := by
  rw [grant, if_neg new, names, entries_insert new, List.map_append]
  rfl

theorem accepts_append (first rest : List Claim) :
    Accepts markers parameters (first ++ rest) ↔
      Accepts markers parameters first ∧ Accepts markers (parameters.grantAll first) rest := by
  induction first generalizing parameters with
  | nil => exact ⟨fun accepts => ⟨trivial, accepts⟩, fun accepts => accepts.2⟩
  | cons claim others ih =>
    rw [List.cons_append, Accepts, Accepts, ih, and_assoc]
    rfl

/-! ### The order of claims -/

/-- Nobody asks for a parameter with two values. -/
def Consistent (claims : List Claim) : Prop :=
  ∀ first ∈ claims, ∀ second ∈ claims, first.name = second.name →
    first.criterion = second.criterion → first = second

theorem Consistent.of_subset {claims others : List Claim} (consistent : Consistent claims)
    (among : others ⊆ claims) : Consistent others :=
  fun first member second member' =>
    consistent first (among member) second (among member')

theorem untyped_grant_new {claim : Claim} (new : claim.name ∉ parameters.names) :
    (parameters.grant claim).untyped =
      parameters.untyped ++ [(claim.name, claim.value, .criterion claim.criterion)] := by
  rw [grant, if_neg new, untyped_insert new]
  rfl

theorem not_mem_untyped {name : String} (new : name ∉ parameters.names) (value : Value)
    (owner : Owner) : (name, value, owner) ∉ parameters.untyped := by
  intro member
  rw [← parameters.names_untyped] at new
  exact new (List.mem_map_of_mem member)

/-- Behind a granted claim, another one can be granted if it could be before and the two agree. -/
theorem admissible_grant {claim other : Claim} (admissible : claim.Admissible markers parameters)
    (consistent : claim.name = other.name → claim.criterion = other.criterion → claim = other) :
    other.Admissible markers (parameters.grant claim) ↔
      other.Admissible markers parameters ∧ Claim.Compatible parameters claim other := by
  by_cases there : claim.name ∈ parameters.names
  · rw [grant, if_pos there]
    exact ⟨fun holds => ⟨holds, fun _ new => absurd there new⟩, fun holds => holds.1⟩
  · by_cases named : claim.name = other.name
    · have new : other.name ∉ parameters.names := named ▸ there
      have listed : (other.name, claim.value, .criterion claim.criterion) ∈
          (parameters.grant claim).untyped := by
        rw [untyped_grant_new there, named]
        exact List.mem_append_right _ List.mem_cons_self
      constructor
      · intro holds
        obtain ⟨owner, same⟩ := holds.own _ _ listed
        obtain rfl := consistent named (Owner.criterion.inj owner)
        exact ⟨admissible, fun _ _ => ⟨rfl, same⟩⟩
      · rintro ⟨_, compatible⟩
        obtain ⟨rfl, same⟩ := compatible named there
        refine ⟨fun kept owner member => ?_, fun _ => ?_⟩
        · rw [untyped_grant_new there] at member
          rcases List.mem_append.mp member with old | added
          · exact absurd old (not_mem_untyped there kept owner)
          · obtain ⟨_, rfl, rfl⟩ := List.mem_singleton.mp added
            exact ⟨rfl, same⟩
        · rw [names_grant_new there]
          exact List.mem_append_right _ List.mem_cons_self
    · have names : other.name ∈ (parameters.grant claim).names ↔ other.name ∈ parameters.names := by
        rw [names_grant_new there, List.mem_append, List.mem_singleton]
        exact or_iff_left (Ne.symm named)
      have listed : ∀ kept owner, (other.name, kept, owner) ∈ (parameters.grant claim).untyped ↔
          (other.name, kept, owner) ∈ parameters.untyped := by
        intro kept owner
        rw [untyped_grant_new there, List.mem_append, List.mem_singleton]
        exact or_iff_left fun same => named (congrArg (·.1) same).symm
      refine ⟨fun holds => ⟨⟨fun kept owner member => ?_, fun marked => ?_⟩, fun same => ?_⟩,
        fun holds => ⟨fun kept owner member => ?_, fun marked => ?_⟩⟩
      · exact holds.own kept owner ((listed kept owner).mpr member)
      · exact names.mp (holds.unmarked marked)
      · exact absurd same named
      · exact holds.1.own kept owner ((listed kept owner).mp member)
      · exact names.mpr (holds.1.unmarked marked)

theorem mem_names_grant {claim : Claim} {name : String} :
    name ∈ (parameters.grant claim).names ↔ name ∈ parameters.names ∨ name = claim.name := by
  by_cases there : claim.name ∈ parameters.names
  · rw [grant, if_pos there]
    exact ⟨.inl, fun found => found.elim id fun same => same ▸ there⟩
  · rw [names_grant_new there, List.mem_append, List.mem_singleton]

theorem mem_names_grantAll {claims : List Claim} {name : String} :
    name ∈ (parameters.grantAll claims).names ↔
      name ∈ parameters.names ∨ name ∈ claims.map (·.name) := by
  induction claims generalizing parameters with
  | nil => simp [grantAll]
  | cons claim rest ih =>
    change name ∈ ((parameters.grant claim).grantAll rest).names ↔ _
    rw [ih, mem_names_grant, List.map_cons, List.mem_cons, or_assoc]

/-- Granting a claim changes nothing for those that agree with it. -/
theorem compatible_grant {claim first second : Claim}
    (toFirst : Claim.Compatible parameters claim first)
    (toSecond : Claim.Compatible parameters claim second) :
    Claim.Compatible (parameters.grant claim) first second ↔
      Claim.Compatible parameters first second := by
  constructor
  · intro compatible named new
    by_cases same : first.name = claim.name
    · obtain ⟨rfl, repeatable⟩ := toFirst same.symm (same ▸ new)
      exact ⟨(toSecond named new).1, repeatable⟩
    · exact compatible named fun there =>
        (mem_names_grant.mp there).elim new same
  · intro compatible named new
    exact compatible named fun there => new (mem_names_grant.mpr (.inl there))

/-- Claims can be granted in their order if each of them can be granted alone, and those to the same
parameter agree. -/
theorem accepts_iff {claims : List Claim} (consistent : Consistent claims) :
    Accepts markers parameters claims ↔
      (∀ claim ∈ claims, claim.Admissible markers parameters) ∧
        claims.Pairwise (Claim.Compatible parameters) := by
  induction claims generalizing parameters with
  | nil => simp [Accepts]
  | cons claim rest ih =>
    have others : Consistent rest :=
      consistent.of_subset fun _ member => List.mem_cons_of_mem _ member
    have granted : claim.Admissible markers parameters → ∀ other ∈ rest,
        (other.Admissible markers (parameters.grant claim) ↔
          other.Admissible markers parameters ∧ Claim.Compatible parameters claim other) :=
      fun admissible other member => admissible_grant admissible
        (consistent claim List.mem_cons_self other (List.mem_cons_of_mem _ member))
    rw [Accepts, ih others, List.forall_mem_cons, List.pairwise_cons]
    constructor
    · rintro ⟨admissible, each, pairs⟩
      have compatible := fun other member =>
        ((granted admissible other member).mp (each other member)).2
      refine ⟨⟨admissible, fun other member =>
        ((granted admissible other member).mp (each other member)).1⟩, compatible, ?_⟩
      exact pairs.imp_of_mem fun {first second} member member' =>
        (compatible_grant (compatible first member) (compatible second member')).mp
    · rintro ⟨⟨admissible, each⟩, compatible, pairs⟩
      refine ⟨admissible, fun other member =>
        (granted admissible other member).mpr ⟨each other member, compatible other member⟩, ?_⟩
      exact pairs.imp_of_mem fun {first second} member member' =>
        (compatible_grant (compatible first member) (compatible second member')).mpr

/-- The order of claims does not matter. -/
theorem accepts_perm {claims others : List Claim} (consistent : Consistent claims)
    (same : claims.Perm others) :
    Accepts markers parameters claims ↔ Accepts markers parameters others := by
  rw [accepts_iff consistent, accepts_iff (consistent.of_subset same.symm.subset),
    same.pairwise_iff Claim.Compatible.symm]
  simp only [same.mem_iff]

theorem names_eq_of_untyped {others : ParameterMap} (same : others.untyped = parameters.untyped) :
    others.names = parameters.names := by
  rw [← names_untyped, same, names_untyped]

theorem untyped_grant {others : ParameterMap} (same : others.untyped = parameters.untyped)
    (claim : Claim) : (others.grant claim).untyped = (parameters.grant claim).untyped := by
  by_cases there : claim.name ∈ parameters.names
  · rw [grant, grant, if_pos there, if_pos (names_eq_of_untyped same ▸ there), same]
  · rw [untyped_grant_new there, untyped_grant_new (names_eq_of_untyped same ▸ there), same]

/-- Only the names, values and owners of parameters matter, and among markers only those that are not
names of parameters. -/
theorem accepts_congr {others : ParameterMap} {marked : List String} {claims : List Claim}
    (same : others.untyped = parameters.untyped)
    (agree : ∀ name, name ∉ parameters.names → (name ∈ marked ↔ name ∈ markers)) :
    Accepts marked others claims ↔ Accepts markers parameters claims := by
  induction claims generalizing parameters others with
  | nil => exact Iff.rfl
  | cons claim rest ih =>
    have names := names_eq_of_untyped same
    have unmarked : (claim.name ∈ marked → claim.name ∈ others.names) ↔
        (claim.name ∈ markers → claim.name ∈ parameters.names) := by
      by_cases there : claim.name ∈ parameters.names
      · simp only [names, there, implies_true]
      · simp only [names, agree _ there]
    have admissible : claim.Admissible marked others ↔ claim.Admissible markers parameters :=
      ⟨fun holds => ⟨same ▸ holds.own, unmarked.mp holds.unmarked⟩,
        fun holds => ⟨same ▸ holds.own, unmarked.mpr holds.unmarked⟩⟩
    rw [Accepts, Accepts, admissible, ih (untyped_grant same claim) fun name new =>
      agree name fun there => new (mem_names_grant.mpr (.inl there))]

/-- The granted parameters come behind the others, one for each name that is new. -/
theorem entries_grantAll {claims : List Claim}
    (compatible : claims.Pairwise (Claim.Compatible parameters)) :
    ∃ added, (parameters.grantAll claims).entries = parameters.entries ++ added ∧
      ∀ entry, entry ∈ added ↔
        ∃ claim ∈ claims, claim.name ∉ parameters.names ∧ entry = (claim.name, claim.binding) := by
  induction claims generalizing parameters with
  | nil => exact ⟨[], (List.append_nil _).symm, by simp⟩
  | cons claim rest ih =>
    obtain ⟨toOthers, pairs⟩ := List.pairwise_cons.mp compatible
    have others : rest.Pairwise (Claim.Compatible (parameters.grant claim)) :=
      pairs.imp_of_mem fun {first second} member member' =>
        (compatible_grant (toOthers first member) (toOthers second member')).mpr
    obtain ⟨added, entries, among⟩ := ih others
    by_cases there : claim.name ∈ parameters.names
    · rw [grant, if_pos there] at among
      refine ⟨added, ?_, fun entry => (among entry).trans ?_⟩
      · rw [grantAll, List.foldl_cons, grant, if_pos there]
        rwa [grantAll, grant, if_pos there] at entries
      · simp [there]
    · refine ⟨(claim.name, claim.binding) :: added, ?_, fun entry => ?_⟩
      · change ((parameters.grant claim).grantAll rest).entries = _
        rw [entries, grant, if_neg there, entries_insert there, List.append_assoc]
        rfl
      · rw [List.mem_cons, among]
        constructor
        · rintro (rfl | ⟨other, member, new, rfl⟩)
          · exact ⟨claim, List.mem_cons_self, there, rfl⟩
          · exact ⟨other, List.mem_cons_of_mem _ member,
              fun old => new (mem_names_grant.mpr (.inl old)), rfl⟩
        · rintro ⟨other, member, new, rfl⟩
          rcases List.mem_cons.mp member with rfl | member
          · exact .inl rfl
          · by_cases named : claim.name = other.name
            · exact .inl (by rw [(toOthers other member named there).1])
            · exact .inr ⟨other, member, fun granted =>
                (mem_names_grant.mp granted).elim new (Ne.symm named), rfl⟩

/-- What is granted does not depend on the values and the types of the parameters that are there. -/
theorem entries_grantAll_of_names (parameters : ParameterMap) (claims : List Claim) :
    ∃ added, ∀ others : ParameterMap, others.names = parameters.names →
      (others.grantAll claims).entries = others.entries ++ added := by
  induction claims generalizing parameters with
  | nil => exact ⟨[], fun others _ => (List.append_nil _).symm⟩
  | cons claim rest ih =>
    obtain ⟨added, further⟩ := ih (parameters.grant claim)
    by_cases there : claim.name ∈ parameters.names
    · refine ⟨added, fun others same => ?_⟩
      have entries := further others (by rw [grant, if_pos there, same])
      rwa [grantAll, List.foldl_cons, grant, if_pos (same ▸ there)]
    · refine ⟨(claim.name, claim.binding) :: added, fun others same => ?_⟩
      have new : claim.name ∉ others.names := same ▸ there
      have entries := further (others.grant claim) (by
        rw [names_grant_new there, names_grant_new new, same])
      rw [grant, if_neg new, entries_insert new, List.append_assoc] at entries
      rw [grantAll, List.foldl_cons, grant, if_neg new]
      exact entries

/-- Types that parameters have got make no difference if they get others afterwards. -/
theorem setTypes_grantAll (parameters : ParameterMap) {types others : List (String × ScalarType)}
    (noted : types.map (·.1) ⊆ others.map (·.1)) (claims : List Claim) :
    others.foldl (fun parameters (name, type) => parameters.setType name type)
        ((types.foldl (fun parameters (name, type) => parameters.setType name type)
          parameters).grantAll claims) =
      others.foldl (fun parameters (name, type) => parameters.setType name type)
        (parameters.grantAll claims) := by
  obtain ⟨added, further⟩ := parameters.entries_grantAll_of_names claims
  have names : (types.foldl (fun parameters (name, type) => parameters.setType name type)
      parameters).names = parameters.names := names_eq_of_untyped (untyped_setTypes _ _)
  apply eq_of_entries
  rw [entries_setTypes, entries_setTypes, further _ names, further _ rfl, entries_setTypes,
    List.map_append, List.map_append, List.map_map]
  refine congrArg (· ++ _) (List.map_congr_left fun (name, binding) _ => ?_)
  simp only [Function.comp_apply]
  cases last : others.reverse.lookup name with
  | some type => rfl
  | none =>
    have unnoted : types.reverse.lookup name = none := by
      rw [List.lookup_eq_none_iff] at last ⊢
      intro noting member
      obtain ⟨other, among, same⟩ :=
        List.mem_map.mp (noted (List.mem_map_of_mem (List.mem_reverse.mp member)))
      rw [← same]
      exact last other (List.mem_reverse.mpr among)
    rw [unnoted]
    rfl

end ParameterMap

end QueryGuard
