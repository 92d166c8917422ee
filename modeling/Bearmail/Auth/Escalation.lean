import Bearmail.Auth.AccessToken

/-!
# Who may give permissions

An account gets no permissions that the one who sets it has not, unless it is an administrator of a tenant set
by one of none, or the other way round: the roles that are asked about are not those it gets (`noEscalation_iff`).
-/

namespace Bearmail.Auth

open Fallible
open List

variable {P A : Type} [DecidableEq P]

/-- For one whose token is of the tenant, whatever the server has. -/
def NoEscalation (tenantId : Option UInt32) (account : Account P A) : Prop :=
  ∀ (server : Server P) (grantor : AccessToken P A), grantor.inner.tenantId = tenantId →
    server.canSetPermissions grantor account = .ok (.ok ()) →
    ∀ xxh3 now accountId revisionAccount token,
      server.buildAccessToken xxh3 now account accountId revisionAccount = .ok token →
      ∀ scope ∈ token.scopes, scope.permissions ⊆ grantor.permissionsBits

def Permissions.OpenTo (p : P) : Permissions P → Prop
  | .inherit => True
  | .merge list => p ∉ list.disabledPermissions
  | .replace _ => False

/-- The default roles of an administrator are chosen by the tenant of the other. -/
def Mistaken (tenantId : Option UInt32) : Account P A → Prop
  | .user account => account.roles = .admin ∧ tenantId.isNone ≠ account.memberTenantId.isNone ∧
    ∃ p, account.permissions.OpenTo p
  | .group _ => False

/-! ## Disabled permissions -/

variable {server : Server P} {group : PermissionsGroup P} {tenantId : Option UInt32}

theorem disabled_addRoles {base : PermissionsGroup P} {fetched : Finset UInt32}
    {roleIds : List UInt32} (h : server.addRoles base fetched roleIds = .ok group) :
    base.disabled ⊆ group.disabled := by
  fun_induction server.addRoles base fetched roleIds with
  | case1 =>
    cases h
    exact Finset.Subset.refl _
  | case2 base fetched roleId roleIds hmem ih => exact ih h
  | case3 base fetched roleId roleIds hnew ih =>
    obtain ⟨role, -, hrest⟩ := bind_eq_ok.mp h
    exact Finset.subset_union_left.trans (ih role hrest)

theorem disabled_limitToTenant {permissions : PermissionsGroup P}
    (h : server.limitToTenant permissions tenantId = .ok group) :
    permissions.disabled ⊆ group.disabled := by
  cases tenantId with
  | none =>
    cases h
    exact Finset.Subset.refl _
  | some tenantId =>
    rw [Server.limitToTenant] at h
    split at h
    · obtain ⟨tenant, -, h⟩ := bind_eq_ok.mp h
      obtain ⟨tenantPermissions, -, h⟩ := bind_eq_ok.mp h
      cases h
      exact Finset.subset_union_left
    · cases h
      exact Finset.subset_union_left

theorem openTo_of_mem {list : PermissionsList P} {roleIds : List Id}
    (h : server.effectivePermissions (.merge list) roleIds tenantId = .ok group) {p : P}
    (hp : p ∈ group.finalize) : p ∉ list.disabledPermissions := by
  intro hdisabled
  obtain ⟨permissions, hroles, hlimit⟩ := bind_eq_ok.mp h
  have hmem := disabled_addRoles hroles (mem_toFinset.mpr hdisabled)
  exact (Finset.mem_sdiff.mp hp).2 (disabled_limitToTenant hlimit hmem)

/-! ## The same roles -/

theorem roles_of_not_mistaken {account : UserAccount P A}
    (h : ¬Mistaken (A := A) tenantId (.user account)) {asked given : PermissionsGroup P}
    (hasked : server.effectivePermissions account.permissions (account.roles.roleIds server.security tenantId)
      (account.memberTenantId.map documentId) = .ok asked)
    (hgiven : server.effectivePermissions account.permissions
      (account.roles.roleIds server.security (account.memberTenantId.map documentId))
      (account.memberTenantId.map documentId) = .ok given) : given.finalize ⊆ asked.finalize := by
  have hsame (heq : account.roles.roleIds server.security tenantId =
      account.roles.roleIds server.security (account.memberTenantId.map documentId)) :
      given.finalize ⊆ asked.finalize := by
    rw [heq, hgiven] at hasked
    cases hasked
    exact Finset.Subset.refl _
  cases hroles : account.roles with
  | user | custom => exact hsame (by rw [hroles]; rfl)
  | admin =>
    by_cases hnone : tenantId.isNone = account.memberTenantId.isNone
    · exact hsame (by rw [hroles, UserRoles.roleIds, UserRoles.roleIds, Option.isNone_map, hnone])
    · intro p hp
      cases hpermissions : account.permissions with
      | inherit => exact absurd ⟨hroles, hnone, p, by rw [hpermissions]; trivial⟩ h
      | merge list =>
        rw [hpermissions] at hgiven
        exact absurd ⟨hroles, hnone, p, by rw [hpermissions]; exact openTo_of_mem hgiven hp⟩ h
      | replace list =>
        rw [hpermissions] at hasked hgiven
        cases hasked.symm.trans hgiven
        exact hp

theorem subset_of_grant {token : AccessToken P A} {requested : Finset P}
    (h : token.canGrantPermissions requested = .ok ()) : requested ⊆ token.permissionsBits := by
  rw [AccessToken.canGrantPermissions] at h
  split at h
  · exact Finset.sdiff_eq_empty_iff_subset.mp ‹_›
  · cases h

theorem noEscalation_of_not_mistaken {account : Account P A} (h : ¬Mistaken tenantId account) :
    NoEscalation tenantId account := by
  rintro server grantor rfl hset xxh3 now accountId revisionAccount token htoken scope hscope
  cases account with
  | user account =>
    obtain ⟨asked, hasked, hgrant⟩ := bind_eq_ok.mp hset
    have hsubset := subset_of_grant (Except.ok.inj hgrant)
    obtain ⟨given, hgiven, htoken⟩ := bind_eq_ok.mp htoken
    obtain ⟨accessTo, -, htoken⟩ := bind_eq_ok.mp htoken
    cases htoken
    refine Finset.Subset.trans ?_ ((roles_of_not_mistaken h hasked hgiven).trans hsubset)
    obtain ⟨hmain, hothers⟩ := Credentials.foldl_add xxh3 now account.credentials
      (c := ⟨0, .new given.finalize 4294967295, []⟩) (fun _ hnil => nomatch hnil)
    rcases mem_cons.mp hscope with rfl | hother
    · exact hmain.subset
    · exact hothers scope hother
  | group account =>
    obtain ⟨asked, hasked, hgrant⟩ := bind_eq_ok.mp hset
    have hsubset := subset_of_grant (Except.ok.inj hgrant)
    obtain ⟨given, hgiven, htoken⟩ := bind_eq_ok.mp htoken
    cases htoken
    cases hasked.symm.trans hgiven
    rw [mem_singleton.mp hscope]
    exact hsubset

/-! ## Other roles -/

/-- A server on which the roles 0 and 1 differ in a permission, and an administrator is asked about by 0. -/
def trap (p : P) (tenantId : Option UInt32) : Server P where
  role id := .ok ⟨[], if id = 0 then ⟨∅, {p}, false⟩ else ⟨{p}, ∅, false⟩⟩
  tenant _ := .ok ⟨[], some ⟨{p}, ∅, false⟩⟩
  security := ⟨[], if tenantId.isNone then [0] else [1], if tenantId.isNone then [1] else [0], []⟩
  isEnterpriseEdition := true
  aclQuery _ := .ok []
  impersonate := p
  user := ∅

theorem Server.addRolePermissions_leaf {id : UInt32} (h : server.role id = .ok ⟨[], group⟩)
    (base : PermissionsGroup P) : server.addRolePermissions base [id] = .ok (base.union group) := by
  rw [addRolePermissions, reverse_singleton, addRoles, h]
  exact addRoles.eq_1 _ _ _

/-- Of the two roles the first takes the permission away, and the other gives it. -/
def leaf (p : P) (id : Id) : PermissionsGroup P := if documentId id = 0 then ⟨∅, {p}, false⟩ else ⟨{p}, ∅, false⟩

theorem exists_ownPermissions (p : P) (tenantId : Option UInt32) {permissions : Permissions P}
    (hopen : permissions.OpenTo p) (id : Id) :
    ∃ base : PermissionsGroup P, p ∉ base.disabled ∧
      (trap p tenantId).ownPermissions permissions [id] = .ok (base.union (leaf p id)) := by
  cases permissions with
  | inherit => exact ⟨.default, Finset.notMem_empty _, Server.addRolePermissions_leaf rfl _⟩
  | merge list =>
    exact ⟨.fromList list, fun hmem => hopen (mem_toFinset.mp hmem), Server.addRolePermissions_leaf rfl _⟩
  | replace list => exact hopen.elim

theorem trap_limitToTenant (p : P) (tenantId : Option UInt32) (group : PermissionsGroup P)
    (memberTenantId : Option UInt32) :
    ∃ limited, (trap p tenantId).limitToTenant group memberTenantId = .ok limited ∧
      (p ∈ limited.finalize ↔ p ∈ group.finalize) := by
  cases memberTenantId with
  | none => exact ⟨group, rfl, Iff.rfl⟩
  | some memberTenantId =>
    have hlimit : (trap p tenantId).tenantPermissions ⟨[], some ⟨{p}, ∅, false⟩⟩ = .ok ⟨{p}, ∅, false⟩ :=
      Server.addRoles.eq_1 _ _ _
    refine ⟨group.restrict ⟨{p}, ∅, false⟩, ?_, by simp [PermissionsGroup.finalize, PermissionsGroup.restrict]⟩
    exact bind_eq_ok.mpr ⟨_, rfl, bind_eq_ok.mpr ⟨_, hlimit, rfl⟩⟩

theorem trap_effective (p : P) (tenantId : Option UInt32) {permissions : Permissions P} (hopen : permissions.OpenTo p)
    (id : Id) (memberTenantId : Option UInt32) :
    ∃ group, (trap p tenantId).effectivePermissions permissions [id] memberTenantId = .ok group ∧
      (p ∈ group.finalize ↔ documentId id ≠ 0) := by
  obtain ⟨base, hbase, hown⟩ := exists_ownPermissions p tenantId hopen id
  obtain ⟨limited, hlimited, hmem⟩ := trap_limitToTenant p tenantId (base.union (leaf p id)) memberTenantId
  refine ⟨limited, bind_eq_ok.mpr ⟨_, hown, hlimited⟩, hmem.trans ?_⟩
  by_cases hid : documentId id = 0
  · simp [PermissionsGroup.finalize, PermissionsGroup.union, leaf, hid]
  · simp [PermissionsGroup.finalize, PermissionsGroup.union, leaf, hid, hbase]

/-- One who has all that the account is asked about may set it, and it gets the other permission. -/
theorem not_noEscalation_of_mistaken {account : Account P A} (h : Mistaken tenantId account) :
    ¬NoEscalation tenantId account := by
  cases account with
  | group account => exact h.elim
  | user account =>
    obtain ⟨hroles, hnone, p, hopen⟩ := h
    have hroleIds (tenant : Option UInt32) : account.roles.roleIds (trap p tenantId).security tenant =
        if tenant.isNone = tenantId.isNone then [0] else [1] := by
      rw [hroles]
      cases tenant <;> cases tenantId <;> rfl
    obtain ⟨asked, hasked, hnot⟩ := trap_effective p tenantId hopen 0 (account.memberTenantId.map documentId)
    obtain ⟨given, hgiven, hmem⟩ := trap_effective p tenantId hopen 1 (account.memberTenantId.map documentId)
    have hset : (trap p tenantId).canSetPermissions (A := A)
        ⟨0, 0, tenantId, [], [], [.new asked.finalize 0], cons_ne_nil _ _, 0, 0⟩ (.user account) =
          .ok (.ok ()) := by
      have hsame : account.roles.roleIds (trap p tenantId).security tenantId = [0] := by
        simp [hroleIds]
      rw [← hsame] at hasked
      exact bind_eq_ok.mpr ⟨asked, hasked, congrArg Except.ok (if_pos (Finset.sdiff_self _))⟩
    intro hno
    have hsubset := hno (trap p tenantId) _ rfl hset (fun _ => 0) 0 0 0 _ (bind_eq_ok.mpr ⟨given, by
        rw [hroleIds, if_neg (by rw [Option.isNone_map]; exact hnone.symm)]
        exact hgiven, bind_eq_ok.mpr ⟨[], Server.accessTo_nil (fun _ => rfl) _ _ _, rfl⟩⟩) _ mem_cons_self
    refine absurd (hnot.mp ?_) (by decide)
    obtain ⟨hmain, -⟩ := Credentials.foldl_add (fun _ => 0) 0 account.credentials
      (c := ⟨0, .new given.finalize 4294967295, []⟩) (fun _ hnil => nomatch hnil)
    rw [hmain] at hsubset
    exact hsubset (hmem.mpr (by decide))

theorem noEscalation_iff (tenantId : Option UInt32) (account : Account P A) :
    NoEscalation tenantId account ↔ ¬Mistaken tenantId account :=
  ⟨fun h hmistaken => not_noEscalation_of_mistaken hmistaken h, noEscalation_of_not_mistaken⟩

/-- An administrator of no tenant sets one of a tenant. -/
theorem not_noEscalation_tenantAdmin :
    ¬NoEscalation (P := ℕ) (A := ℕ) none (.user ⟨[], [], some 1, .admin, .inherit⟩) :=
  not_noEscalation_of_mistaken ⟨rfl, by decide, 0, trivial⟩

end Bearmail.Auth
