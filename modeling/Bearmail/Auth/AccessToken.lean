import Bearmail.Lib.Fallible
import Mathlib.Data.Finset.Card
import Mathlib.Algebra.Group.Nat.Defs

/-!
# Access tokens

`common/src/auth/permissions.rs` and `common/src/auth/access_token.rs`, with the enterprise feature: what an
account may do by its roles and its tenant, and the token that says so.

A bit set of permissions is a finite set, and the list that names those of an error is that set. Of a token the
limits on concurrency, the size and the random revision are left out.
-/

namespace Bearmail.Auth

abbrev Id := UInt64

def documentId (id : Id) : UInt32 := id.toUInt32

/-! ## Accounts -/

section Accounts

variable (P A : Type)

structure PermissionsList where
  enabledPermissions : List P
  disabledPermissions : List P

inductive Permissions where
  | inherit
  | merge (permissions : PermissionsList P)
  | replace (permissions : PermissionsList P)

inductive UserRoles where
  | user
  | admin
  | custom (roleIds : List Id)

inductive Roles where
  | default
  | custom (roleIds : List Id)

inductive CredentialPermissions where
  | inherit
  | disable (permissions : List P)
  | replace (permissions : List P)

structure PasswordCredential where
  secret : String
  expiresAt : Option Int64
  allowedIps : List A

structure SecondaryCredential where
  credentialId : Id
  expiresAt : Option Int64
  permissions : CredentialPermissions P
  allowedIps : List A

inductive Credential where
  | password (credential : PasswordCredential A)
  | appPassword (credential : SecondaryCredential P A)
  | apiKey (credential : SecondaryCredential P A)

structure UserAccount where
  credentials : List (Credential P A)
  memberGroupIds : List Id
  memberTenantId : Option Id
  roles : UserRoles
  permissions : Permissions P

structure GroupAccount where
  memberTenantId : Option Id
  roles : Roles
  permissions : Permissions P

inductive Account where
  | user (account : UserAccount P A)
  | group (account : GroupAccount P)

end Accounts

variable {P A : Type} [DecidableEq P]

/-! ## Permissions -/

structure PermissionsGroup (P : Type) where
  enabled : Finset P
  disabled : Finset P
  merge : Bool

namespace PermissionsGroup

def default : PermissionsGroup P := ⟨∅, ∅, false⟩

def fromList (list : PermissionsList P) : PermissionsGroup P :=
  ⟨list.enabledPermissions.toFinset, list.disabledPermissions.toFinset, false⟩

def union (group other : PermissionsGroup P) : PermissionsGroup P :=
  { group with enabled := group.enabled ∪ other.enabled, disabled := group.disabled ∪ other.disabled }

def restrict (group other : PermissionsGroup P) : PermissionsGroup P :=
  { group with enabled := group.enabled ∩ other.enabled, disabled := group.disabled ∪ other.disabled }

def finalize (group : PermissionsGroup P) : Finset P := group.enabled \ group.disabled

end PermissionsGroup

structure RoleCache (P : Type) where
  idRoles : List UInt32
  permissions : PermissionsGroup P

structure TenantCache (P : Type) where
  idRoles : List UInt32
  permissions : Option (PermissionsGroup P)

structure Security where
  defaultRoleIdsUser : List Id
  defaultRoleIdsAdmin : List Id
  defaultRoleIdsTenant : List Id
  defaultRoleIdsGroup : List Id

inductive Collection where
  | email | mailbox | thread | identity | emailSubmission | sieveScript | pushSubscription | principal
  | calendar | calendarEvent | addressBook | contactCard | fileNode | calendarEventNotification | none
  deriving DecidableEq

def Collection.childCollection : Collection → Option Collection
  | .mailbox => some .email
  | .calendar => some .calendarEvent
  | .addressBook => some .contactCard
  | .fileNode => some .fileNode
  | .calendarEventNotification => some .calendarEventNotification
  | _ => Option.none

structure AclItem where
  toAccountId : UInt32
  toCollection : Collection
  toDocumentId : UInt32
  permissions : UInt64

inductive Error where
  | store
  | notFound (id : UInt32)
  | corruptedCollection (item : AclItem) (accountId : UInt32)

/-- What is read of the server, and of the list of all permissions. -/
structure Server (P : Type) where
  role : UInt32 → Except Error (RoleCache P)
  tenant : UInt32 → Except Error (TenantCache P)
  security : Security
  isEnterpriseEdition : Bool
  aclQuery : UInt32 → Except Error (List AclItem)
  impersonate : P
  /-- `PermissionsGroup::user` -/
  user : Finset P

theorem card_le (ids : Finset UInt32) : ids.card ≤ 2 ^ 32 := by
  have hle := Finset.card_le_card_of_injOn UInt32.toNat
    (fun id _ => Finset.mem_coe.mpr (Finset.mem_range.mpr id.toNat_lt))
    (fun id _ id' _ heq => UInt32.toNat_inj.mp heq : Set.InjOn UInt32.toNat (ids : Set UInt32))
  rwa [Finset.card_range] at hle

def Server.addRoles (server : Server P) (base : PermissionsGroup P) (fetched : Finset UInt32) :
    List UInt32 → Except Error (PermissionsGroup P)
  | [] => .ok base
  | roleId :: roleIds =>
    if roleId ∈ fetched then server.addRoles base fetched roleIds
    else do
      let role ← server.role roleId
      server.addRoles (base.union role.permissions) (insert roleId fetched) (role.idRoles.reverse ++ roleIds)
termination_by roleIds => (2 ^ 32 - fetched.card, roleIds.length)
decreasing_by
  · exact Prod.Lex.right _ (Nat.lt_succ_self _)
  · rename_i hnew
    have hle := card_le (insert roleId fetched)
    rw [Finset.card_insert_of_notMem hnew] at hle ⊢
    exact Prod.Lex.left _ _ (by omega)

def Server.addRolePermissions (server : Server P) (base : PermissionsGroup P) (roles : List UInt32) :
    Except Error (PermissionsGroup P) :=
  server.addRoles base ∅ roles.reverse

def Server.tenantPermissions (server : Server P) (tenant : TenantCache P) : Except Error (PermissionsGroup P) :=
  match tenant.permissions with
  | some permissions => server.addRolePermissions permissions (if permissions.merge then tenant.idRoles else [])
  | none => server.addRolePermissions .default tenant.idRoles

def Server.limitToTenant (server : Server P) (permissions : PermissionsGroup P) :
    Option UInt32 → Except Error (PermissionsGroup P)
  | none => .ok permissions
  | some tenantId =>
    if server.isEnterpriseEdition then do
      let tenant ← server.tenant tenantId
      let tenantPermissions ← server.tenantPermissions tenant
      .ok (permissions.restrict tenantPermissions)
    else .ok (permissions.restrict ⟨server.user, ∅, false⟩)

def Server.ownPermissions (server : Server P) (permissions : Permissions P) (roleIds : List Id) :
    Except Error (PermissionsGroup P) :=
  match permissions with
  | .inherit => server.addRolePermissions .default (roleIds.map documentId)
  | .merge list => server.addRolePermissions (.fromList list) (roleIds.map documentId)
  | .replace list => .ok (.fromList list)

def Server.effectivePermissions (server : Server P) (permissions : Permissions P) (roleIds : List Id)
    (tenantId : Option UInt32) : Except Error (PermissionsGroup P) := do
  let permissions ← server.ownPermissions permissions roleIds
  server.limitToTenant permissions tenantId

/-! ## Tokens -/

structure AccessScope (P A : Type) where
  permissions : Finset P
  credentialId : UInt32
  expiresAt : UInt64
  allowedIps : List A

structure AccessTo where
  accountId : UInt32
  collections : Finset Collection

structure AccessTokenInner (P A : Type) where
  accountId : UInt32
  tenantId : Option UInt32
  memberOf : List UInt32
  accessTo : List AccessTo
  scopes : List (AccessScope P A)
  nonempty : scopes ≠ []
  revisionAccount : UInt64
  credentialVersion : UInt64

structure AccessToken (P A : Type) where
  scopeIdx : ℕ
  inner : AccessTokenInner P A

def AccessToken.permissionsBits (token : AccessToken P A) : Finset P :=
  (token.inner.scopes[token.scopeIdx]?.getD (token.inner.scopes.head token.inner.nonempty)).permissions

def AccessToken.canGrantPermissions (token : AccessToken P A) (requested : Finset P) : Except (Finset P) Unit :=
  if requested \ token.permissionsBits = ∅ then .ok () else .error (requested \ token.permissionsBits)

def UserRoles.roleIds (security : Security) (tenantId : Option UInt32) : UserRoles → List Id
  | .user => security.defaultRoleIdsUser
  | .admin => if tenantId.isNone then security.defaultRoleIdsAdmin else security.defaultRoleIdsTenant
  | .custom roleIds => roleIds

def Roles.roleIds (security : Security) : Roles → List Id
  | .default => security.defaultRoleIdsGroup
  | .custom roleIds => roleIds

/-- An administrator is taken to be with the tenant of the token. -/
def Server.canSetPermissions (server : Server P) (token : AccessToken P A) (account : Account P A) :
    Except Error (Except (Finset P) Unit) := do
  let permissions ← (match account with
    | .user account => server.effectivePermissions account.permissions
        (account.roles.roleIds server.security token.inner.tenantId) (account.memberTenantId.map documentId)
    | .group account => server.effectivePermissions account.permissions
        (account.roles.roleIds server.security) (account.memberTenantId.map documentId))
  .ok (token.canGrantPermissions permissions.finalize)

def addAccess (accountId : UInt32) (memberOf : List UInt32) (canImpersonate : Bool) (grantAccountId : UInt32)
    (accessTo : List AccessTo) (item : AclItem) : Except Error (List AccessTo) :=
  if item.toAccountId ≠ accountId ∧ item.toAccountId ∉ memberOf ∧ canImpersonate = false then
    if item.toCollection = .none then .error (.corruptedCollection item grantAccountId)
    else
      let collections : Finset Collection :=
        (if item.permissions.toNat.testBit 0 then {item.toCollection} else ∅) ∪
          if item.permissions.toNat.testBit 3 then (item.toCollection.childCollection.map ({·})).getD ∅ else ∅
      if collections = ∅ then .ok accessTo
      else match accessTo.findIdx? fun access => decide (access.accountId = item.toAccountId) with
        | some idx => .ok (accessTo.modify idx fun access =>
          { access with collections := access.collections ∪ collections })
        | none => .ok (accessTo ++ [⟨item.toAccountId, collections⟩])
  else .ok accessTo

def Server.accessTo (server : Server P) (accountId : UInt32) (memberOf : List UInt32) (canImpersonate : Bool) :
    Except Error (List AccessTo) :=
  (accountId :: memberOf).foldlM (fun accessTo grantAccountId => do
    let items ← server.aclQuery grantAccountId
    items.foldlM (addAccess accountId memberOf canImpersonate grantAccountId) accessTo) []

def expiry (expiresAt : Option Int64) : UInt64 := (expiresAt.map Int64.toUInt64).getD 18446744073709551615

/-- The version of the password, the scope of the account and those of its other credentials. -/
structure Credentials (P A : Type) where
  version : UInt64
  main : AccessScope P A
  others : List (AccessScope P A)

def CredentialPermissions.of (permissions : Finset P) : CredentialPermissions P → Finset P
  | .inherit => permissions
  | .disable list => permissions \ list.toFinset
  | .replace list => list.toFinset ∩ permissions

def Credentials.addSecondary (now : UInt64) (c : Credentials P A) (credential : SecondaryCredential P A) :
    Credentials P A :=
  if now < expiry credential.expiresAt then
    { c with others := c.others ++ [⟨credential.permissions.of c.main.permissions,
      documentId credential.credentialId, expiry credential.expiresAt, credential.allowedIps⟩] }
  else c

def Credentials.add (xxh3 : String → UInt64) (now : UInt64) (c : Credentials P A) :
    Credential P A → Credentials P A
  | .password credential =>
    { c with
      version := max (xxh3 credential.secret) 1
      main := if credential.expiresAt.isSome ∨ credential.allowedIps ≠ [] then
          { c.main with expiresAt := expiry credential.expiresAt, allowedIps := credential.allowedIps }
        else c.main }
  | .appPassword credential | .apiKey credential => c.addSecondary now credential

def AccessScope.new (permissions : Finset P) (credentialId : UInt32) : AccessScope P A :=
  ⟨permissions, credentialId, 18446744073709551615, []⟩

def Server.buildAccessToken (server : Server P) (xxh3 : String → UInt64) (now : UInt64) (account : Account P A)
    (accountId : UInt32) (revisionAccount : UInt64) : Except Error (AccessTokenInner P A) :=
  match account with
  | .user account => do
    let tenantId := account.memberTenantId.map documentId
    let permissions ← server.effectivePermissions account.permissions
      (account.roles.roleIds server.security tenantId) tenantId
    let canImpersonate := decide (server.impersonate ∈ permissions.finalize)
    let memberOf := account.memberGroupIds.map documentId
    let accessTo ← server.accessTo accountId memberOf canImpersonate
    let credentials := account.credentials.foldl (Credentials.add xxh3 now)
      ⟨0, .new permissions.finalize 4294967295, []⟩
    .ok ⟨accountId, tenantId, memberOf, accessTo, credentials.main :: credentials.others, List.cons_ne_nil _ _,
      revisionAccount, credentials.version⟩
  | .group account => do
    let tenantId := account.memberTenantId.map documentId
    let permissions ← server.effectivePermissions account.permissions
      (account.roles.roleIds server.security) tenantId
    .ok ⟨accountId, tenantId, [], [], [.new permissions.finalize 4294967295], List.cons_ne_nil _ _,
      revisionAccount, 0⟩

/-! ## What a token has -/

omit [DecidableEq P] in
theorem Server.accessTo_nil {server : Server P} (h : ∀ id, server.aclQuery id = .ok []) (accountId : UInt32)
    (memberOf : List UInt32) (canImpersonate : Bool) :
    server.accessTo accountId memberOf canImpersonate = .ok [] := by
  rw [accessTo]
  induction accountId :: memberOf with
  | nil => rfl
  | cons id ids ih =>
    rw [List.foldlM_cons, h]
    exact ih

theorem CredentialPermissions.of_subset (permissions : Finset P) (own : CredentialPermissions P) :
    own.of permissions ⊆ permissions := by
  cases own with
  | inherit => exact Finset.Subset.refl _
  | disable list => exact Finset.sdiff_subset
  | replace list => exact Finset.inter_subset_right

theorem Credentials.foldl_add (xxh3 : String → UInt64) (now : UInt64) (credentials : List (Credential P A))
    {c : Credentials P A} (h : ∀ scope ∈ c.others, scope.permissions ⊆ c.main.permissions) :
    (credentials.foldl (Credentials.add xxh3 now) c).main.permissions = c.main.permissions ∧
      ∀ scope ∈ (credentials.foldl (Credentials.add xxh3 now) c).others, scope.permissions ⊆ c.main.permissions := by
  induction credentials generalizing c with
  | nil => exact ⟨rfl, h⟩
  | cons credential credentials ih =>
    have hmain : (c.add xxh3 now credential).main.permissions = c.main.permissions := by
      cases credential with
      | password credential =>
        rw [add]
        split <;> rfl
      | appPassword credential | apiKey credential =>
        rw [add, addSecondary]
        split <;> rfl
    have hothers : ∀ scope ∈ (c.add xxh3 now credential).others, scope.permissions ⊆ c.main.permissions := by
      intro scope hscope
      cases credential with
      | password credential => exact h scope hscope
      | appPassword credential | apiKey credential =>
        rw [add, addSecondary] at hscope
        split at hscope
        · rcases List.mem_append.mp hscope with hold | hnew
          · exact h scope hold
          · rw [List.mem_singleton.mp hnew]
            exact CredentialPermissions.of_subset _ _
        · exact h scope hscope
    obtain ⟨hkept, hall⟩ := ih (hmain ▸ hothers)
    rw [hmain] at hkept hall
    exact ⟨hkept, hall⟩

end Bearmail.Auth
