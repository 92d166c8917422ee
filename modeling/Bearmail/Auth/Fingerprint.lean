import Bearmail.Auth.AccessToken

/-!
# The fingerprint of an account

`hash_account` of `common/src/auth/access_token.rs`, as the values that the hasher is fed, and when a token of one
version of an account is as good as one of another with the same fingerprint (`fresh_iff`). The fingerprint has
neither the passwords nor the addresses that a credential may be used from.
-/

namespace Bearmail.Auth

open Fallible
open List

inductive Value (P : Type) where
  | u8 (n : UInt8)
  | permission (p : P)
  | u64 (n : UInt64)
  | i64 (n : Int64)
  | usize (n : ℕ)
  | isize (n : ℕ)

variable {P A α : Type}

/-! ## What is hashed -/

def hashOption (f : α → Value P) : Option α → List (Value P)
  | none => [.isize 0]
  | some a => [.isize 1, f a]

def hashSlice (f : α → Value P) (list : List α) : List (Value P) := .usize list.length :: list.map f

def hashUserRoles : UserRoles → List (Value P)
  | .user => [.u8 0]
  | .admin => [.u8 1]
  | .custom roleIds => .u8 2 :: hashSlice .u64 roleIds

def hashRoles : Roles → List (Value P)
  | .default => []
  | .custom roleIds => hashSlice .u64 roleIds

def hashPermissions : Permissions P → List (Value P)
  | .inherit => [.u8 0]
  | .merge list =>
    .u8 2 :: (hashSlice .permission list.enabledPermissions ++ hashSlice .permission list.disabledPermissions)
  | .replace list =>
    .u8 3 :: (hashSlice .permission list.enabledPermissions ++ hashSlice .permission list.disabledPermissions)

def hashCredentialPermissions : CredentialPermissions P → List (Value P)
  | .inherit => [.u8 0]
  | .disable permissions => .u8 2 :: hashSlice .permission permissions
  | .replace permissions => .u8 3 :: hashSlice .permission permissions

def Credential.asSecondaryCredential : Credential P A → Option (SecondaryCredential P A)
  | .password _ => none
  | .appPassword credential | .apiKey credential => some credential

def Credential.asMainCredential : Credential P A → Option (PasswordCredential A)
  | .password credential => some credential
  | .appPassword _ | .apiKey _ => none

def passwords (credentials : List (Credential P A)) : List (PasswordCredential A) :=
  credentials.filterMap Credential.asMainCredential

def secondaries (credentials : List (Credential P A)) : List (SecondaryCredential P A) :=
  credentials.filterMap Credential.asSecondaryCredential

def hashSecondary (credential : SecondaryCredential P A) : List (Value P) :=
  .u64 credential.credentialId ::
    (hashOption .i64 credential.expiresAt ++ hashCredentialPermissions credential.permissions)

def hashAccount : Account P A → List (Value P)
  | .user account =>
    hashOption .u64 account.memberTenantId ++ (hashUserRoles account.roles ++ (hashPermissions account.permissions ++
      ((secondaries account.credentials).flatMap hashSecondary ++ account.memberGroupIds.map .u64)))
  | .group account =>
    hashOption .u64 account.memberTenantId ++ (hashRoles account.roles ++ hashPermissions account.permissions)

def Server.accessTokenFromAccount [DecidableEq P] (server : Server P) (xxh3 : String → UInt64) (now : UInt64)
    (hash : List (Value P) → UInt64) (cached : Option (AccessTokenInner P A)) (account : Account P A)
    (accountId : UInt32) : Except Error (AccessTokenInner P A) :=
  match cached with
  | some token =>
    if token.revisionAccount = hash (hashAccount account) then .ok token
    else server.buildAccessToken xxh3 now account accountId (hash (hashAccount account))
  | none => server.buildAccessToken xxh3 now account accountId (hash (hashAccount account))

/-- Where a token of the account is kept, the current version gets the token that is built for it. -/
def Fresh [DecidableEq P] (xxh3 : String → UInt64) (account current : Account P A) : Prop :=
  ∀ (server : Server P) (hash : List (Value P) → UInt64) now accountId token,
    (hash (hashAccount account) = hash (hashAccount current) → hashAccount account = hashAccount current) →
    server.buildAccessToken xxh3 now account accountId (hash (hashAccount account)) = .ok token →
    server.accessTokenFromAccount xxh3 now hash (some token) current accountId =
      server.buildAccessToken xxh3 now current accountId (hash (hashAccount current))

/-! ## What is not hashed -/

def version (xxh3 : String → UInt64) (passwords : List (PasswordCredential A)) : UInt64 :=
  (passwords.getLast?.map fun credential => max (xxh3 credential.secret) 1).getD 0

/-- The last expiry and addresses of a password that has some. -/
def limits (passwords : List (PasswordCredential A)) : UInt64 × List A :=
  ((passwords.filter fun credential => credential.expiresAt.isSome || !credential.allowedIps.isEmpty).getLast?.map
    fun credential => (expiry credential.expiresAt, credential.allowedIps)).getD (18446744073709551615, [])

/-- The passwords and addresses of two lists of credentials give the same; one that expires at 0 gives nothing. -/
structure SameSecrets (xxh3 : String → UInt64) (credentials credentials' : List (Credential P A)) : Prop where
  version : version xxh3 (passwords credentials) = version xxh3 (passwords credentials')
  limits : limits (passwords credentials) = limits (passwords credentials')
  allowedIps : List.Forall₂ (fun credential credential' => expiry credential.expiresAt ≠ 0 →
    credential.allowedIps = credential'.allowedIps) (secondaries credentials) (secondaries credentials')

def Same (xxh3 : String → UInt64) : Account P A → Account P A → Prop
  | .user account, .user current => SameSecrets xxh3 account.credentials current.credentials
  | _, _ => True

/-! ## What is read back -/

def Delimits (f : α → List (Value P)) : Prop := ∀ ⦃a a' r r'⦄, f a ++ r = f a' ++ r' → a = a' ∧ r = r'

theorem delimits_option {f : α → Value P} (hf : Function.Injective f) : Delimits (hashOption f) := by
  rintro (_ | a) (_ | a') r r' h
  · cases h
    exact ⟨rfl, rfl⟩
  · cases h
  · cases h
  · obtain ⟨ha, hr⟩ := List.cons.inj (List.cons.inj h).2
    exact ⟨congrArg some (hf ha), hr⟩

theorem delimits_slice {f : α → Value P} (hf : Function.Injective f) : Delimits (hashSlice f) := by
  intro list list' r r' h
  obtain ⟨hlength, hrest⟩ := List.cons.inj h
  obtain ⟨hmap, hr⟩ := append_inj hrest (by simpa using hlength)
  exact ⟨map_injective_iff.mpr hf hmap, hr⟩

theorem permission_injective : Function.Injective (Value.permission (P := P)) := fun _ _ h => by cases h; rfl

theorem u64_injective : Function.Injective (Value.u64 (P := P)) := fun _ _ h => by cases h; rfl

theorem i64_injective : Function.Injective (Value.i64 (P := P)) := fun _ _ h => by cases h; rfl

theorem delimits_userRoles : Delimits (hashUserRoles (P := P)) := by
  rintro (_ | _ | roleIds) (_ | _ | roleIds') r r' h <;> try cases h <;> exact ⟨rfl, rfl⟩
  obtain ⟨rfl, hr⟩ := delimits_slice u64_injective (List.cons.inj h).2
  exact ⟨rfl, hr⟩

theorem delimits_permissions : Delimits (hashPermissions (P := P)) := by
  have hlist : Delimits fun list : PermissionsList P =>
      hashSlice .permission list.enabledPermissions ++ hashSlice .permission list.disabledPermissions := by
    rintro ⟨enabled, disabled⟩ ⟨enabled', disabled'⟩ r r' h
    rw [append_assoc, append_assoc] at h
    obtain ⟨rfl, hrest⟩ := delimits_slice permission_injective h
    obtain ⟨rfl, hr⟩ := delimits_slice permission_injective hrest
    exact ⟨rfl, hr⟩
  rintro (_ | list | list) (_ | list' | list') r r' h <;> try cases h <;> exact ⟨rfl, rfl⟩
  all_goals
    obtain ⟨rfl, hr⟩ := hlist (List.cons.inj h).2
    exact ⟨rfl, hr⟩

theorem delimits_credentialPermissions : Delimits (hashCredentialPermissions (P := P)) := by
  rintro (_ | list | list) (_ | list' | list') r r' h <;> try cases h <;> exact ⟨rfl, rfl⟩
  all_goals
    obtain ⟨rfl, hr⟩ := delimits_slice permission_injective (List.cons.inj h).2
    exact ⟨rfl, hr⟩

structure Alike (credential credential' : SecondaryCredential P A) : Prop where
  credentialId : credential.credentialId = credential'.credentialId
  expiresAt : credential.expiresAt = credential'.expiresAt
  permissions : credential.permissions = credential'.permissions

variable {r : List (Value P)} {account current : Account P A} {xxh3 : String → UInt64}

theorem alike_of_hash {credential credential' : SecondaryCredential P A} {r' : List (Value P)}
    (h : hashSecondary credential ++ r = hashSecondary credential' ++ r') : Alike credential credential' ∧ r = r' := by
  rw [hashSecondary, hashSecondary, cons_append, cons_append, append_assoc, append_assoc] at h
  obtain ⟨hid, hrest⟩ := List.cons.inj h
  obtain ⟨hexpires, hrest⟩ := delimits_option i64_injective hrest
  obtain ⟨hpermissions, hr⟩ := delimits_credentialPermissions hrest
  exact ⟨⟨u64_injective hid, hexpires, hpermissions⟩, hr⟩

/-- A group is followed by a group and a credential is not, so that it is seen where the groups begin. -/
theorem groups_ne_secondary {credential : SecondaryCredential P A} {groups : List Id} :
    groups.map Value.u64 ≠ hashSecondary credential ++ r := by
  intro h
  rcases groups with _ | ⟨_, _ | _⟩ <;> cases hexpires : credential.expiresAt <;>
    simp [hashSecondary, hashOption, hexpires] at h

theorem alike_of_hash_all {credentials credentials' : List (SecondaryCredential P A)} {groups groups' : List Id}
    (h : credentials.flatMap hashSecondary ++ groups.map Value.u64 =
      credentials'.flatMap hashSecondary ++ groups'.map Value.u64) :
    List.Forall₂ Alike credentials credentials' ∧ groups = groups' := by
  induction credentials generalizing credentials' with
  | nil =>
    cases credentials' with
    | nil => exact ⟨.nil, map_injective_iff.mpr u64_injective h⟩
    | cons credential' credentials' =>
      rw [flatMap_cons, append_assoc] at h
      exact absurd h groups_ne_secondary
  | cons credential credentials ih =>
    rw [flatMap_cons, append_assoc] at h
    cases credentials' with
    | nil => exact absurd h.symm groups_ne_secondary
    | cons credential' credentials' =>
      rw [flatMap_cons, append_assoc] at h
      obtain ⟨halike, hrest⟩ := alike_of_hash h
      exact (ih hrest).imp_left (.cons halike)

theorem userRoles_ne_roles {roles : UserRoles} {roles' : Roles}
    {permissions permissions' : Permissions P} :
    hashUserRoles roles ++ (hashPermissions permissions ++ r) ≠ hashRoles roles' ++ hashPermissions permissions' := by
  intro h
  obtain ⟨n, rest, hfirst⟩ : ∃ n rest, hashPermissions permissions ++ r = .u8 n :: rest := by
    cases permissions <;> exact ⟨_, _, rfl⟩
  rw [hfirst] at h
  cases roles' with
  | custom ids => cases roles <;> cases h
  | default =>
    rcases roles with _ | _ | ids <;> rcases permissions' with _ | list | list <;> try cases h
    · rcases list with ⟨enabled, disabled⟩
      have h := (List.cons.inj (List.cons.inj h).2).2
      rcases ids with _ | ⟨id, ids⟩ <;> rcases enabled with _ | ⟨p, enabled⟩ <;> cases h

theorem roles_of_hash {roles roles' : Roles} {permissions permissions' : Permissions P}
    (h : hashRoles roles ++ hashPermissions permissions = hashRoles roles' ++ hashPermissions permissions') :
    roles = roles' ∧ permissions = permissions' := by
  have hpermissions {permissions permissions' : Permissions P}
      (h : hashPermissions permissions = hashPermissions permissions') : permissions = permissions' :=
    (delimits_permissions (r := []) (by rw [h])).1
  rcases roles with _ | ids <;> rcases roles' with _ | ids'
  · exact ⟨rfl, hpermissions h⟩
  · cases permissions <;> cases h
  · cases permissions' <;> cases h
  · obtain ⟨rfl, hrest⟩ := delimits_slice u64_injective h
    exact ⟨rfl, hpermissions hrest⟩

theorem eq_of_hashAccount (h : hashAccount account = hashAccount current) :
    (∃ a c : UserAccount P A, account = .user a ∧ current = .user c ∧
      List.Forall₂ Alike (secondaries a.credentials) (secondaries c.credentials) ∧
      a = { c with credentials := a.credentials }) ∨ ∃ a : GroupAccount P, account = .group a ∧ current = .group a := by
  cases account with
  | user account =>
    obtain ⟨credentials, groups, tenant, roles, permissions⟩ := account
    cases current with
    | user current =>
      obtain ⟨rfl, h⟩ := delimits_option u64_injective h
      obtain ⟨rfl, h⟩ := delimits_userRoles h
      obtain ⟨rfl, h⟩ := delimits_permissions h
      obtain ⟨halike, rfl⟩ := alike_of_hash_all h
      exact .inl ⟨_, _, rfl, rfl, halike, rfl⟩
    | group current => exact absurd (delimits_option u64_injective h).2 userRoles_ne_roles
  | group account =>
    obtain ⟨tenant, roles, permissions⟩ := account
    cases current with
    | user current => exact absurd (delimits_option u64_injective h).2.symm userRoles_ne_roles
    | group current =>
      obtain ⟨rfl, h⟩ := delimits_option u64_injective h
      obtain ⟨rfl, rfl⟩ := roles_of_hash h
      exact .inr ⟨_, rfl, rfl⟩

/-! ## The token -/

theorem passwords_concat (credentials : List (Credential P A)) (credential : Credential P A) :
    passwords (credentials ++ [credential]) = passwords credentials ++ credential.asMainCredential.toList := by
  rw [passwords, filterMap_append]
  cases credential <;> rfl

theorem secondaries_concat (credentials : List (Credential P A)) (credential : Credential P A) :
    secondaries (credentials ++ [credential]) = secondaries credentials ++ credential.asSecondaryCredential.toList := by
  rw [secondaries, filterMap_append]
  cases credential <;> rfl

variable [DecidableEq P]

def liveScopes (permissions : Finset P) (now : UInt64) (credentials : List (SecondaryCredential P A)) :
    List (AccessScope P A) :=
  (credentials.filter fun credential => decide (now < expiry credential.expiresAt)).map fun credential =>
    ⟨credential.permissions.of permissions, documentId credential.credentialId, expiry credential.expiresAt,
      credential.allowedIps⟩

theorem foldl_add (xxh3 : String → UInt64) (now : UInt64) (permissions : Finset P)
    (credentials : List (Credential P A)) :
    credentials.foldl (Credentials.add xxh3 now) ⟨0, .new permissions 4294967295, []⟩ =
      ⟨version xxh3 (passwords credentials),
        ⟨permissions, 4294967295, (limits (passwords credentials)).1, (limits (passwords credentials)).2⟩,
        liveScopes permissions now (secondaries credentials)⟩ := by
  induction credentials using List.reverseRecOn with
  | nil => rfl
  | append_singleton credentials credential ih =>
    rw [foldl_append, ih]
    rw [passwords_concat, secondaries_concat]
    cases credential with
    | password credential =>
      by_cases hlimited : credential.expiresAt.isSome ∨ credential.allowedIps ≠ []
      · have hfilter : (credential.expiresAt.isSome || !credential.allowedIps.isEmpty) = true := by
          simpa using hlimited
        simp [Credentials.add, Credential.asMainCredential, Credential.asSecondaryCredential, version, limits,
          hlimited, hfilter]
      · have hfilter : (credential.expiresAt.isSome || !credential.allowedIps.isEmpty) = false := by
          simpa using hlimited
        simp [Credentials.add, Credential.asMainCredential, Credential.asSecondaryCredential, version, limits,
          hlimited, hfilter]
    | appPassword credential | apiKey credential =>
      by_cases hlive : now < expiry credential.expiresAt
      all_goals
        simp [Credentials.add, Credentials.addSecondary, Credential.asMainCredential,
          Credential.asSecondaryCredential, liveScopes, hlive]

/-- Of credentials that are hashed alike those that have not expired give the same if their addresses agree. -/
theorem liveScopes_eq_iff {permissions : Finset P} {now : UInt64}
    {credentials credentials' : List (SecondaryCredential P A)} (h : List.Forall₂ Alike credentials credentials') :
    liveScopes permissions now credentials = liveScopes permissions now credentials' ↔
      List.Forall₂ (fun credential credential' => now < expiry credential.expiresAt →
        credential.allowedIps = credential'.allowedIps) credentials credentials' := by
  induction h with
  | nil => simp
  | @cons credential credential' credentials credentials' halike _ ih =>
    obtain ⟨hid, hexpires, hpermissions⟩ := halike
    rw [forall₂_cons, ← ih]
    by_cases hlive : now < expiry credential.expiresAt
    · have hlive' := hexpires ▸ hlive
      simp [liveScopes, hlive', hid, hexpires, hpermissions]
    · have hlive' := hexpires ▸ hlive
      simp [liveScopes, hlive, hlive']

/-! ## Whether it is noticed -/

def plain [Inhabited P] : Server P where
  role _ := .ok ⟨[], .default⟩
  tenant _ := .ok ⟨[], none⟩
  security := ⟨[], [], [], []⟩
  isEnterpriseEdition := false
  aclQuery _ := .ok []
  impersonate := default
  user := ∅

theorem exists_addRoles [Inhabited P] (base : PermissionsGroup P) (fetched : Finset UInt32) (roleIds : List UInt32) :
    ∃ group, (plain (P := P)).addRoles base fetched roleIds = .ok group := by
  fun_induction Server.addRoles plain base fetched roleIds with
  | case1 => exact ⟨_, rfl⟩
  | case2 base fetched roleId roleIds hmem ih => exact ih
  | case3 base fetched roleId roleIds hnew ih => exact ih ⟨[], .default⟩

theorem exists_effective [Inhabited P] (permissions : Permissions P) (roleIds : List Id) (tenantId : Option UInt32) :
    ∃ group, plain.effectivePermissions permissions roleIds tenantId = .ok group := by
  obtain ⟨own, hown⟩ : ∃ own, plain.ownPermissions permissions roleIds = .ok own := by
    cases permissions with
    | inherit | merge => exact exists_addRoles _ _ _
    | replace list => exact ⟨_, rfl⟩
  cases tenantId with
  | none | some tenantId => exact ⟨_, bind_eq_ok.mpr ⟨_, hown, rfl⟩⟩

theorem plain_build [Inhabited P] (xxh3 : String → UInt64) (account : UserAccount P A) :
    ∃ permissions, ∀ credentials : List (Credential P A),
      plain.buildAccessToken xxh3 0 (.user { account with credentials }) 0 0 = .ok ⟨0,
        account.memberTenantId.map documentId, account.memberGroupIds.map documentId, [],
        ⟨permissions, 4294967295, (limits (passwords credentials)).1, (limits (passwords credentials)).2⟩ ::
          liveScopes permissions 0 (secondaries credentials), List.cons_ne_nil _ _, 0,
        version xxh3 (passwords credentials)⟩ := by
  obtain ⟨group, hgroup⟩ := exists_effective (P := P) account.permissions
    (account.roles.roleIds (plain (P := P)).security (account.memberTenantId.map documentId))
    (account.memberTenantId.map documentId)
  refine ⟨group.finalize, fun credentials => bind_eq_ok.mpr ⟨group, hgroup, bind_eq_ok.mpr
    ⟨[], Server.accessTo_nil (fun _ => rfl) _ _ _, ?_⟩⟩⟩
  simp [foldl_add]

theorem revisionAccount_of_build {server : Server P} {now : UInt64} {accountId : UInt32}
    {revision : UInt64} {token : AccessTokenInner P A}
    (h : server.buildAccessToken xxh3 now account accountId revision = .ok token) :
    token.revisionAccount = revision := by
  cases account with
  | user account =>
    obtain ⟨_, _, h⟩ := bind_eq_ok.mp h
    obtain ⟨_, _, h⟩ := bind_eq_ok.mp h
    cases h
    rfl
  | group account =>
    obtain ⟨_, _, h⟩ := bind_eq_ok.mp h
    cases h
    rfl

theorem fresh_of_same
    (hsame : hashAccount account = hashAccount current → Same xxh3 account current) : Fresh xxh3 account current := by
  intro server hash now accountId token hno hbuild
  rw [Server.accessTokenFromAccount, revisionAccount_of_build hbuild]
  split
  · rename_i heq
    rw [← hbuild, heq]
    rcases eq_of_hashAccount (hno heq) with ⟨a, c, rfl, rfl, halike, ha⟩ | ⟨a, rfl, rfl⟩
    · obtain ⟨hversion, hlimits, hips⟩ := hsame (hno heq)
      have hscopes (permissions : Finset P) : liveScopes permissions now (secondaries a.credentials) =
          liveScopes permissions now (secondaries c.credentials) :=
        (liveScopes_eq_iff halike).mpr (hips.imp fun _ _ h hlive => h fun hzero =>
          UInt64.not_lt_zero (hzero ▸ hlive))
      simp only [Server.buildAccessToken, foldl_add]
      rw [ha]
      simp [hversion, hlimits, hscopes]
    · rfl
  · rfl

theorem same_of_fresh [Inhabited P] (h : Fresh xxh3 account current)
    (heq : hashAccount account = hashAccount current) : Same xxh3 account current := by
  rcases eq_of_hashAccount heq with ⟨a, c, rfl, rfl, halike, ha⟩ | ⟨a, rfl, rfl⟩
  · rw [ha] at h heq
    obtain ⟨permissions, hbuild⟩ := plain_build xxh3 c
    have hserved := h plain (fun _ => 0) 0 0 _ (fun _ => heq) (hbuild a.credentials)
    rw [Server.accessTokenFromAccount] at hserved
    rw [if_pos rfl, hbuild c.credentials, Except.ok.injEq, AccessTokenInner.mk.injEq] at hserved
    obtain ⟨-, -, -, -, hscopes, -, hversion⟩ := hserved
    obtain ⟨hmain, hothers⟩ := List.cons.inj hscopes
    rw [AccessScope.mk.injEq] at hmain
    exact ⟨hversion, Prod.ext hmain.2.2.1 hmain.2.2.2, ((liveScopes_eq_iff halike).mp hothers).imp
      fun _ _ h hne => h (UInt64.pos_iff_ne_zero.mpr hne)⟩
  · trivial

theorem fresh_iff [Inhabited P] (xxh3 : String → UInt64) (account current : Account P A) :
    Fresh xxh3 account current ↔ (hashAccount account = hashAccount current → Same xxh3 account current) :=
  ⟨same_of_fresh, fresh_of_same⟩

/-- Addresses are given to the password of an account. -/
theorem not_fresh_addresses :
    ¬∃ xxh3, Fresh (P := ℕ) (A := ℕ) xxh3 (.user ⟨[.password ⟨"secret", none, []⟩], [], none, .user, .inherit⟩)
      (.user ⟨[.password ⟨"secret", none, [7]⟩], [], none, .user, .inherit⟩) := by
  rintro ⟨xxh3, h⟩
  have hsame : limits [(⟨"secret", none, []⟩ : PasswordCredential ℕ)] = limits [⟨"secret", none, [7]⟩] :=
    (same_of_fresh h rfl).limits
  exact absurd hsame (by decide)

end Bearmail.Auth
