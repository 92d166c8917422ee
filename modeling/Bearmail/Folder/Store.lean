import Mathlib.Algebra.Group.Nat.Defs
import Mathlib.Data.List.AList

/-!
# The mailboxes of an account

`email/src/mailbox/mod.rs` and `email/src/mailbox/manage.rs`: the mailboxes of one account,
their parents, the access rights on them, and the folders every account starts with.

A mailbox keeps its parent as `0`, for the root, or one more than the parent's id. The id
counter of an account is the last id handed out. `uid_validity` is left out: it is a random
number that no check reads. The order in which the cache lists the mailboxes is a
parameter (`CacheOrder`).
-/

namespace Bearmail.Folder

open List

inductive SpecialUse where
  | inbox
  | trash
  | junk
  | drafts
  | archive
  | sent
  | shared
  | important
  | none
  | memos
  | scheduled
  | snoozed
  deriving DecidableEq

def SpecialUse.asStr : SpecialUse → Option String
  | .inbox => some "inbox"
  | .trash => some "trash"
  | .junk => some "junk"
  | .drafts => some "drafts"
  | .archive => some "archive"
  | .sent => some "sent"
  | .shared => some "shared"
  | .important => some "important"
  | .memos => some "memos"
  | .scheduled => some "scheduled"
  | .snoozed => some "snoozed"
  | .none => Option.none

/-! ## Access rights -/

/-- The rights that the operations on mailboxes ask for. -/
inductive Acl where
  | read
  | modify
  | delete
  | removeItems
  | createChild
  | share
  deriving DecidableEq

structure AclGrant where
  accountId : Nat
  grants : List Acl
  deriving DecidableEq

/-- Who asks: the accounts it is a member of and those it has been given access to. -/
structure AccessToken where
  accountId : Nat
  isMember : Nat → Bool
  accessTo : Nat → Bool

def AccessToken.isShared (token : AccessToken) (accountId : Nat) : Bool :=
  !token.isMember accountId && token.accessTo accountId

def effectiveAcl (acls : List AclGrant) (token : AccessToken) (acl : Acl) : Bool :=
  acls.any fun grant => token.isMember grant.accountId && decide (acl ∈ grant.grants)

/-! ## Mailboxes -/

structure Mailbox where
  name : String
  role : SpecialUse
  parentId : Nat
  sortOrder : Option Nat
  subscribers : List Nat
  acls : List AclGrant
  deriving DecidableEq

def Mailbox.new (name : String) : Mailbox :=
  ⟨name, .none, 0, Option.none, [], []⟩

def Mailbox.parent (m : Mailbox) : Option Nat :=
  if m.parentId = 0 then Option.none else some (m.parentId - 1)

def u32Max : Nat := 2 ^ 32 - 1

def Mailbox.cachedParentId (m : Mailbox) : Nat :=
  if m.parentId > 0 then m.parentId - 1 else u32Max

abbrev Mailboxes := AList fun _ : Nat => Mailbox

structure Account where
  accountId : Nat
  mailboxes : Mailboxes
  lastId : Nat

def parentOf (mailboxes : Mailboxes) (id : Nat) : Option (Option Nat) :=
  (mailboxes.lookup id).map Mailbox.parent

def Account.assignDocumentIds (account : Account) (n : Nat) : Account :=
  { account with lastId := account.lastId + n }

/-- An order in which the cache can list the mailboxes. -/
structure CacheOrder where
  items : Mailboxes → List (Sigma fun _ : Nat => Mailbox)
  perm : ∀ mailboxes, (items mailboxes).Perm mailboxes.entries

/-! ## Settings -/

structure DefaultFolder where
  name : String
  aliases : List String
  specialUse : SpecialUse
  subscribe : Bool

def DefaultFolder.isExtra (folder : DefaultFolder) : Bool :=
  decide (folder.specialUse ∈ [.none, .important, .memos, .scheduled, .snoozed])

/-- The settings that the operations read. The default folders are given by special use, so no
use is twice among them; the shared one is kept apart. -/
structure Config where
  mailboxMaxDepth : Nat
  mailboxNameMaxLen : Nat
  maxMailboxes : Nat
  sharedFolder : String
  defaultFolders : List DefaultFolder
  /-- `to_lowercase` -/
  toLowercase : String → String
  distinctUses : (defaultFolders.map DefaultFolder.specialUse).Nodup
  realUses : ∀ folder ∈ defaultFolders, folder.specialUse ≠ .none ∧ folder.specialUse ≠ .shared

def inboxId : Nat := 0

def trashId : Nat := 1

def junkId : Nat := 2

def draftsId : Nat := 3

def sentId : Nat := 4

def archiveId : Nat := 5

def folderId (last : Nat) (folder : DefaultFolder) : Nat :=
  match folder.specialUse with
  | .inbox => inboxId
  | .trash => trashId
  | .junk => junkId
  | .drafts => draftsId
  | .sent => sentId
  | .archive => archiveId
  | _ => last + 1

def folderMailbox (accountId : Nat) (folder : DefaultFolder) : Mailbox :=
  { Mailbox.new folder.name with
    role := folder.specialUse
    subscribers := if folder.subscribe then [accountId] else [] }

def systemFolders (accountId : Nat) : Nat → List DefaultFolder → List (Nat × Mailbox)
  | _, [] => []
  | last, folder :: folders =>
    let last' := if folder.isExtra then last + 1 else last
    (folderId last folder, folderMailbox accountId folder) :: systemFolders accountId last' folders

def createSystemFolders (config : Config) (accountId : Nat) : Account where
  accountId
  mailboxes := (systemFolders accountId archiveId config.defaultFolders).foldl
    (fun mailboxes write => mailboxes.insert write.1 write.2) ∅
  lastId := archiveId + 1

/-! ## Batches -/

/-- A write with what it asserts: that the parent is there, and that the mailbox is still what
it was. -/
structure Write where
  id : Nat
  mailbox : Mailbox
  assertParent : Option Nat
  assertCurrent : Option Mailbox

/-- A write inside a transaction, which fails when an assertion does. -/
def Write.apply (mailboxes : Mailboxes) (write : Write) : Option Mailboxes :=
  if (∀ p, write.assertParent = some p → (mailboxes.lookup p).isSome) ∧
      (∀ m, write.assertCurrent = some m → mailboxes.lookup write.id = some m) then
    some (mailboxes.insert write.id write.mailbox)
  else none

def commitChunk (mailboxes : Mailboxes) : List Write → Option Mailboxes
  | [] => some mailboxes
  | write :: writes =>
    match write.apply mailboxes with
    | none => none
    | some mailboxes => commitChunk mailboxes writes

/-- A batch is cut at a commit point when it has become large. -/
def chunks (isLarge : List Write → Bool) : List Write → List Write → List (List Write)
  | chunk, [] => [chunk]
  | chunk, write :: writes =>
    if isLarge (chunk ++ [write]) then (chunk ++ [write]) :: chunks isLarge [] writes
    else chunks isLarge (chunk ++ [write]) writes

/-- The transactions of a batch up to the first that fails, and whether none did. -/
def commitChunks (mailboxes : Mailboxes) : List (List Write) → Mailboxes × Bool
  | [] => (mailboxes, true)
  | chunk :: rest =>
    match commitChunk mailboxes chunk with
    | none => (mailboxes, false)
    | some mailboxes => commitChunks mailboxes rest

def commitBatch (isLarge : List Write → Bool) (mailboxes : Mailboxes) (writes : List Write) :
    Mailboxes × Bool :=
  commitChunks mailboxes (chunks isLarge [] writes)

/-! ## What a batch can do -/

variable {mailboxes mailboxes' : Mailboxes} {writes : List Write}

theorem Write.apply_eq_some {write : Write} (h : write.apply mailboxes = some mailboxes') :
    mailboxes' = mailboxes.insert write.id write.mailbox ∧
      (∀ p, write.assertParent = some p → (mailboxes.lookup p).isSome) ∧
      (∀ m, write.assertCurrent = some m → mailboxes.lookup write.id = some m) := by
  unfold Write.apply at h
  split at h
  · rename_i hassert
    exact ⟨(Option.some.inj h).symm, hassert⟩
  · cases h

attribute [local simp] commitChunk commitChunks

theorem commitChunk_cons {write : Write}
    (h : commitChunk mailboxes (write :: writes) = some mailboxes') :
    ∃ next, write.apply mailboxes = some next ∧ commitChunk next writes = some mailboxes' := by
  rw [commitChunk] at h
  cases happly : write.apply mailboxes with
  | none => simp [happly] at h
  | some next =>
    simp only [happly] at h
    exact ⟨next, rfl, h⟩

theorem commitChunk_append (mailboxes : Mailboxes) (writes writes' : List Write) :
    commitChunk mailboxes (writes ++ writes') =
      (commitChunk mailboxes writes).bind fun next => commitChunk next writes' := by
  induction writes generalizing mailboxes with
  | nil => rfl
  | cons write writes ih =>
    rw [cons_append, commitChunk, commitChunk]
    cases write.apply mailboxes with
    | none => rfl
    | some next => exact ih next

variable (isLarge : List Write → Bool)

theorem flatten_chunks (chunk writes : List Write) :
    (chunks isLarge chunk writes).flatten = chunk ++ writes := by
  induction writes generalizing chunk with
  | nil => simp [chunks]
  | cons write writes ih =>
    rw [chunks]
    split
    · rw [flatten_cons, ih]
      simp
    · rw [ih]
      simp

/-- A batch writes its first writes, up to the transaction that fails, and all of them when none
does. -/
theorem commitChunks_front (mailboxes : Mailboxes) (cs : List (List Write)) :
    ∃ front rest, cs.flatten = front ++ rest ∧
      commitChunk mailboxes front = some (commitChunks mailboxes cs).1 ∧
      ((commitChunks mailboxes cs).2 = true → rest = []) := by
  induction cs generalizing mailboxes with
  | nil => exact ⟨[], [], rfl, rfl, fun _ => rfl⟩
  | cons chunk cs ih =>
    rw [commitChunks]
    cases hchunk : commitChunk mailboxes chunk with
    | none => exact ⟨[], (chunk :: cs).flatten, rfl, rfl, fun h => by cases h⟩
    | some next =>
      obtain ⟨front, rest, hsplit, hfront, hall⟩ := ih next
      refine ⟨chunk ++ front, rest, ?_, ?_, hall⟩
      · simp [flatten_cons, hsplit]
      · rw [commitChunk_append, hchunk]
        exact hfront

theorem commitBatch_front (mailboxes : Mailboxes) (writes : List Write) :
    ∃ front rest, writes = front ++ rest ∧
      commitChunk mailboxes front = some (commitBatch isLarge mailboxes writes).1 ∧
      ((commitBatch isLarge mailboxes writes).2 = true → rest = []) := by
  have h := commitChunks_front mailboxes (chunks isLarge [] writes)
  rwa [flatten_chunks, nil_append] at h

theorem commitChunks_of_commitChunk (cs : List (List Write))
    (h : commitChunk mailboxes cs.flatten = some mailboxes') :
    commitChunks mailboxes cs = (mailboxes', true) := by
  induction cs generalizing mailboxes with
  | nil =>
    rw [flatten_nil, commitChunk, Option.some.injEq] at h
    rw [commitChunks, h]
  | cons chunk cs ih =>
    rw [flatten_cons, commitChunk_append, Option.bind_eq_some_iff] at h
    obtain ⟨next, hchunk, hrest⟩ := h
    rw [commitChunks, hchunk]
    exact ih hrest

theorem commitBatch_of_commitChunk (h : commitChunk mailboxes writes = some mailboxes') :
    commitBatch isLarge mailboxes writes = (mailboxes', true) := by
  refine commitChunks_of_commitChunk _ ?_
  rw [flatten_chunks]
  exact h

theorem commitChunk_keeps {P : Mailboxes → Prop}
    (hstep : ∀ write ∈ writes, ∀ s s', P s → write.apply s = some s' → P s') (h : P mailboxes)
    (hchunk : commitChunk mailboxes writes = some mailboxes') : P mailboxes' := by
  induction writes generalizing mailboxes with
  | nil =>
    rw [commitChunk, Option.some.injEq] at hchunk
    exact hchunk ▸ h
  | cons write writes ih =>
    obtain ⟨next, happly, hrest⟩ := commitChunk_cons hchunk
    have hnext : P next := hstep write mem_cons_self mailboxes next h happly
    exact ih (fun w hw => hstep w (mem_cons_of_mem _ hw)) hnext hrest

theorem commitBatch_keeps {P : Mailboxes → Prop} (h : P mailboxes)
    (hstep : ∀ write ∈ writes, ∀ s s', P s → write.apply s = some s' → P s') :
    P (commitBatch isLarge mailboxes writes).1 := by
  obtain ⟨front, rest, hsplit, hfront, -⟩ := commitBatch_front isLarge mailboxes writes
  refine commitChunk_keeps (fun write hw => hstep write ?_) h hfront
  rw [hsplit]
  exact mem_append_left _ hw

end Bearmail.Folder
