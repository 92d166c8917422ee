import Bearmail.Imap.MailboxState

/-!
# COPY and MOVE

`copy_move` of `imap/src/op/copy_move.rs`, within an account and from one account to
another, up to the `COPYUID` response code. The messages come from a hash map, in any
order; a message that is in the destination already keeps the UID it has there.

Quota checks and the search for duplicates of `copy_message` are parameters. UIDs are
`u32` in the source; a mailbox assigns fewer than `2 ^ 32`.

An account is `Consistent` when the messages of a mailbox have UIDs of their own, up to the
counter of the mailbox.
-/

namespace Bearmail.Imap

/-! ## Accounts -/

structure UidMailbox where
  mailboxId : Nat
  uid : Nat
  deriving DecidableEq

structure MessageData where
  mailboxes : List UidMailbox
  deriving DecidableEq

namespace MessageData

def hasMailboxId (data : MessageData) (mailboxId : Nat) : Bool :=
  data.mailboxes.any fun m => decide (m.mailboxId = mailboxId)

def messageUid (data : MessageData) (mailboxId : Nat) : Option Nat :=
  (data.mailboxes.find? fun m => decide (m.mailboxId = mailboxId)).map UidMailbox.uid

/-- Two `UidMailbox` are equal when their mailboxes are. -/
def addMailbox (data : MessageData) (mailbox : UidMailbox) : MessageData :=
  if data.hasMailboxId mailbox.mailboxId then data else ⟨data.mailboxes ++ [mailbox]⟩

def removeMailbox (data : MessageData) (mailbox : Nat) : MessageData :=
  ⟨data.mailboxes.filter fun m => decide (m.mailboxId ≠ mailbox)⟩

/-- The mailboxes whose UID is still to be assigned. -/
def unassigned (data : MessageData) : List Nat :=
  (data.mailboxes.filter fun m => decide (m.uid = 0)).map UidMailbox.mailboxId

def setUids (data : MessageData) (uids : List Nat) : MessageData := ⟨go data.mailboxes uids⟩
where
  go : List UidMailbox → List Nat → List UidMailbox
    | [], _ => []
    | m :: ms, uids =>
      if m.uid = 0 then
        match uids with
        | [] => m :: ms
        | uid :: uids => ⟨m.mailboxId, uid⟩ :: go ms uids
      else m :: go ms uids

end MessageData

structure Account where
  messages : Nat → Option MessageData
  uidCounter : Nat → Nat
  documentCounter : Nat

def assignEmailIds (uidCounter : Nat → Nat) : List Nat → (Nat → Nat) × List Nat
  | [] => (uidCounter, [])
  | mailbox :: mailboxes =>
    let rest := assignEmailIds (Function.update uidCounter mailbox (uidCounter mailbox + 1)) mailboxes
    (rest.1, (uidCounter mailbox + 1) :: rest.2)

/-! ## Within an account -/

/-- The loop over the messages: the batch, the pairs of UIDs and the counters. -/
structure CopyRun where
  uidCounter : Nat → Nat
  changes : List (Nat × MessageData)
  /-- mailbox and UID, for each message that left its mailbox -/
  vanished : List (Nat × Nat)
  copiedIds : List (Nat × Nat)
  didMove : Bool

/-- One message of the loop. The store is read as it was, the batch is written at the end. -/
def copyStep (messages : Nat → Option MessageData) (src dest : Nat) (isMove : Bool)
    (run : CopyRun) (entry : Nat × ImapId) : CopyRun :=
  match messages entry.1 with
  | none => run
  | some data =>
    if data.hasMailboxId src then
      match data.messageUid dest with
      | some uid =>
        let run := { run with copiedIds := run.copiedIds ++ [(entry.2.uid, uid)] }
        if isMove then
          { run with
            changes := run.changes ++ [(entry.1, data.removeMailbox src)]
            vanished := run.vanished ++ [(src, entry.2.uid)]
            didMove := true }
        else run
      | none =>
        let added := data.addMailbox ⟨dest, 0⟩
        let newData := if isMove then added.removeMailbox src else added
        let assigned := assignEmailIds run.uidCounter newData.unassigned
        { uidCounter := assigned.1
          changes := run.changes ++ [(entry.1, newData.setUids assigned.2)]
          vanished := if isMove then run.vanished ++ [(src, entry.2.uid)] else run.vanished
          copiedIds := run.copiedIds ++ assigned.2.map fun uid => (entry.2.uid, uid)
          didMove := run.didMove || isMove }
    else run

/-- The loop over the messages of the id map, in its order. -/
def copySame (account : Account) (src dest : Nat) (isMove : Bool) (ids : List (Nat × ImapId)) :
    CopyRun :=
  ids.foldl (copyStep account.messages src dest isMove) ⟨account.uidCounter, [], [], [], false⟩

def applyChanges (messages : Nat → Option MessageData) (changes : List (Nat × MessageData)) :
    Nat → Option MessageData :=
  changes.foldl (fun messages c => Function.update messages c.1 (some c.2)) messages

def CopyRun.commit (run : CopyRun) (account : Account) : Account where
  messages := applyChanges account.messages run.changes
  uidCounter := run.uidCounter
  documentCounter := account.documentCounter

/-! ## To another account -/

inductive CopyMessageError where
  | notFound
  | overQuota
  | alreadyExists (id : Nat)

structure IngestedEmail where
  documentId : Nat
  imapUids : List Nat

def IngestedEmail.uid (email : IngestedEmail) : Nat := email.imapUids.headD 0

/-- What `copy_message` asks about a message of the source account. -/
structure CopyEnv where
  /-- its size, when it has metadata -/
  metadata : Nat → Option Nat
  hasAvailableQuota : Account → Nat → Bool
  /-- `duplicate_ids` of `find_thread_id` -/
  duplicateIds : Account → Nat → List Nat

def copyMessage (env : CopyEnv) (account : Account) (id : Nat) (mailboxes : List Nat) :
    Except CopyMessageError (IngestedEmail × Account) :=
  match env.metadata id with
  | none => .error .notFound
  | some size =>
    if env.hasAvailableQuota account size then
      match env.duplicateIds account id with
      | existing :: _ => .error (.alreadyExists existing)
      | [] =>
        let documentId := account.documentCounter + 1
        let assigned := assignEmailIds account.uidCounter mailboxes
        .ok (⟨documentId, assigned.2⟩,
          { messages := Function.update account.messages documentId
              (some ⟨List.zipWith UidMailbox.mk mailboxes assigned.2⟩)
            uidCounter := assigned.1
            documentCounter := documentId })
    else .error .overQuota

inductive ResponseCode where
  | overQuota
  | alreadyExists
  | copyUid (uidValidity : Nat) (srcUids destUids : List Nat)

structure StatusResponse where
  isOk : Bool
  code : Option ResponseCode
  message : String

def CopyMessageError.respond (response : StatusResponse) : CopyMessageError → StatusResponse
  | .overQuota => ⟨false, some .overQuota, "Mailbox quota exceeded"⟩
  | .alreadyExists _ =>
    ⟨false, some .alreadyExists, "Message already exists in destination mailbox"⟩
  | .notFound => response

structure OtherRun where
  account : Account
  response : StatusResponse
  copiedIds : List (Nat × Nat)
  /-- the source message of each copy -/
  copies : List (Nat × IngestedEmail)
  destroyIds : List Nat

def copyOtherStep (env : CopyEnv) (dest : Nat) (isMove : Bool) (run : OtherRun)
    (entry : Nat × ImapId) : OtherRun :=
  match copyMessage env run.account entry.1 [dest] with
  | .error err => { run with response := err.respond run.response }
  | .ok (email, account) =>
    { account
      response := run.response
      copiedIds :=
        match email.imapUids with
        | [] => run.copiedIds
        | uid :: _ => run.copiedIds ++ [(entry.2.uid, uid)]
      copies := run.copies ++ [(entry.1, email)]
      destroyIds := if isMove then run.destroyIds ++ [entry.1] else run.destroyIds }

def copyOther (env : CopyEnv) (account : Account) (response : StatusResponse) (dest : Nat)
    (isMove : Bool) (ids : List (Nat × ImapId)) : OtherRun :=
  ids.foldl (copyOtherStep env dest isMove) ⟨account, response, [], [], []⟩

/-! ## The response -/

/-- What is sent for the copied messages: an untagged response for a move, and the tagged one. -/
inductive CopyResponse where
  | err (details : String) (code : Option ResponseCode)
  | none (message : String)
  | copied (untagged : Option ResponseCode) (tagged : StatusResponse)

def copyUid (uidValidity : Nat) (copiedIds : List (Nat × Nat)) : ResponseCode :=
  .copyUid uidValidity ((copiedIds.map Prod.fst).mergeSort fun a b => decide (a ≤ b))
    ((copiedIds.map Prod.snd).mergeSort fun a b => decide (a ≤ b))

def respond (uidValidity : Nat) (isMove : Bool) (response : StatusResponse)
    (copiedIds : List (Nat × Nat)) : CopyResponse :=
  if copiedIds.isEmpty then
    if response.isOk then
      .none (if isMove then "No messages were moved." else "No messages were copied.")
    else .err response.message response.code
  else if isMove then .copied (some (copyUid uidValidity copiedIds)) response
  else .copied none { response with code := some (copyUid uidValidity copiedIds) }

/-- The `COPYUID` code of a response, wherever it stands. -/
def CopyResponse.sets : CopyResponse → Option (List Nat × List Nat)
  | .copied (some (.copyUid _ src dest)) _ => some (src, dest)
  | .copied .none ⟨_, some (.copyUid _ src dest), _⟩ => some (src, dest)
  | _ => .none

/-! ## What an account keeps -/

structure Account.Consistent (account : Account) : Prop where
  assigned : ∀ id data, account.messages id = some data → ∀ m ∈ data.mailboxes,
    0 < m.uid ∧ m.uid ≤ account.uidCounter m.mailboxId
  distinct : ∀ id data, account.messages id = some data → (data.mailboxes.map UidMailbox.mailboxId).Nodup
  unique : ∀ id id' data data', account.messages id = some data →
    account.messages id' = some data' → ∀ m ∈ data.mailboxes, m ∈ data'.mailboxes → id = id'
  documents : ∀ id, account.documentCounter < id → account.messages id = none

/-- An account whose messages have UIDs of their own. -/
structure StoredAccount extends Account where
  consistent : toAccount.Consistent

/-- The entries of the id map in the order in which it is iterated. -/
structure IdMap where
  entries : List (Nat × ImapId)
  keys : (entries.map Prod.fst).Nodup
  uids : (entries.map fun entry => entry.2.uid).Nodup

end Bearmail.Imap
