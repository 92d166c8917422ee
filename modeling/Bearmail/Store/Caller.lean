import Bearmail.Lib.Runs
import Bearmail.Store.Executed

/-!
# Callers of a builder

What the calls say: the account, the collection and the document that the caller has set last, the
operations issued and the changes logged. Beside it, the account that the builder has at that time.
-/

namespace Bearmail.Store

open Markers (after trace)

structure Caller where
  accountId : Option UInt32
  collection : Option Collection
  documentId : Option UInt32
  /-- A commit point has come since the document was set. -/
  stale : Bool

namespace Caller

def new : Caller := ⟨none, none, none, false⟩

def call (caller : Caller) : Call → Caller
  | .withAccountId accountId => { caller with accountId := some accountId }
  | .withCollection collection => { caller with collection := some collection }
  | .withDocument documentId => { caller with documentId := some documentId, stale := false }
  | .commitPoint => { caller with stale := true }
  | _ => caller

def context (caller : Caller) : Context where
  accountId := caller.accountId.getD Context.initial.accountId
  collection := (caller.collection.map Collection.toUInt8).getD Context.initial.collection
  documentId := caller.documentId.getD Context.initial.documentId

end Caller

namespace Call

def operation : Call → Option Operation
  | .assertValue cls value => some (.assertValue cls value)
  | .index field value => some (.index field value true)
  | .unindex field value => some (.index field value false)
  | .add cls amount => some (.value cls (.atomicAdd amount))
  | .addAndGet cls amount => some (.value cls (.addAndGet amount))
  | .set cls value => some (.value cls (.set value))
  | .setFnc cls fnc => some (.value cls (.setFnc fnc))
  | .mergeFnc cls fnc => some (.value cls (.mergeFnc fnc))
  | .clear cls => some (.value cls .clear)
  | .aclGrant grantAccountId op => some (.value (.acl grantAccountId) (.set op))
  | .aclRevoke grantAccountId => some (.value (.acl grantAccountId) .clear)
  | .anyOp cls op => some (.value cls op)
  | .logShareNotification notificationId notifyAccountId value =>
    some (.value (.shareNotification notificationId notifyAccountId) (.set value))
  | _ => none

def change : Call → Option UInt32 → Option LogCall
  | .logItemInsert collection container, documentId =>
    documentId.map (.itemInsert collection container)
  | .logItemUpdate collection container, documentId =>
    documentId.map (.itemUpdate collection container)
  | .logItemDelete collection container, documentId =>
    documentId.map (.itemDelete collection container)
  | .logContainerInsert collection, documentId => documentId.map (.containerInsert collection)
  | .logContainerUpdate collection, documentId => documentId.map (.containerUpdate collection)
  | .logContainerDelete collection, documentId => documentId.map (.containerDelete collection)
  | .logContainerPropertyChange collection documentId, _ =>
    some (.containerPropertyUpdate collection documentId)
  | .logVanishedItem collection item, _ => some (.vanishedItem collection item)
  | _, _ => none

def isPlain : Call → Bool
  | .withAccountId _ | .withCollection _ | .withDocument _ | .commitPoint => false
  | _ => true

end Call

/-- The changes that are logged under an account, if one is set. -/
def filing (accountId : Option UInt32) (change : Option LogCall) : Option (UInt32 × LogCall) :=
  accountId.bind fun accountId => change.map fun change => (accountId, change)

def fileInto (changes : VecMap UInt32 ChangeLogBuilder) (filed : UInt32 × LogCall) :
    VecMap UInt32 ChangeLogBuilder :=
  changes.modify .empty (fun changelog => changelog.log filed.2) filed.1

def changesOf (filed : List (UInt32 × LogCall)) : VecMap UInt32 ChangeLogBuilder :=
  filed.foldl fileInto .empty

/-- A call that sets nothing issues its operation or logs its change. -/
structure BatchBuilder.Plain (builder builder' : BatchBuilder) (operation : Option Operation)
    (filed : Option (UInt32 × LogCall)) : Prop where
  account : builder'.currentAccountId = builder.currentAccountId
  collection : builder'.currentCollection = builder.currentCollection
  document : builder'.currentDocumentId = builder.currentDocumentId
  commitPoints : builder'.commitPoints = builder.commitPoints
  ops : builder'.ops = builder.ops ++ operation.toList
  changes : builder'.changes = filed.toList.foldl fileInto builder.changes

theorem BatchBuilder.plain_logDocument (builder : BatchBuilder) (change : UInt32 → LogCall) :
    builder.Plain (builder.logDocument change) none
      (filing builder.currentAccountId (builder.currentDocumentId.map change)) := by
  have hops : builder.ops = builder.ops ++ (none : Option Operation).toList :=
    (List.append_nil _).symm
  unfold logDocument
  cases builder.currentAccountId with
  | none => exact ⟨rfl, rfl, rfl, rfl, hops, rfl⟩
  | some accountId =>
    cases builder.currentDocumentId with
    | none | some documentId => exact ⟨rfl, rfl, rfl, rfl, hops, rfl⟩

theorem BatchBuilder.plain_call (builder : BatchBuilder) {call : Call} (hplain : call.isPlain = true) :
    builder.Plain (builder.call call) call.operation
      (filing builder.currentAccountId (call.change builder.currentDocumentId)) := by
  have hnone : filing builder.currentAccountId none = none := by
    cases builder.currentAccountId <;> rfl
  cases call with
  | withAccountId | withCollection | withDocument | commitPoint => cases hplain
  | logItemInsert | logItemUpdate | logItemDelete | logContainerInsert | logContainerUpdate
    | logContainerDelete => exact builder.plain_logDocument _
  | logContainerPropertyChange collection documentId =>
    have hops : builder.ops = builder.ops ++ (none : Option Operation).toList :=
      (List.append_nil _).symm
    unfold BatchBuilder.call logContainerPropertyChange Call.change Call.operation
    cases builder.currentAccountId <;> exact ⟨rfl, rfl, rfl, rfl, hops, rfl⟩
  | logVanishedItem collection item =>
    have hops : builder.ops = builder.ops ++ (none : Option Operation).toList :=
      (List.append_nil _).symm
    unfold BatchBuilder.call logVanishedItem Call.change Call.operation
    cases builder.currentAccountId <;> exact ⟨rfl, rfl, rfl, rfl, hops, rfl⟩
  | _ =>
    show builder.Plain _ _ (filing builder.currentAccountId none)
    rw [hnone]
    exact ⟨rfl, rfl, rfl, rfl, rfl, rfl⟩

/-! ## Sessions -/

structure Issued where
  caller : Caller
  account : Option UInt32
  op : Operation

def Issued.meant (issued : Issued) : Context × Operation :=
  (issued.op.scope issued.caller.context, issued.op)

def Issued.kept (issued : Issued) : Context × Operation :=
  (issued.op.scope { issued.caller with accountId := issued.account }.context, issued.op)

structure Filed where
  caller : UInt32
  account : UInt32
  change : LogCall

def Filed.meant (filed : Filed) : UInt32 × LogCall := (filed.caller, filed.change)

def Filed.kept (filed : Filed) : UInt32 × LogCall := (filed.account, filed.change)

structure Session where
  builder : BatchBuilder
  caller : Caller
  /-- A cut has left the builder in the account of a change set, which is not that of the caller. -/
  adrift : Bool
  issued : List Issued
  closed : List (List Filed)
  opened : List Filed
  /-- A share notification has been logged. -/
  notified : Bool

namespace Session

def new : Session := ⟨.new, .new, false, [], [], [], false⟩

def driftsAt (session : Session) : Call → Bool
  | .withAccountId _ => false
  | .commitPoint =>
    if session.builder.isLargeBatch then
      match session.builder.changes.keys.getLast? with
      | some last => !decide (session.caller.accountId = some last)
      | none => session.adrift
    else session.adrift
  | _ => session.adrift

def files (session : Session) (call : Call) : Option Filed :=
  session.caller.accountId.bind fun caller => session.builder.currentAccountId.bind fun account =>
    (call.change session.caller.documentId).map fun change => ⟨caller, account, change⟩

def notifies : Call → Bool
  | .logShareNotification .. => true
  | _ => false

def cuts (session : Session) (call : Call) : Bool :=
  match call with
  | .commitPoint => session.builder.isLargeBatch
  | _ => false

def call (session : Session) (call : Call) : Session where
  builder := session.builder.call call
  caller := session.caller.call call
  adrift := session.driftsAt call
  issued := session.issued ++
    (call.operation.map fun op => ⟨session.caller, session.builder.currentAccountId, op⟩).toList
  closed := if session.cuts call then session.closed ++ [session.opened] else session.closed
  opened := if session.cuts call then [] else session.opened ++ (session.files call).toList
  notified := session.notified || notifies call

def ofCalls (calls : List Call) : Session := calls.foldl call new

def step (session : Session) (call : Call) : Option Session := some (session.call call)

end Session

end Bearmail.Store
