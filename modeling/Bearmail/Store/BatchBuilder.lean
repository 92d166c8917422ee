import Bearmail.Lib.Markers
import Bearmail.Store.ChangeLog
import Bearmail.Store.ValueClass

/-!
# Building a batch

`store/src/write/batch.rs`. The builder keeps the account, the collection and the document that the next
operations are for, and adds an operation that says so only when it changes. Logged changes are kept by
account, and become operations at the end or at a commit point of a large batch.
-/

namespace Bearmail.Store

inductive Collection where
  | email
  | mailbox
  | thread
  | identity
  | emailSubmission
  | sieveScript
  | pushSubscription
  | principal
  | calendar
  | calendarEvent
  | addressBook
  | contactCard
  | fileNode
  | calendarEventNotification
  | none
  deriving DecidableEq

def Collection.toUInt8 : Collection → UInt8
  | .email => 0
  | .mailbox => 1
  | .thread => 2
  | .identity => 3
  | .emailSubmission => 4
  | .sieveScript => 5
  | .pushSubscription => 6
  | .principal => 7
  | .calendar => 8
  | .calendarEvent => 9
  | .addressBook => 10
  | .contactCard => 11
  | .fileNode => 12
  | .calendarEventNotification => 13
  | .none => 14

/-! ## Operations -/

inductive AssignedId where
  | counter (id : Int64)
  | changeId (accountId : UInt32) (changeId : UInt64)
  deriving DecidableEq

structure AssignedIds where
  ids : List AssignedId
  currentChangeId : Option UInt64
  deriving DecidableEq

inductive StoreError where
  | assertValueFailed
  | dataCorruption (key : List UInt8)
  | unexpectedError (reason : String)
  | rocksDbError
  | sqliteError
  /-- The worker is gone. -/
  | panicked
  deriving DecidableEq

inductive ArchiveVersion where
  | versioned (changeId : UInt64) (hash : UInt32)
  | hashed (hash : UInt32)
  | unversioned
  deriving DecidableEq

inductive AssertValue where
  | u32 (value : UInt32)
  | u64 (value : UInt64)
  | hash (value : UInt64)
  | archive (version : ArchiveVersion)
  | some
  | none
  deriving DecidableEq

inductive MergeResult where
  | update (value : List UInt8)
  | skip
  | delete
  deriving DecidableEq

/-- The functions stand with their parameters. -/
inductive ValueOp where
  | set (value : List UInt8)
  | setFnc (fnc : AssignedIds → Except StoreError (List UInt8))
  | mergeFnc (fnc : AssignedIds → Option (List UInt8) → Except StoreError MergeResult)
  | atomicAdd (amount : Int64)
  | addAndGet (amount : Int64)
  | clear

/-- What a log operation writes: the sets of a collection, or its vanished items. -/
inductive LogSet where
  | changes (changes : Changes)
  | vanished (items : List VanishedItem)
  deriving DecidableEq

inductive Operation where
  | accountId (accountId : UInt32)
  | collection (collection : Collection)
  | documentId (documentId : UInt32)
  | assertValue (cls : ValueClass) (value : AssertValue)
  | value (cls : ValueClass) (op : ValueOp)
  | index (field : UInt8) (key : List UInt8) (set : Bool)
  | log (collection : LogCollection) (set : LogSet)

/-! ## The builder -/

structure ChangedCollection where
  changedContainers : Finset SyncCollection
  changedItems : Finset SyncCollection
  shareNotificationId : Option UInt64
  deriving DecidableEq

def ChangedCollection.empty : ChangedCollection := ⟨∅, ∅, .none⟩

structure BatchBuilder where
  currentAccountId : Option UInt32
  currentCollection : Option Collection
  currentDocumentId : Option UInt32
  changes : VecMap UInt32 ChangeLogBuilder
  changedCollections : VecMap UInt32 ChangedCollection
  hasAssertions : Bool
  batchSize : Nat
  batchOps : Nat
  commitPoints : List Nat
  ops : List Operation

namespace BatchBuilder

def new : BatchBuilder where
  currentAccountId := none
  currentCollection := none
  currentDocumentId := none
  changes := .empty
  changedCollections := .empty
  hasAssertions := false
  batchSize := 0
  batchOps := 0
  commitPoints := []
  ops := []

def withAccountId (builder : BatchBuilder) (accountId : UInt32) : BatchBuilder :=
  if builder.currentAccountId = some accountId then builder
  else
    { builder with
      currentAccountId := some accountId
      ops := builder.ops ++ [.accountId accountId] }

def withCollection (builder : BatchBuilder) (collection : Collection) : BatchBuilder :=
  if builder.currentCollection = some collection then builder
  else
    { builder with
      currentCollection := some collection
      ops := builder.ops ++ [.collection collection] }

def withDocument (builder : BatchBuilder) (documentId : UInt32) : BatchBuilder :=
  { builder with
    ops := builder.ops ++ [.documentId documentId]
    currentDocumentId := some documentId
    hasAssertions := false }

/-- An operation, with what it adds to the size of the batch and to the count of its operations. -/
def push (builder : BatchBuilder) (op : Operation) (size count : Nat) : BatchBuilder :=
  { builder with
    ops := builder.ops ++ [op]
    batchSize := builder.batchSize + size
    batchOps := builder.batchOps + count }

def assertValue (builder : BatchBuilder) (cls : ValueClass) (value : AssertValue) : BatchBuilder :=
  { builder.push (.assertValue cls value) 0 1 with hasAssertions := true }

def index (builder : BatchBuilder) (field : UInt8) (value : List UInt8) : BatchBuilder :=
  builder.push (.index field value true) (4 * 3 + value.length) 1

def unindex (builder : BatchBuilder) (field : UInt8) (value : List UInt8) : BatchBuilder :=
  builder.push (.index field value false) (4 * 3 + value.length) 1

def add (builder : BatchBuilder) (cls : ValueClass) (amount : Int64) : BatchBuilder :=
  builder.push (.value cls (.atomicAdd amount)) (cls.serializedSize + 8) 1

def addAndGet (builder : BatchBuilder) (cls : ValueClass) (amount : Int64) : BatchBuilder :=
  builder.push (.value cls (.addAndGet amount)) (cls.serializedSize + 8 * 2) 1

def set (builder : BatchBuilder) (cls : ValueClass) (value : List UInt8) : BatchBuilder :=
  builder.push (.value cls (.set value)) (cls.serializedSize + value.length) 1

def setFnc (builder : BatchBuilder) (cls : ValueClass)
    (fnc : AssignedIds → Except StoreError (List UInt8)) : BatchBuilder :=
  builder.push (.value cls (.setFnc fnc)) 0 0

def mergeFnc (builder : BatchBuilder) (cls : ValueClass)
    (fnc : AssignedIds → Option (List UInt8) → Except StoreError MergeResult) : BatchBuilder :=
  builder.push (.value cls (.mergeFnc fnc)) 0 0

def clear (builder : BatchBuilder) (cls : ValueClass) : BatchBuilder :=
  builder.push (.value cls .clear) cls.serializedSize 1

def aclGrant (builder : BatchBuilder) (grantAccountId : UInt32) (op : List UInt8) : BatchBuilder :=
  builder.push (.value (.acl grantAccountId) (.set op)) (4 * 3 + op.length) 1

def aclRevoke (builder : BatchBuilder) (grantAccountId : UInt32) : BatchBuilder :=
  builder.push (.value (.acl grantAccountId) .clear) (4 * 3) 1

def anyOp (builder : BatchBuilder) (cls : ValueClass) (op : ValueOp) : BatchBuilder :=
  let size := match op with
    | .set value => cls.serializedSize + value.length
    | _ => cls.serializedSize
  builder.push (.value cls op) size 1

/-! ## Logging -/

def file (builder : BatchBuilder) (accountId : UInt32) (call : LogCall) : BatchBuilder :=
  { builder with
    changes := builder.changes.modify .empty (fun changelog => changelog.log call) accountId }

def logDocument (builder : BatchBuilder) (call : UInt32 → LogCall) : BatchBuilder :=
  match builder.currentAccountId, builder.currentDocumentId with
  | some accountId, some documentId => builder.file accountId (call documentId)
  | _, _ => builder

def logItemInsert (builder : BatchBuilder) (collection : SyncCollection) (container : Option UInt32) :
    BatchBuilder :=
  builder.logDocument fun documentId => .itemInsert collection container documentId

def logItemUpdate (builder : BatchBuilder) (collection : SyncCollection) (container : Option UInt32) :
    BatchBuilder :=
  builder.logDocument fun documentId => .itemUpdate collection container documentId

def logItemDelete (builder : BatchBuilder) (collection : SyncCollection) (container : Option UInt32) :
    BatchBuilder :=
  builder.logDocument fun documentId => .itemDelete collection container documentId

def logContainerInsert (builder : BatchBuilder) (collection : SyncCollection) : BatchBuilder :=
  builder.logDocument fun documentId => .containerInsert collection documentId

def logContainerUpdate (builder : BatchBuilder) (collection : SyncCollection) : BatchBuilder :=
  builder.logDocument fun documentId => .containerUpdate collection documentId

def logContainerDelete (builder : BatchBuilder) (collection : SyncCollection) : BatchBuilder :=
  builder.logDocument fun documentId => .containerDelete collection documentId

def logContainerPropertyChange (builder : BatchBuilder) (collection : SyncCollection)
    (documentId : UInt32) : BatchBuilder :=
  match builder.currentAccountId with
  | some accountId => builder.file accountId (.containerPropertyUpdate collection documentId)
  | none => builder

def logVanishedItem (builder : BatchBuilder) (collection : VanishedCollection) (item : VanishedItem) :
    BatchBuilder :=
  match builder.currentAccountId with
  | some accountId =>
    { builder.file accountId (.vanishedItem collection item) with
      batchSize := builder.batchSize + item.serializedSize }
  | none => builder

def logShareNotification (builder : BatchBuilder) (notificationId : UInt64)
    (notifyAccountId : UInt32) (value : List UInt8) : BatchBuilder :=
  let builder :=
    { builder with
      changedCollections := builder.changedCollections.modify .empty
        (fun cc => { cc with shareNotificationId := some notificationId }) notifyAccountId }
  builder.set (.shareNotification notificationId notifyAccountId) value

/-! ## Commit points -/

def serializeCollection (accountId : UInt32) (builder : BatchBuilder)
    (entry : SyncCollection × Changes) : BatchBuilder :=
  { builder with
    changedCollections := builder.changedCollections.modify .empty
      (fun cc =>
        { cc with
          changedContainers :=
            if entry.2.hasContainerChanges then insert entry.1 cc.changedContainers
            else cc.changedContainers
          changedItems :=
            if entry.2.hasItemChanges then insert entry.1 cc.changedItems else cc.changedItems })
      accountId
    ops := builder.ops ++ [.log (.sync entry.1) (.changes entry.2)] }

def serializeVanished (builder : BatchBuilder) (entry : VanishedCollection × List VanishedItem) :
    BatchBuilder :=
  { builder with ops := builder.ops ++ [.log (.vanished entry.1) (.vanished entry.2)] }

def serializeAccount (builder : BatchBuilder) (entry : UInt32 × ChangeLogBuilder) : BatchBuilder :=
  entry.2.vanished.entries.foldl serializeVanished
    (entry.2.changes.entries.foldl (serializeCollection entry.1) (builder.withAccountId entry.1))

/-- All logged changes become operations, account by account. -/
def serializeChanges (builder : BatchBuilder) : BatchBuilder :=
  builder.changes.entries.foldl serializeAccount { builder with changes := .empty }

def isLargeBatch (builder : BatchBuilder) : Bool :=
  decide (builder.batchSize > 5000000 ∨ builder.batchOps > 1000)

/-- A large batch is cut, and goes on in the account and collection of the builder. -/
def commitPoint (builder : BatchBuilder) : BatchBuilder :=
  if builder.isLargeBatch then
    let builder := builder.serializeChanges
    { builder with
      commitPoints := builder.commitPoints ++ [builder.ops.length]
      batchOps := 0
      batchSize := 0
      ops := builder.ops ++ (builder.currentAccountId.map .accountId).toList ++
        (builder.currentCollection.map .collection).toList }
  else builder

end BatchBuilder

/-- The operations of one transaction, with the accounts that get a change id. -/
structure Batch where
  changes : VecMap UInt32 ChangedCollection
  ops : List Operation

def BatchBuilder.buildAll (builder : BatchBuilder) : Batch :=
  let builder := builder.serializeChanges
  ⟨builder.changedCollections, builder.ops⟩

/-- `build_one` for each of the `commit_points`. -/
def BatchBuilder.buildSegments (builder : BatchBuilder) : List Batch :=
  let builder := builder.serializeChanges
  (Markers.slices builder.ops 0 (builder.commitPoints ++ [builder.ops.length])).map fun ops =>
    ⟨builder.changedCollections, ops⟩

inductive Route where
  | all
  | segments
  deriving DecidableEq

def BatchBuilder.batches (builder : BatchBuilder) : Route → List Batch
  | .all => [builder.buildAll]
  | .segments => builder.buildSegments

/-! ## Calls -/

inductive Call where
  | withAccountId (accountId : UInt32)
  | withCollection (collection : Collection)
  | withDocument (documentId : UInt32)
  | assertValue (cls : ValueClass) (value : AssertValue)
  | index (field : UInt8) (value : List UInt8)
  | unindex (field : UInt8) (value : List UInt8)
  | add (cls : ValueClass) (amount : Int64)
  | addAndGet (cls : ValueClass) (amount : Int64)
  | set (cls : ValueClass) (value : List UInt8)
  | setFnc (cls : ValueClass) (fnc : AssignedIds → Except StoreError (List UInt8))
  | mergeFnc (cls : ValueClass) (fnc : AssignedIds → Option (List UInt8) → Except StoreError MergeResult)
  | clear (cls : ValueClass)
  | aclGrant (grantAccountId : UInt32) (op : List UInt8)
  | aclRevoke (grantAccountId : UInt32)
  | anyOp (cls : ValueClass) (op : ValueOp)
  | logItemInsert (collection : SyncCollection) (container : Option UInt32)
  | logItemUpdate (collection : SyncCollection) (container : Option UInt32)
  | logItemDelete (collection : SyncCollection) (container : Option UInt32)
  | logContainerInsert (collection : SyncCollection)
  | logContainerUpdate (collection : SyncCollection)
  | logContainerDelete (collection : SyncCollection)
  | logContainerPropertyChange (collection : SyncCollection) (documentId : UInt32)
  | logVanishedItem (collection : VanishedCollection) (item : VanishedItem)
  | logShareNotification (notificationId : UInt64) (notifyAccountId : UInt32) (value : List UInt8)
  | commitPoint

def BatchBuilder.call (builder : BatchBuilder) : Call → BatchBuilder
  | .withAccountId accountId => builder.withAccountId accountId
  | .withCollection collection => builder.withCollection collection
  | .withDocument documentId => builder.withDocument documentId
  | .assertValue cls value => builder.assertValue cls value
  | .index field value => builder.index field value
  | .unindex field value => builder.unindex field value
  | .add cls amount => builder.add cls amount
  | .addAndGet cls amount => builder.addAndGet cls amount
  | .set cls value => builder.set cls value
  | .setFnc cls fnc => builder.setFnc cls fnc
  | .mergeFnc cls fnc => builder.mergeFnc cls fnc
  | .clear cls => builder.clear cls
  | .aclGrant grantAccountId op => builder.aclGrant grantAccountId op
  | .aclRevoke grantAccountId => builder.aclRevoke grantAccountId
  | .anyOp cls op => builder.anyOp cls op
  | .logItemInsert collection container => builder.logItemInsert collection container
  | .logItemUpdate collection container => builder.logItemUpdate collection container
  | .logItemDelete collection container => builder.logItemDelete collection container
  | .logContainerInsert collection => builder.logContainerInsert collection
  | .logContainerUpdate collection => builder.logContainerUpdate collection
  | .logContainerDelete collection => builder.logContainerDelete collection
  | .logContainerPropertyChange collection documentId =>
    builder.logContainerPropertyChange collection documentId
  | .logVanishedItem collection item => builder.logVanishedItem collection item
  | .logShareNotification notificationId notifyAccountId value =>
    builder.logShareNotification notificationId notifyAccountId value
  | .commitPoint => builder.commitPoint

end Bearmail.Store
