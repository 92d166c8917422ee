import Bearmail.Lib.BigEndian
import Bearmail.Store.Collections

/-!
# Keys

`store/src/write/key.rs`: where the value of a class is kept, and the bytes of its key. Some keys are made
of the account, collection and document that a batch has set.
-/

namespace Bearmail.Store

/-- Short values are kept in a hash themselves. -/
abbrev CheekyHash := Vector UInt8 16

def CheekyHash.asBytes (hash : CheekyHash) : List UInt8 :=
  hash.toList.take (min hash[0].toNat 15 + 1)

def CheekyHash.first (hash : CheekyHash) : UInt8 := hash[0]

def CheekyHash.payload (hash : CheekyHash) : List UInt8 :=
  hash.toList.tail.take (min hash[0].toNat 15)

abbrev BlobHash := Vector UInt8 32

inductive IndexPropertyClass where
  | hash (property : UInt8) (hash : CheekyHash)
  | integer (property : UInt8) (value : UInt64)
  deriving DecidableEq

inductive InMemoryClass where
  | key (key : List UInt8)
  | counter (key : List UInt8)
  deriving DecidableEq

inductive TaskQueueClass where
  | task (taskId : UInt64)
  | due (taskId due : UInt64)
  deriving DecidableEq

inductive BlobLink where
  | id (linkId : UInt64)
  | document
  | temporary (till : UInt64)
  deriving DecidableEq

inductive BlobOp where
  | commit (hash : BlobHash)
  | link (hash : BlobHash) (target : BlobLink)
  deriving DecidableEq

inductive RegistryClass where
  | item (objectId : UInt16) (itemId : UInt64)
  | reference (toObjectId : UInt16) (toItemId : UInt64) (fromObjectId : UInt16) (fromItemId : UInt64)
  | index (indexId objectId : UInt16) (itemId : UInt64) (key : List UInt8)
  | indexId (objectId : UInt16) (itemId : UInt64)
  | primaryKey (objectId : Option UInt16) (indexId : UInt16) (key : List UInt8)
  | idCounter (objectId : UInt16)
  deriving DecidableEq

structure QueueEvent where
  due : UInt64
  queueId : UInt64
  queueName : Vector UInt8 8
  deriving DecidableEq

inductive QueueClass where
  | message (queueId : UInt64)
  | messageEvent (event : QueueEvent)
  | quotaCount (key : List UInt8)
  | quotaSize (key : List UInt8)
  deriving DecidableEq

inductive TelemetryClass where
  | span (spanId : UInt64)
  | metric (metricId : UInt64)
  deriving DecidableEq

inductive SearchIndex where
  | email
  | calendar
  | contacts
  | file
  | tracing
  deriving DecidableEq

inductive SearchIndexId where
  | account (accountId documentId : UInt32)
  | global (id : UInt64)
  deriving DecidableEq

inductive SearchIndexType where
  | term (field : UInt8) (hash : CheekyHash)
  | index (fieldId : UInt8) (data : List UInt8)
  | document
  deriving DecidableEq

structure SearchIndexClass where
  index : SearchIndex
  id : SearchIndexId
  typ : SearchIndexType
  deriving DecidableEq

inductive ValueClass where
  | property (field : UInt8)
  | indexProperty (property : IndexPropertyClass)
  | acl (grantAccountId : UInt32)
  | inMemory (lookup : InMemoryClass)
  | taskQueue (task : TaskQueueClass)
  | blob (op : BlobOp)
  | registry (registry : RegistryClass)
  | queue (queue : QueueClass)
  | telemetry (telemetry : TelemetryClass)
  | searchIndex (index : SearchIndexClass)
  | any (subspace : UInt8) (key : List UInt8)
  | shareNotification (notificationId : UInt64) (notifyAccountId : UInt32)
  | documentId
  | changeId
  | quota
  | tenantQuota (tenantId : UInt32)
  | nodeId (nodeId : UInt16)
  deriving DecidableEq

/-! ## Bytes -/

def be16 (n : UInt16) : List UInt8 := BigEndian.toBytes 2 n.toNat

def be32 (n : UInt32) : List UInt8 := BigEndian.toBytes 4 n.toNat

def be64 (n : UInt64) : List UInt8 := BigEndian.toBytes 8 n.toNat

@[simp] theorem length_be16 (n : UInt16) : (be16 n).length = 2 := BigEndian.length_toBytes 2 _

@[simp] theorem length_be32 (n : UInt32) : (be32 n).length = 4 := BigEndian.length_toBytes 4 _

@[simp] theorem length_be64 (n : UInt64) : (be64 n).length = 8 := BigEndian.length_toBytes 8 _

theorem ofBytes_be64 (n : UInt64) : BigEndian.ofBytes (be64 n) = n.toNat :=
  BigEndian.ofBytes_toBytes_of_lt n.toNat_lt

theorem be16_inj {a b : UInt16} : be16 a = be16 b ↔ a = b := by
  refine ⟨fun h => UInt16.toNat_inj.mp ?_, fun h => h ▸ rfl⟩
  rw [← BigEndian.ofBytes_toBytes_of_lt (show a.toNat < 256 ^ 2 from a.toNat_lt),
    ← BigEndian.ofBytes_toBytes_of_lt (show b.toNat < 256 ^ 2 from b.toNat_lt)]
  exact congrArg BigEndian.ofBytes h

theorem be32_inj {a b : UInt32} : be32 a = be32 b ↔ a = b := by
  refine ⟨fun h => UInt32.toNat_inj.mp ?_, fun h => h ▸ rfl⟩
  rw [← BigEndian.ofBytes_toBytes_of_lt (show a.toNat < 256 ^ 4 from a.toNat_lt),
    ← BigEndian.ofBytes_toBytes_of_lt (show b.toNat < 256 ^ 4 from b.toNat_lt)]
  exact congrArg BigEndian.ofBytes h

theorem be64_inj {a b : UInt64} : be64 a = be64 b ↔ a = b := by
  refine ⟨fun h => UInt64.toNat_inj.mp ?_, fun h => h ▸ rfl⟩
  rw [← ofBytes_be64 a, ← ofBytes_be64 b]
  exact congrArg BigEndian.ofBytes h

def IndexPropertyClass.serialize (cls : IndexPropertyClass) (accountId : UInt32)
    (collection : UInt8) (documentId : UInt32) : List UInt8 :=
  match cls with
  | .hash field value =>
    be32 accountId ++ [collection, field] ++ value.asBytes ++ be32 documentId
  | .integer field value =>
    be32 accountId ++ [collection, field] ++ be64 value ++ be32 documentId

def TaskQueueClass.serialize : TaskQueueClass → List UInt8
  | .task taskId => be64 0 ++ be64 taskId
  | .due taskId time => be64 time ++ be64 taskId

def BlobOp.serialize (op : BlobOp) (accountId : UInt32) (collection : UInt8) (documentId : UInt32) :
    List UInt8 :=
  match op with
  | .commit hash => hash.toList
  | .link hash (.id linkId) => hash.toList ++ be64 linkId
  | .link hash .document => hash.toList ++ be32 accountId ++ [collection] ++ be32 documentId
  | .link hash (.temporary till) => hash.toList ++ be32 accountId ++ be64 till

def RegistryClass.serialize : RegistryClass → List UInt8
  | .item objectId itemId => be16 objectId ++ be64 itemId
  | .indexId objectId itemId => be16 0xffff ++ be16 objectId ++ be64 itemId
  | .index number objectId itemId key => be16 objectId ++ be16 number ++ key ++ be64 itemId
  | .reference toObjectId toItemId fromObjectId fromItemId =>
    be16 toObjectId ++ be64 toItemId ++ be16 fromObjectId ++ be64 fromItemId
  | .primaryKey objectId number key => be16 (objectId.getD 0xffff) ++ be16 number ++ key
  | .idCounter objectId => be16 objectId

def QueueClass.serialize : QueueClass → List UInt8
  | .message queueId => be64 queueId
  | .messageEvent event => be64 event.due ++ be64 event.queueId ++ event.queueName.toList
  | .quotaCount key => 0 :: key
  | .quotaSize key => 1 :: key

def SearchIndex.asU8 : SearchIndex → UInt8
  | .email => 0
  | .calendar => 1
  | .contacts => 2
  | .file => 3
  | .tracing => 4

def SearchIndexClass.serialize (index : SearchIndexClass) : List UInt8 :=
  match index.typ with
  | .term field hash =>
    match index.id with
    | .account accountId documentId =>
      [index.index.asU8] ++ be32 accountId ++ hash.payload ++ [hash[0], field] ++ be32 documentId
    | .global id => [index.index.asU8] ++ hash.payload ++ [hash[0], field] ++ be64 id
  | .index fieldId data =>
    match index.id with
    | .account accountId documentId =>
      [index.index.asU8 ||| (1 : UInt8) <<< 6] ++ be32 accountId ++ [fieldId] ++ data ++ be32 documentId
    | .global id => [index.index.asU8 ||| (1 : UInt8) <<< 6] ++ [fieldId] ++ data ++ be64 id
  | .document =>
    match index.id with
    | .account accountId documentId =>
      [index.index.asU8 ||| (2 : UInt8) <<< 6] ++ be32 accountId ++ be32 documentId
    | .global id => [index.index.asU8 ||| (2 : UInt8) <<< 6] ++ be64 id

def ValueClass.serialize (cls : ValueClass) (accountId : UInt32) (collection : UInt8)
    (documentId : UInt32) : List UInt8 :=
  match cls with
  | .property field => be32 accountId ++ [collection, field] ++ be32 documentId
  | .indexProperty index => index.serialize accountId collection documentId
  | .acl grantAccountId => be32 grantAccountId ++ be32 accountId ++ [collection] ++ be32 documentId
  | .taskQueue entry => entry.serialize
  | .blob op => op.serialize accountId collection documentId
  | .inMemory (.key key) => key
  | .inMemory (.counter key) => key
  | .registry entry => entry.serialize
  | .queue entry => entry.serialize
  | .telemetry (.span spanId) => be64 spanId
  | .telemetry (.metric metricId) => be64 metricId
  | .documentId => be32 accountId ++ [collection]
  | .changeId => be32 accountId
  | .quota => be32 accountId ++ [255]
  | .tenantQuota tenantId => be32 tenantId ++ [254]
  | .nodeId node => be32 0xffffffff ++ be16 node
  | .shareNotification notificationId notifyAccountId =>
    be32 notifyAccountId ++ [SyncCollection.shareNotification.toUInt8] ++ be64 notificationId
  | .searchIndex entry => entry.serialize
  | .any _ key => key

def RegistryClass.serializedSize : RegistryClass → Nat
  | .item .. => 2 + 8 + 1
  | .reference .. => (2 + 8) * 2 + 1
  | .index _ _ _ key => 2 * 2 + 8 + key.length + 1
  | .primaryKey _ _ key => 2 * 2 + key.length + 1
  | .indexId .. => 2 + 8 + 1
  | .idCounter _ => 2 + 1

def ValueClass.serializedSize : ValueClass → Nat
  | .property _ => 4 * 2 + 3
  | .indexProperty (.hash _ hash) => 4 * 2 + 3 + (min hash[0].toNat 15 + 1)
  | .indexProperty (.integer _ _) => 4 * 2 + 3 + 8
  | .acl _ => 4 * 3 + 2
  | .inMemory (.key key) | .inMemory (.counter key) => key.length
  | .registry entry => entry.serializedSize
  | .blob (.commit _) => 32
  | .blob (.link _ (.id _)) => 32 + 8
  | .blob (.link _ .document) => 32 + (4 * 2 + 1)
  | .blob (.link _ (.temporary _)) => 32 + (4 + 8)
  | .taskQueue _ => 8 * 2 + 1
  | .queue (.message _) => 8
  | .queue (.messageEvent _) => 8 * 3
  | .queue (.quotaCount key) | .queue (.quotaSize key) => key.length
  | .telemetry _ => 8 + 1
  | .documentId | .quota | .tenantQuota _ => 4 + 1
  | .changeId => 4
  | .shareNotification .. => 4 + 8 + 1
  | .nodeId _ => 2 * 3 + 1
  | .searchIndex ⟨_, _, .term _ hash⟩ => 8 + (min hash[0].toNat 15 + 1) + 2
  | .searchIndex ⟨_, _, .index _ data⟩ => 1 + data.length + 8
  | .searchIndex ⟨_, .account .., .document⟩ => 1 + 4 * 2
  | .searchIndex ⟨_, .global _, .document⟩ => 1 + 8
  | .any _ key => key.length

/-! ## Subspaces -/

inductive Subspace where
  | acl
  | taskQueue
  | indexes
  | blobLink
  | logs
  | counter
  | inMemoryValue
  | inMemoryCounter
  | property
  | registry
  | registryIdx
  | registryPk
  | directory
  | queueMessage
  | queueEvent
  | quota
  | reportOut
  | reportIn
  | telemetrySpan
  | telemetryMetric
  | searchIndex
  | deletedItems
  | spamSamples
  deriving DecidableEq

def Subspace.toUInt8 : Subspace → UInt8
  | .acl => 97
  | .taskQueue => 102
  | .indexes => 105
  | .blobLink => 107
  | .logs => 108
  | .counter => 110
  | .inMemoryValue => 109
  | .inMemoryCounter => 121
  | .property => 112
  | .registry => 115
  | .registryIdx => 98
  | .registryPk => 103
  | .directory => 100
  | .queueMessage => 101
  | .queueEvent => 113
  | .quota => 117
  | .reportOut => 104
  | .reportIn => 114
  | .telemetrySpan => 111
  | .telemetryMetric => 120
  | .searchIndex => 122
  | .deletedItems => 106
  | .spamSamples => 119

/-- Where an object of the registry is kept, by the number of its type. -/
def registrySubspace (objectId : UInt16) : Subspace :=
  -- accounts, domains, tenants, roles, clients, lists, masked addresses and public keys
  if objectId ∈ ([0, 37, 108, 83, 78, 50, 51, 80] : List UInt16) then .directory
  else if objectId = 12 then .deletedItems
  else if objectId = 102 then .spamSamples
  else if objectId = 112 then .telemetrySpan
  else if objectId = 54 then .telemetryMetric
  else if objectId ∈ ([13, 32, 109] : List UInt16) then .reportIn
  else if objectId ∈ ([33, 110] : List UInt16) then .reportOut
  else .registry

def mailboxCollection : UInt8 := 1

def mailboxCounterField : UInt8 := 84

def ValueClass.subspace (cls : ValueClass) (collection : UInt8) : UInt8 :=
  match cls with
  | .property field =>
    if collection = mailboxCollection ∧ field = mailboxCounterField then Subspace.counter.toUInt8
    else Subspace.property.toUInt8
  | .indexProperty _ => Subspace.property.toUInt8
  | .acl _ => Subspace.acl.toUInt8
  | .taskQueue _ => Subspace.taskQueue.toUInt8
  | .blob _ => Subspace.blobLink.toUInt8
  | .registry (.item objectId _) => (registrySubspace objectId).toUInt8
  | .registry (.indexId ..) | .registry (.index ..) => Subspace.registryIdx.toUInt8
  | .registry (.reference ..) | .registry (.primaryKey ..) => Subspace.registryPk.toUInt8
  | .registry (.idCounter _) => Subspace.counter.toUInt8
  | .nodeId _ => Subspace.registryPk.toUInt8
  | .inMemory (.key _) => Subspace.inMemoryValue.toUInt8
  | .inMemory (.counter _) => Subspace.inMemoryCounter.toUInt8
  | .queue (.message _) => Subspace.queueMessage.toUInt8
  | .queue (.messageEvent _) => Subspace.queueEvent.toUInt8
  | .queue (.quotaCount _) | .queue (.quotaSize _) => Subspace.quota.toUInt8
  | .telemetry (.span _) => Subspace.telemetrySpan.toUInt8
  | .telemetry (.metric _) => Subspace.telemetryMetric.toUInt8
  | .documentId | .changeId | .quota | .tenantQuota _ => Subspace.counter.toUInt8
  | .shareNotification .. => Subspace.logs.toUInt8
  | .searchIndex _ => Subspace.searchIndex.toUInt8
  | .any subspace _ => subspace

/-- Whether the key is made of the document that the batch has set. -/
def ValueClass.usesDocument : ValueClass → Bool
  | .property _ | .indexProperty _ | .acl _ | .blob (.link _ .document) => true
  | _ => false

theorem ValueClass.serialize_eq {cls : ValueClass} (h : cls.usesDocument = false)
    (accountId : UInt32) (collection : UInt8) (documentId documentId' : UInt32) :
    cls.serialize accountId collection documentId =
      cls.serialize accountId collection documentId' := by
  cases cls with
  | property | indexProperty | acl => cases h
  | blob op =>
    cases op with
    | commit => rfl
    | link hash target =>
      cases target with
      | document => cases h
      | id | temporary => rfl
  | inMemory lookup => cases lookup <;> rfl
  | telemetry telemetry => cases telemetry <;> rfl
  | _ => rfl

end Bearmail.Store
