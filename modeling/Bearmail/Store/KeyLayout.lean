import Bearmail.Store.ValueClass

/-!
# Which value a key names

A key has its numbers at both ends and bytes of any length in the middle, so the value
can be read back from the subspace and the bytes: `ValueKey.read_serialize`. Two kinds of
values are read as another: the entry of a task that is due at zero, as the task itself,
and a unique key of sixteen bytes, as a reference. No other two values of a subspace have
one key: `serialize_ne_iff`.
-/

namespace Bearmail.Store

open Option
open List (append_assoc append_inj cons_ne_nil drop_eq_nil_of_le drop_left drop_left'
  getD_eq_getElem?_getD headD_cons length_append length_take_of_le ne_nil_of_length_pos
  singleton_append tail_cons take_append_drop take_left take_left' take_succ_cons)

structure ValueKey where
  accountId : UInt32
  collection : UInt8
  documentId : UInt32
  cls : ValueClass
  deriving DecidableEq

namespace ValueKey

def serialize (key : ValueKey) : List UInt8 :=
  key.cls.serialize key.accountId key.collection key.documentId

def subspace (key : ValueKey) : UInt8 := key.cls.subspace key.collection

end ValueKey

def ValueClass.usesAccount : ValueClass → Bool
  | .property _ | .indexProperty _ | .acl _ | .blob (.link _ .document)
  | .blob (.link _ (.temporary _)) | .documentId | .changeId | .quota => true
  | _ => false

def ValueClass.usesCollection : ValueClass → Bool
  | .property _ | .indexProperty _ | .acl _ | .blob (.link _ .document) | .documentId => true
  | _ => false

/-- A key from a class alone has zeros for what the class does not use, as in
`From<ValueClass>`. -/
def ValueKey.named (key : ValueKey) : ValueKey where
  accountId := if key.cls.usesAccount then key.accountId else 0
  collection := if key.cls.usesCollection then key.collection else 0
  documentId := if key.cls.usesDocument then key.documentId else 0
  cls := key.cls

/-! ## Keys that are built -/

/-- Nothing but zeros follows the bytes of a short value. -/
def CheekyHash.Padded (hash : CheekyHash) : Prop :=
  ∀ (i : Nat) (h : i < 16), min hash[0].toNat 15 + 1 ≤ i → hash[i] = 0

def maxCollection : UInt8 := 14

def emailCollection : UInt8 := 0

def threadingField : UInt8 := 90

/-- The collections and properties that are indexed by a number: `EmailSubmission` and
`Metadata`, `ContactCard` and `CreatedToUpdated`, `CalendarEventNotification` and
`CreatedToId`. -/
def integerProperties : List (UInt8 × UInt8) := [(4, 49), (11, 2), (13, 0)]

def maxObjectType : UInt16 := 116

def maxProperty : UInt16 := 923

def SearchIndexId.isGlobal : SearchIndexId → Bool
  | .account .. => false
  | .global _ => true

/-- The numbers in a key are allocated ones. A raw key names no value of its own. -/
def ValueKey.Allocated (key : ValueKey) : Prop :=
  match key.cls with
  | .any .. => False
  | .indexProperty (.hash field hash) =>
    key.collection = emailCollection ∧ field = threadingField ∧ hash.Padded
  | .indexProperty (.integer field _) => (key.collection, field) ∈ integerProperties
  | .documentId => key.collection ≤ maxCollection
  | .registry (.index number objectId _ _) => objectId ≤ maxObjectType ∧ number ≤ maxProperty
  | .registry (.reference objectId _ fromId _) => objectId ≤ maxObjectType ∧ fromId ≤ maxObjectType
  | .registry (.primaryKey objectId number _) =>
    (∀ objectId' ∈ objectId, objectId' ≤ maxObjectType) ∧ number ≤ maxProperty
  | .searchIndex index =>
    (index.id.isGlobal = true ↔ index.index = .tracing) ∧
      match index.typ with
      | .term _ hash => hash.Padded
      | _ => True
  | _ => True

/-! ## Fields from both ends -/

def front16 (bytes : List UInt8) : UInt16 × List UInt8 :=
  (UInt16.ofNat (BigEndian.ofBytes (bytes.take 2)), bytes.drop 2)

def front32 (bytes : List UInt8) : UInt32 × List UInt8 :=
  (UInt32.ofNat (BigEndian.ofBytes (bytes.take 4)), bytes.drop 4)

def front64 (bytes : List UInt8) : UInt64 × List UInt8 :=
  (UInt64.ofNat (BigEndian.ofBytes (bytes.take 8)), bytes.drop 8)

def back32 (bytes : List UInt8) : List UInt8 × UInt32 :=
  (bytes.take (bytes.length - 4), (front32 (bytes.drop (bytes.length - 4))).1)

def back64 (bytes : List UInt8) : List UInt8 × UInt64 :=
  (bytes.take (bytes.length - 8), (front64 (bytes.drop (bytes.length - 8))).1)

theorem ofBytes_be16 (n : UInt16) : BigEndian.ofBytes (be16 n) = n.toNat :=
  BigEndian.ofBytes_toBytes_of_lt n.toNat_lt

variable (n : UInt32) (rest : List UInt8) (hash : CheekyHash) (index : SearchIndex)
  (accountId documentId : UInt32) (collection : UInt8) (typ : SearchIndexType)

theorem ofBytes_be32 : BigEndian.ofBytes (be32 n) = n.toNat :=
  BigEndian.ofBytes_toBytes_of_lt n.toNat_lt

@[simp] theorem front16_append (n : UInt16) (rest : List UInt8) :
    front16 (be16 n ++ rest) = (n, rest) := by
  simp [front16, take_left' (length_be16 n), drop_left' (length_be16 n), ofBytes_be16]

@[simp] theorem front32_append : front32 (be32 n ++ rest) = (n, rest) := by
  rw [front32, take_left' (length_be32 n), drop_left' (length_be32 n), ofBytes_be32, UInt32.ofNat_toNat]

@[simp] theorem front64_append (n : UInt64) (rest : List UInt8) :
    front64 (be64 n ++ rest) = (n, rest) := by
  simp [front64, take_left' (length_be64 n), drop_left' (length_be64 n), ofBytes_be64]

@[simp] theorem front16_be16 (n : UInt16) : front16 (be16 n) = (n, []) := by
  simpa only [List.append_nil] using front16_append n []

@[simp] theorem front32_be32 : front32 (be32 n) = (n, []) := by
  simpa only [List.append_nil] using front32_append n []

@[simp] theorem front64_be64 (n : UInt64) : front64 (be64 n) = (n, []) := by
  simpa only [List.append_nil] using front64_append n []

@[simp] theorem back32_append (front : List UInt8) (n : UInt32) :
    back32 (front ++ be32 n) = (front, n) := by
  simp [back32, front32_be32]

@[simp] theorem back64_append (front : List UInt8) (n : UInt64) :
    back64 (front ++ be64 n) = (front, n) := by
  simp [back64, front64_be64]

@[simp] theorem back32_be32 : back32 (be32 n) = ([], n) := back32_append [] n

/-! ## Reading a key -/

def CheekyHash.ofBytes (bytes : List UInt8) : CheekyHash := Vector.ofFn fun i => bytes.getD i 0

def ValueKey.ofClass (cls : ValueClass) : ValueKey := ⟨0, 0, 0, cls⟩

def readProperty (bytes : List UInt8) : Option ValueKey :=
  match front32 bytes with
  | (accountId, collection :: field :: rest) =>
    let (value, documentId) := back32 rest
    some ⟨accountId, collection, documentId,
      if value = [] then .property field
      else if collection = emailCollection ∧ field = threadingField then
        .indexProperty (.hash field (.ofBytes value))
      else .indexProperty (.integer field (front64 value).1)⟩
  | _ => none

def readAcl (bytes : List UInt8) : Option ValueKey :=
  let (grantAccountId, rest) := front32 bytes
  match front32 rest with
  | (accountId, collection :: rest) =>
    some ⟨accountId, collection, (front32 rest).1, .acl grantAccountId⟩
  | _ => none

/-- A task has zeros where an entry has the time that it is due at. -/
def readTaskQueue (bytes : List UInt8) : ValueKey :=
  let (time, rest) := front64 bytes
  let taskId := (front64 rest).1
  .ofClass (.taskQueue (if time = 0 then .task taskId else .due taskId time))

def readBlob (bytes : List UInt8) : ValueKey :=
  let hash : BlobHash := Vector.ofFn fun i => bytes.getD i 0
  let rest := bytes.drop 32
  if rest.length = 0 then .ofClass (.blob (.commit hash))
  else if rest.length = 8 then .ofClass (.blob (.link hash (.id (front64 rest).1)))
  else
    let (accountId, tail) := front32 rest
    if rest.length = 9 then
      ⟨accountId, tail.headD 0, (front32 tail.tail).1, .blob (.link hash .document)⟩
    else ⟨accountId, 0, 0, .blob (.link hash (.temporary (front64 tail).1))⟩

def readCounter (bytes : List UInt8) : Option ValueKey :=
  if bytes.length = 2 then some (.ofClass (.registry (.idCounter (front16 bytes).1)))
  else
    match front32 bytes with
    | (accountId, []) => some ⟨accountId, 0, 0, .changeId⟩
    | (accountId, [collection]) =>
      some (if collection = 255 then ⟨accountId, 0, 0, .quota⟩
        else if collection = 254 then .ofClass (.tenantQuota accountId)
        else ⟨accountId, collection, 0, .documentId⟩)
    | _ => readProperty bytes

def readItem (bytes : List UInt8) : ValueKey :=
  let (objectId, rest) := front16 bytes
  .ofClass (.registry (.item objectId (front64 rest).1))

def readRegistryIdx (bytes : List UInt8) : ValueKey :=
  let (objectId, rest) := front16 bytes
  let (number, rest) := front16 rest
  if objectId = 0xffff then .ofClass (.registry (.indexId number (front64 rest).1))
  else
    let (key, itemId) := back64 rest
    .ofClass (.registry (.index number objectId itemId key))

def readReference (objectId : UInt16) (bytes : List UInt8) : RegistryClass :=
  let (toItemId, rest) := front64 bytes
  let (fromObjectId, rest) := front16 rest
  .reference objectId toItemId fromObjectId (front64 rest).1

def readRegistryPk (bytes : List UInt8) : ValueKey :=
  let (objectId, rest) := front16 bytes
  let (number, key) := front16 rest
  if objectId = 0xffff then
    if number = 0xffff then .ofClass (.nodeId (front16 key).1)
    else .ofClass (.registry (.primaryKey none number key))
  else if rest.length = 18 then .ofClass (.registry (readReference objectId rest))
  else .ofClass (.registry (.primaryKey (some objectId) number key))

def readQuota : List UInt8 → Option ValueKey
  | 0 :: key => some (.ofClass (.queue (.quotaCount key)))
  | 1 :: key => some (.ofClass (.queue (.quotaSize key)))
  | _ => none

def readQueueEvent (bytes : List UInt8) : ValueKey :=
  let (time, rest) := front64 bytes
  let (queueId, name) := front64 rest
  .ofClass (.queue (.messageEvent ⟨time, queueId, Vector.ofFn fun i => name.getD i 0⟩))

def readNotification (bytes : List UInt8) : ValueKey :=
  let (notifyAccountId, rest) := front32 bytes
  .ofClass (.shareNotification (front64 rest.tail).1 notifyAccountId)

def SearchIndex.ofU8 (number : UInt8) : SearchIndex :=
  if number = 0 then .email
  else if number = 1 then .calendar
  else if number = 2 then .contacts
  else if number = 3 then .file
  else .tracing

def readTerm (bytes : List UInt8) : SearchIndexType :=
  match bytes.reverse with
  | field :: length :: payload => .term field (.ofBytes (length :: payload.reverse))
  | _ => .document

def readMiddle (bits : UInt8) (middle : List UInt8) : SearchIndexType :=
  if bits = 0 then readTerm middle
  else if bits = (1 : UInt8) <<< 6 then .index (middle.headD 0) middle.tail
  else .document

/-- The two highest bits of the first byte are the kind of key. -/
def readSearchIndex : List UInt8 → Option ValueKey
  | first :: rest =>
    let index := SearchIndex.ofU8 (first &&& 63)
    let (middle, searchId) :=
      if index = .tracing then
        let (middle, number) := back64 rest
        (middle, SearchIndexId.global number)
      else
        let (accountId, rest) := front32 rest
        let (middle, documentId) := back32 rest
        (middle, SearchIndexId.account accountId documentId)
    some (.ofClass (.searchIndex ⟨index, searchId, readMiddle (first &&& 192) middle⟩))
  | [] => none

def ValueKey.read (subspace : Subspace) (bytes : List UInt8) : Option ValueKey :=
  match subspace with
  | .acl => readAcl bytes
  | .taskQueue => some (readTaskQueue bytes)
  | .blobLink => some (readBlob bytes)
  | .counter => readCounter bytes
  | .property => readProperty bytes
  | .registryIdx => some (readRegistryIdx bytes)
  | .registryPk => some (readRegistryPk bytes)
  | .quota => readQuota bytes
  | .queueEvent => some (readQueueEvent bytes)
  | .queueMessage => some (.ofClass (.queue (.message (front64 bytes).1)))
  | .logs => some (readNotification bytes)
  | .searchIndex => readSearchIndex bytes
  | .inMemoryValue => some (.ofClass (.inMemory (.key bytes)))
  | .inMemoryCounter => some (.ofClass (.inMemory (.counter bytes)))
  | .telemetrySpan =>
    if bytes.length = 8 then some (.ofClass (.telemetry (.span (front64 bytes).1)))
    else some (readItem bytes)
  | .telemetryMetric =>
    if bytes.length = 8 then some (.ofClass (.telemetry (.metric (front64 bytes).1)))
    else some (readItem bytes)
  | .registry | .directory | .deletedItems | .spamSamples | .reportIn | .reportOut =>
    some (readItem bytes)
  | .indexes => none

/-! ## What is read -/

/-- The value that has the bytes of a class: they are shared by the two kinds of pairs. -/
def ValueClass.seen : ValueClass → ValueClass
  | .taskQueue (.due taskId time) =>
    if time = 0 then .taskQueue (.task taskId) else .taskQueue (.due taskId time)
  | .registry (.primaryKey (some objectId) number key) =>
    if key.length = 16 then .registry (readReference objectId (be16 number ++ key))
    else .registry (.primaryKey (some objectId) number key)
  | cls => cls

theorem CheekyHash.getElem?_asBytes (i : Nat) :
    hash.asBytes[i]? = if i < min hash.first.toNat 15 + 1 then hash.toList[i]? else none := by
  rw [asBytes, List.getElem?_take, first]

theorem CheekyHash.ofBytes_asBytes {hash : CheekyHash} (h : hash.Padded) :
    ofBytes hash.asBytes = hash := by
  apply Vector.ext
  intro i hi
  rw [ofBytes, Vector.getElem_ofFn, getD_eq_getElem?_getD, getElem?_asBytes]
  split
  · have hlength : i < hash.toList.length := by rwa [Vector.length_toList]
    simp [List.getElem?_eq_getElem hlength, Vector.getElem_toList]
  · rename_i hge
    exact (h i hi (Nat.le_of_not_lt hge)).symm

theorem CheekyHash.asBytes_eq : hash.asBytes = hash.first :: hash.payload := by
  have htoList : hash.toList = hash[0] :: hash.toList.tail := by
    have hlength : hash.toList.length = 16 := Vector.length_toList
    cases hlist : hash.toList with
    | nil =>
      rw [hlist] at hlength
      cases hlength
    | cons first rest =>
      have hfirst : hash[0] = first := by
        rw [← Vector.getElem_toList (by rw [hlength]; decide)]
        simp [hlist]
      rw [hfirst, tail_cons]
  rw [asBytes, payload, htoList, take_succ_cons, tail_cons, first]

theorem readProperty_property (field : UInt8) :
    readProperty (be32 accountId ++ [collection, field] ++ be32 documentId) =
      some ⟨accountId, collection, documentId, .property field⟩ := by
  simp [readProperty]

theorem readProperty_hash {hash : CheekyHash} (h : hash.Padded) :
    readProperty (be32 accountId ++ [emailCollection, threadingField] ++ hash.asBytes ++
      be32 documentId) = some ⟨accountId, emailCollection, documentId,
        .indexProperty (.hash threadingField hash)⟩ := by
  have hne : hash.asBytes ≠ [] := by
    rw [hash.asBytes_eq]
    exact cons_ne_nil _ _
  simp [readProperty, hne, CheekyHash.ofBytes_asBytes h]

theorem readProperty_integer {collection field : UInt8}
    (h : (collection, field) ∈ integerProperties) (value : UInt64) :
    readProperty (be32 accountId ++ [collection, field] ++ be64 value ++ be32 documentId) =
      some ⟨accountId, collection, documentId, .indexProperty (.integer field value)⟩ := by
  have hne : be64 value ≠ [] := ne_nil_of_length_pos (by rw [length_be64]; omega)
  have hhash : ¬ (collection = emailCollection ∧ field = threadingField) := by
    rintro ⟨rfl, rfl⟩
    exact absurd h (by decide)
  simp [readProperty, hne, hhash]

theorem readAcl_acl (grantAccountId accountId documentId : UInt32) (collection : UInt8) :
    readAcl (be32 grantAccountId ++ be32 accountId ++ [collection] ++ be32 documentId) =
      some ⟨accountId, collection, documentId, .acl grantAccountId⟩ := by
  simp [readAcl]

theorem readTaskQueue_serialize (entry : TaskQueueClass) :
    readTaskQueue entry.serialize = .ofClass (ValueClass.taskQueue entry).seen := by
  cases entry with
  | task taskId => simp [readTaskQueue, TaskQueueClass.serialize, ValueClass.seen]
  | due taskId time =>
    simp only [readTaskQueue, TaskQueueClass.serialize, ValueClass.seen, front64_append, front64_be64]
    split <;> rfl

theorem ofFn_getD_toList {n : Nat} (values : Vector UInt8 n) (rest : List UInt8) :
    (Vector.ofFn fun i => (values.toList ++ rest).getD i 0 : Vector UInt8 n) = values := by
  apply Vector.ext
  intro i hi
  have hlength : i < values.toList.length := by rwa [Vector.length_toList]
  simp [Vector.getElem_ofFn, getD_eq_getElem?_getD, List.getElem?_append_left hlength,
    List.getElem?_eq_getElem hlength, Vector.getElem_toList]

theorem readBlob_serialize (op : BlobOp) (accountId documentId : UInt32) (collection : UInt8) :
    readBlob (op.serialize accountId collection documentId) =
      { ValueKey.named ⟨accountId, collection, documentId, .blob op⟩ with cls := .blob op } := by
  have hdrop (hash : BlobHash) (rest : List UInt8) : (hash.toList ++ rest).drop 32 = rest :=
    drop_left' Vector.length_toList
  cases op with
  | commit hash =>
    have hhash := ofFn_getD_toList hash []
    have hrest := hdrop hash []
    rw [List.append_nil] at hhash hrest
    simp only [readBlob, BlobOp.serialize, hhash, hrest]
    rfl
  | link hash target =>
    cases target with
    | id linkId =>
      simp only [readBlob, BlobOp.serialize, ofFn_getD_toList, hdrop, length_be64, front64_be64]
      rfl
    | document =>
      simp only [readBlob, BlobOp.serialize, append_assoc, ofFn_getD_toList, hdrop,
        length_append, length_be32, front32_append,
        singleton_append, headD_cons, tail_cons, front32_be32]
      rfl
    | temporary till =>
      simp only [readBlob, BlobOp.serialize, append_assoc, ofFn_getD_toList, hdrop,
        length_append, length_be32, length_be64, front32_append, front64_be64]
      rfl

theorem readCounter_idCounter (objectId : UInt16) : readCounter (be16 objectId) =
    some (.ofClass (.registry (.idCounter objectId))) := by
  simp [readCounter]

theorem readCounter_changeId : readCounter (be32 accountId) = some ⟨accountId, 0, 0, .changeId⟩ := by
  simp [readCounter]

theorem readCounter_singleton : readCounter (be32 accountId ++ [collection]) =
      some (if collection = 255 then ⟨accountId, 0, 0, .quota⟩
        else if collection = 254 then .ofClass (.tenantQuota accountId)
        else ⟨accountId, collection, 0, .documentId⟩) := by
  simp [readCounter]

theorem readCounter_property (field : UInt8) :
    readCounter (be32 accountId ++ [collection, field] ++ be32 documentId) =
      some ⟨accountId, collection, documentId, .property field⟩ := by
  rw [← readProperty_property]
  simp [readCounter]

theorem readItem_item (objectId : UInt16) (itemId : UInt64) : readItem (be16 objectId ++ be64 itemId) =
      .ofClass (.registry (.item objectId itemId)) := by
  simp [readItem]

theorem readRegistryIdx_indexId (objectId : UInt16) (itemId : UInt64) :
    readRegistryIdx (be16 0xffff ++ be16 objectId ++ be64 itemId) =
      .ofClass (.registry (.indexId objectId itemId)) := by
  simp [readRegistryIdx]

variable {objectId : UInt16} {bytes : List UInt8}

theorem ne_none_objectId (h : objectId ≤ maxObjectType) : objectId ≠ 0xffff := by
  rintro rfl
  exact absurd h (by decide)

theorem readRegistryIdx_index (h : objectId ≤ maxObjectType) (number : UInt16) (itemId : UInt64)
    (key : List UInt8) :
    readRegistryIdx (be16 objectId ++ be16 number ++ key ++ be64 itemId) =
      .ofClass (.registry (.index number objectId itemId key)) := by
  simp [readRegistryIdx, ne_none_objectId h]

theorem readRegistryPk_nodeId (node : UInt16) :
    readRegistryPk (be32 0xffffffff ++ be16 node) = .ofClass (.nodeId node) := by
  have hnone : be32 0xffffffff = be16 0xffff ++ be16 0xffff := by decide
  simp [readRegistryPk, hnone]

theorem readReference_append (objectId fromObjectId : UInt16) (toItemId fromItemId : UInt64) :
    readReference objectId (be64 toItemId ++ (be16 fromObjectId ++ be64 fromItemId)) =
      .reference objectId toItemId fromObjectId fromItemId := by
  simp [readReference]

theorem readRegistryPk_reference (h : objectId ≤ maxObjectType) (fromObjectId : UInt16)
    (toItemId fromItemId : UInt64) :
    readRegistryPk (be16 objectId ++ be64 toItemId ++ be16 fromObjectId ++ be64 fromItemId) =
      .ofClass (.registry (.reference objectId toItemId fromObjectId fromItemId)) := by
  simp [readRegistryPk, ne_none_objectId h, readReference_append]

theorem readRegistryPk_global {number : UInt16} (h : number ≤ maxProperty) (key : List UInt8) :
    readRegistryPk (be16 0xffff ++ be16 number ++ key) =
      .ofClass (.registry (.primaryKey none number key)) := by
  have hnumber : number ≠ 0xffff := by
    rintro rfl
    exact absurd h (by decide)
  simp [readRegistryPk, hnumber]

theorem readRegistryPk_primaryKey (h : objectId ≤ maxObjectType) (number : UInt16) (key : List UInt8) :
    readRegistryPk (be16 objectId ++ be16 number ++ key) =
      .ofClass (ValueClass.registry (.primaryKey (some objectId) number key)).seen := by
  have hlength : 2 + key.length = 18 ↔ key.length = 16 := by omega
  simp only [readRegistryPk, append_assoc, front16_append, if_neg (ne_none_objectId h),
    length_append, length_be16, hlength, ValueClass.seen]
  split <;> rfl

theorem readQueueEvent_serialize (event : QueueEvent) :
    readQueueEvent (be64 event.due ++ be64 event.queueId ++ event.queueName.toList) =
      .ofClass (.queue (.messageEvent event)) := by
  have hname := ofFn_getD_toList event.queueName []
  rw [List.append_nil] at hname
  simp only [readQueueEvent, append_assoc, front64_append, hname]

theorem readNotification_append (notifyAccountId : UInt32) (code : UInt8) (notificationId : UInt64) :
    readNotification (be32 notifyAccountId ++ [code] ++ be64 notificationId) =
      .ofClass (.shareNotification notificationId notifyAccountId) := by
  simp [readNotification]

/-! ### The search index -/

theorem readTerm_append (h : hash.Padded) (field : UInt8) :
    readTerm (hash.payload ++ [hash.first, field]) = .term field hash := by
  have hbytes := CheekyHash.ofBytes_asBytes h
  rw [hash.asBytes_eq] at hbytes
  simp [readTerm, hbytes]

def SearchIndexType.bits : SearchIndexType → UInt8
  | .term .. => 0
  | .index .. => (1 : UInt8) <<< 6
  | .document => (2 : UInt8) <<< 6

theorem SearchIndexType.bits_cases (typ : SearchIndexType) : typ.bits = 0 ∨ typ.bits = 64 ∨ typ.bits = 128 := by
  cases typ with
  | term => exact .inl rfl
  | index => exact .inr (.inl rfl)
  | document => exact .inr (.inr rfl)

theorem SearchIndex.ofU8_or : SearchIndex.ofU8 ((index.asU8 ||| typ.bits) &&& 63) = index := by
  rcases typ.bits_cases with h | h | h <;> rw [h] <;> cases index <;> decide

theorem SearchIndexType.bits_or : (index.asU8 ||| typ.bits) &&& 192 = typ.bits := by
  rcases typ.bits_cases with h | h | h <;> rw [h] <;> cases index <;> decide

/-- What is between the account and the document. -/
def SearchIndexType.middle : SearchIndexType → List UInt8
  | .term field hash => hash.payload ++ [hash.first, field]
  | .index field data => field :: data
  | .document => []

theorem SearchIndexClass.serialize_account : serialize ⟨index, .account accountId documentId, typ⟩ =
      (index.asU8 ||| typ.bits) :: (be32 accountId ++ (typ.middle ++ be32 documentId)) := by
  cases typ <;> simp [serialize, SearchIndexType.bits, SearchIndexType.middle, CheekyHash.first]

theorem SearchIndexClass.serialize_global (number : UInt64) (typ : SearchIndexType) : serialize ⟨index, .global number, typ⟩ =
      (index.asU8 ||| typ.bits) :: (typ.middle ++ be64 number) := by
  cases typ <;> simp [serialize, SearchIndexType.bits, SearchIndexType.middle, CheekyHash.first]

theorem readMiddle_middle {typ : SearchIndexType}
    (h : match typ with
      | .term _ hash => hash.Padded
      | _ => True) : readMiddle typ.bits typ.middle = typ := by
  cases typ with
  | term field hash => exact readTerm_append hash h field
  | index field data | document => rfl

theorem readSearchIndex_serialize {index : SearchIndexClass}
    (hglobal : index.id.isGlobal = true ↔ index.index = .tracing)
    (hpadded : match index.typ with
      | .term _ hash => hash.Padded
      | _ => True) :
    readSearchIndex index.serialize = some (.ofClass (.searchIndex index)) := by
  obtain ⟨index, searchId, typ⟩ := index
  cases searchId with
  | account accountId documentId =>
    have hindex : index ≠ .tracing := fun heq => nomatch hglobal.mpr heq
    rw [SearchIndexClass.serialize_account]
    simp [readSearchIndex, SearchIndex.ofU8_or, SearchIndexType.bits_or, if_neg hindex,
      front32_append, back32_append, readMiddle_middle hpadded]
  | global number =>
    have hindex : index = .tracing := hglobal.mp rfl
    rw [SearchIndexClass.serialize_global]
    simp [readSearchIndex, SearchIndex.ofU8_or, SearchIndexType.bits_or, if_pos hindex,
      back64_append, readMiddle_middle hpadded]

/-! ### Every class -/

def ValueKey.seen (key : ValueKey) : ValueKey := { key.named with cls := key.cls.seen }

theorem ValueKey.read_item (objectId : UInt16) (itemId : UInt64) :
    read (registrySubspace objectId) (be16 objectId ++ be64 itemId) =
      some (.ofClass (.registry (.item objectId itemId))) := by
  have hlength : (be16 objectId ++ be64 itemId).length = 10 := by simp
  unfold registrySubspace
  split_ifs <;> simp [read, hlength, readItem_item]

theorem ValueKey.read_serialize {key : ValueKey} (h : key.Allocated) : ∃ subspace : Subspace,
      key.subspace = subspace.toUInt8 ∧ read subspace key.serialize = some key.seen := by
  obtain ⟨accountId, collection, documentId, cls⟩ := key
  cases cls with
  | property field =>
    by_cases hcounter : collection = mailboxCollection ∧ field = mailboxCounterField
    · exact ⟨.counter, if_pos hcounter, readCounter_property _ _ _ _⟩
    · exact ⟨.property, if_neg hcounter, readProperty_property _ _ _ _⟩
  | indexProperty property =>
    cases property with
    | hash field hash =>
      obtain ⟨rfl, rfl, hpadded⟩ := h
      exact ⟨.property, rfl, readProperty_hash _ _ hpadded⟩
    | integer field value => exact ⟨.property, rfl, readProperty_integer _ _ h _⟩
  | acl grantAccountId => exact ⟨.acl, rfl, readAcl_acl _ _ _ _⟩
  | taskQueue entry =>
    exact ⟨.taskQueue, rfl, congrArg some (readTaskQueue_serialize entry)⟩
  | blob op => exact ⟨.blobLink, rfl, congrArg some (readBlob_serialize op _ _ _)⟩
  | inMemory lookup =>
    cases lookup with
    | key bytes => exact ⟨.inMemoryValue, rfl, rfl⟩
    | counter bytes => exact ⟨.inMemoryCounter, rfl, rfl⟩
  | registry entry =>
    cases entry with
    | item objectId itemId => exact ⟨registrySubspace objectId, rfl, read_item _ _⟩
    | indexId objectId itemId =>
      exact ⟨.registryIdx, rfl, congrArg some (readRegistryIdx_indexId _ _)⟩
    | index number objectId itemId bytes =>
      exact ⟨.registryIdx, rfl, congrArg some (readRegistryIdx_index h.1 _ _ _)⟩
    | reference toObjectId toItemId fromObjectId fromItemId =>
      exact ⟨.registryPk, rfl, congrArg some (readRegistryPk_reference h.1 _ _ _)⟩
    | primaryKey objectId number bytes =>
      refine ⟨.registryPk, rfl, congrArg some ?_⟩
      cases objectId with
      | none => exact readRegistryPk_global h.2 _
      | some objectId => exact readRegistryPk_primaryKey (h.1 objectId rfl) _ _
    | idCounter objectId => exact ⟨.counter, rfl, readCounter_idCounter _⟩
  | queue entry =>
    cases entry with
    | message queueId =>
      refine ⟨.queueMessage, rfl, ?_⟩
      show some (ValueKey.ofClass (.queue (.message (front64 (be64 queueId)).1))) = _
      rw [front64_be64]
      rfl
    | messageEvent event =>
      exact ⟨.queueEvent, rfl, congrArg some (readQueueEvent_serialize event)⟩
    | quotaCount bytes | quotaSize bytes => exact ⟨.quota, rfl, rfl⟩
  | telemetry entry =>
    cases entry with
    | span spanId =>
      refine ⟨.telemetrySpan, rfl, ?_⟩
      simp only [read, serialize, ValueClass.serialize, length_be64, front64_be64, if_true]
      rfl
    | metric metricId =>
      refine ⟨.telemetryMetric, rfl, ?_⟩
      simp only [read, serialize, ValueClass.serialize, length_be64, front64_be64, if_true]
      rfl
  | searchIndex index => exact ⟨.searchIndex, rfl, readSearchIndex_serialize h.1 h.2⟩
  | any subspace bytes => exact h.elim
  | shareNotification notificationId notifyAccountId =>
    exact ⟨.logs, rfl, congrArg some (readNotification_append _ _ _)⟩
  | documentId =>
    have hquota : collection ≠ 255 := by
      rintro rfl
      exact (show ¬ (255 : UInt8) ≤ maxCollection by decide) h
    have htenant : collection ≠ 254 := by
      rintro rfl
      exact (show ¬ (254 : UInt8) ≤ maxCollection by decide) h
    refine ⟨.counter, rfl, (readCounter_singleton accountId collection).trans ?_⟩
    rw [if_neg hquota, if_neg htenant]
    rfl
  | changeId => exact ⟨.counter, rfl, readCounter_changeId accountId⟩
  | quota => exact ⟨.counter, rfl, readCounter_singleton accountId 255⟩
  | tenantQuota tenantId => exact ⟨.counter, rfl, readCounter_singleton tenantId 254⟩
  | nodeId node => exact ⟨.registryPk, rfl, congrArg some (readRegistryPk_nodeId node)⟩

/-! ## Two values with one key -/

/-- Pairs that have the same bytes: the entry of a task that is due at zero and the task,
and a unique key and a reference to the same type whose numbers the key spells. -/
inductive Aliased : ValueClass → ValueClass → Prop where
  | due (taskId : UInt64) : Aliased (.taskQueue (.due taskId 0)) (.taskQueue (.task taskId))
  | primaryKey {number fromObjectId : UInt16} {toItemId fromItemId : UInt64} {key : List UInt8}
    (objectId : UInt16)
    (h : be16 number ++ key = be64 toItemId ++ (be16 fromObjectId ++ be64 fromItemId)) :
    Aliased (.registry (.primaryKey (some objectId) number key))
      (.registry (.reference objectId toItemId fromObjectId fromItemId))

theorem Aliased.serialize_eq {cls cls' : ValueClass} (h : Aliased cls cls')
    (accountId accountId' documentId documentId' : UInt32) (collection collection' : UInt8) :
    cls.serialize accountId collection documentId =
      cls'.serialize accountId' collection' documentId' := by
  cases h with
  | due taskId => rfl
  | primaryKey objectId h =>
    simp only [ValueClass.serialize, RegistryClass.serialize, append_assoc, getD_some]
    rw [h]

theorem be64_front64 (h : 8 ≤ bytes.length) : be64 (front64 bytes).1 ++ (front64 bytes).2 = bytes := by
  have hlength : (bytes.take 8).length = 8 := length_take_of_le h
  have hlt : BigEndian.ofBytes (bytes.take 8) < 2 ^ 64 :=
    lt_of_lt_of_eq (BigEndian.ofBytes_lt _) (by rw [hlength]; rfl)
  have hbytes := BigEndian.toBytes_ofBytes (bytes.take 8)
  rw [hlength] at hbytes
  rw [be64, front64, UInt64.toNat_ofNat_of_lt' hlt, hbytes, take_append_drop]

theorem be16_front16 (h : 2 ≤ bytes.length) : be16 (front16 bytes).1 ++ (front16 bytes).2 = bytes := by
  have hlength : (bytes.take 2).length = 2 := length_take_of_le h
  have hlt : BigEndian.ofBytes (bytes.take 2) < 2 ^ 16 :=
    lt_of_lt_of_eq (BigEndian.ofBytes_lt _) (by rw [hlength]; rfl)
  have hbytes := BigEndian.toBytes_ofBytes (bytes.take 2)
  rw [hlength] at hbytes
  rw [be16, front16, UInt16.toNat_ofNat_of_lt' hlt, hbytes, take_append_drop]

theorem exists_readReference (objectId : UInt16) (h : bytes.length = 18) :
    ∃ (toItemId : UInt64) (fromObjectId : UInt16) (fromItemId : UInt64),
      bytes = be64 toItemId ++ (be16 fromObjectId ++ be64 fromItemId) ∧
        readReference objectId bytes = .reference objectId toItemId fromObjectId fromItemId := by
  let rest := (front64 bytes).2
  let last := (front16 rest).2
  have hrest : rest.length = 10 := by
    simp [rest, front64, h]
  have hlast : last.length = 8 := by
    simp [last, front16, hrest]
  have hnone : (front64 last).2 = [] := drop_eq_nil_of_le hlast.le
  have hend := be64_front64 hlast.ge
  rw [hnone, List.append_nil] at hend
  refine ⟨(front64 bytes).1, (front16 rest).1, (front64 last).1, ?_, rfl⟩
  rw [hend, be16_front16 (by omega), be64_front64 (by omega)]

theorem ValueClass.seen_eq_or (cls : ValueClass) : cls.seen = cls ∨ Aliased cls cls.seen := by
  unfold seen
  split
  · split
    · rename_i hzero
      exact .inr (hzero ▸ .due _)
    · exact .inl rfl
  · rename_i objectId number key
    split
    · rename_i hlength
      have hbytes : (be16 number ++ key).length = 18 := by
        simp [length_be16, hlength]
      obtain ⟨toItemId, fromObjectId, fromItemId, hbytes, hread⟩ :=
        exists_readReference objectId hbytes
      rw [hread]
      exact .inr (.primaryKey objectId hbytes)
    · exact .inl rfl
  · exact .inl rfl

theorem Aliased.left_inj {cls cls' target : ValueClass} (h : Aliased cls target)
    (h' : Aliased cls' target) : cls = cls' := by
  cases h with
  | due taskId =>
    cases h'
    rfl
  | primaryKey objectId h =>
    cases h' with
    | primaryKey _ h' =>
      obtain ⟨hnumber, rfl⟩ := append_inj (h.trans h'.symm) (by simp [length_be16])
      rw [be16_inj.mp hnumber]

theorem ValueKey.named_eq {key key' : ValueKey} (hseen : key.seen = key'.seen)
    (hcls : key.cls = key'.cls) : key.named = key'.named := by
  calc key.named = { key.seen with cls := key.cls } := rfl
    _ = { key'.seen with cls := key'.cls } := by rw [hseen, hcls]
    _ = key'.named := rfl

theorem Subspace.toUInt8_inj {subspace subspace' : Subspace}
    (h : subspace.toUInt8 = subspace'.toUInt8) : subspace = subspace' := by
  cases subspace <;> cases subspace' <;> first | rfl | exact absurd h (by decide)

/-- Two values of a subspace have different keys but for the pairs that have the same bytes. -/
theorem serialize_ne_iff {key key' : ValueKey} (hkey : key.Allocated) (hkey' : key'.Allocated)
    (hsubspace : key.subspace = key'.subspace) (hne : key.named ≠ key'.named) :
    key.serialize ≠ key'.serialize ↔
      ¬ Aliased key.cls key'.cls ∧ ¬ Aliased key'.cls key.cls := by
  constructor
  · intro hbytes
    exact ⟨fun h => hbytes (h.serialize_eq _ _ _ _ _ _),
      fun h => hbytes (h.serialize_eq _ _ _ _ _ _).symm⟩
  · rintro ⟨hnot, hnot'⟩ hbytes
    obtain ⟨subspace, htable, hread⟩ := ValueKey.read_serialize hkey
    obtain ⟨subspace', htable', hread'⟩ := ValueKey.read_serialize hkey'
    obtain rfl : subspace = subspace' :=
      Subspace.toUInt8_inj (htable.symm.trans (hsubspace.trans htable'))
    have hseen : key.seen = key'.seen := by
      rw [hbytes, hread', some_inj] at hread
      exact hread.symm
    have hcls : key.cls.seen = key'.cls.seen := congrArg ValueKey.cls hseen
    rcases key.cls.seen_eq_or with hsame | halias
    · rcases key'.cls.seen_eq_or with hsame' | halias'
      · exact hne (ValueKey.named_eq hseen (hsame.symm.trans (hcls.trans hsame')))
      · rw [← hcls, hsame] at halias'
        exact hnot' halias'
    · rcases key'.cls.seen_eq_or with hsame' | halias'
      · rw [hcls, hsame'] at halias
        exact hnot halias
      · rw [hcls] at halias
        exact hne (ValueKey.named_eq hseen (halias.left_inj halias'))

theorem serialize_ne_quotas : ValueKey.serialize ⟨7, 0, 0, .quota⟩ ≠
    ValueKey.serialize (.ofClass (.tenantQuota 7)) :=
  (@serialize_ne_iff ⟨7, 0, 0, .quota⟩ (.ofClass (.tenantQuota 7)) trivial trivial rfl
    (by decide)).mpr ⟨nofun, nofun⟩

/-- A task that is due at the start of 1970 is lost to its own entry. -/
theorem serialize_due_zero :
    let task := ValueKey.ofClass (.taskQueue (.task 1))
    let due := ValueKey.ofClass (.taskQueue (.due 1 0))
    task.Allocated ∧ due.Allocated ∧ task.subspace = due.subspace ∧ task.named ≠ due.named ∧
      task.serialize = due.serialize :=
  ⟨trivial, trivial, rfl, by decide, rfl⟩

end Bearmail.Store
