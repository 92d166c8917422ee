import Bearmail.Store.Transaction

/-!
# RocksDB

`store/src/backend/rocksdb`: tables of bytes. A merge operand is added by the merge operator that the
families of the counters have; a value that it cannot be added to is not readable any more.
-/

namespace Bearmail.Store

inductive Cell where
  | bytes (bytes : List UInt8)
  | unreadable
  deriving DecidableEq

abbrev Kv := UInt8 → List UInt8 → Option Cell

namespace Kv

def put (kv : Kv) (subspace : UInt8) (key : List UInt8) (cell : Option Cell) : Kv :=
  fun subspace' key' => if subspace' = subspace ∧ key' = key then cell else kv subspace' key'

def get (kv : Kv) (subspace : UInt8) (key : List UInt8) : Except StoreError (Option (List UInt8)) :=
  match kv subspace key with
  | none => .ok none
  | some (.bytes bytes) => .ok (some bytes)
  | some .unreadable => .error .rocksDbError

theorem put_self (kv : Kv) (subspace : UInt8) (key : List UInt8) (cell : Option Cell) :
    kv.put subspace key cell subspace key = cell := if_pos ⟨rfl, rfl⟩

theorem put_of_ne (kv : Kv) {subspace subspace' : UInt8} {key key' : List UInt8}
    (h : ¬ (subspace' = subspace ∧ key' = key)) (cell : Option Cell) :
    kv.put subspace key cell subspace' key' = kv subspace' key' := if_neg h

end Kv

/-! ## Families -/

def counterFamilies : List UInt8 :=
  [Subspace.counter, .quota, .inMemoryCounter].map Subspace.toUInt8

def blobs : UInt8 := 116

/-- The families of before, of texts and of tags. -/
def legacyFamilies : List UInt8 := [118, 99]

def families : List UInt8 :=
  counterFamilies ++ [blobs] ++
    [Subspace.indexes, .acl, .taskQueue, .deletedItems, .blobLink, .inMemoryValue, .property,
      .registry, .queueMessage, .queueEvent, .reportOut, .reportIn, .logs, .telemetrySpan,
      .telemetryMetric, .searchIndex, .spamSamples, .registryIdx, .registryPk,
      .directory].map Subspace.toUInt8 ++
    legacyFamilies

def numericValueMerge (value : Option (List UInt8)) (operand : Int64) : Option (List UInt8) :=
  match value with
  | none => some (i64Bytes operand)
  | some bytes =>
    match deserializeI64 [] bytes with
    | .ok n => some (i64Bytes (n + operand))
    | .error _ => none

def mergeCell (cell : Option Cell) (operand : Int64) : Cell :=
  match cell with
  | none => (numericValueMerge none operand).elim .unreadable .bytes
  | some (.bytes bytes) => (numericValueMerge (some bytes) operand).elim .unreadable .bytes
  | some .unreadable => .unreadable

/-! ## The transaction -/

def incremented (key : List UInt8) (value : Option (List UInt8)) (amount : Int64) :
    Except StoreError Int64 :=
  match value with
  | some bytes => do
    let n ← deserializeI64 key bytes
    .ok (n + amount)
  | none => .ok amount

def rocksDbValue (subspace : UInt8) (key : List UInt8) (op : ValueOp) (ids : AssignedIds) (kv : Kv) :
    Except StoreError (AssignedIds × Kv) :=
  if subspace ∈ families then
    match op with
    | .set value => .ok (ids, kv.put subspace key (some (.bytes value)))
    | .setFnc fnc => do
      let value ← fnc ids
      .ok (ids, kv.put subspace key (some (.bytes value)))
    | .mergeFnc fnc => do
      let found ← kv.get subspace key
      match ← fnc ids found with
      | .update value => .ok (ids, kv.put subspace key (some (.bytes value)))
      | .delete => .ok (ids, kv.put subspace key none)
      | .skip => .ok (ids, kv)
    | .atomicAdd amount =>
      -- the other families have no merge operator
      if subspace ∈ counterFamilies then
        .ok (ids, kv.put subspace key (some (mergeCell (kv subspace key) amount)))
      else .error .rocksDbError
    | .addAndGet amount => do
      let found ← kv.get subspace key
      let n ← incremented key found amount
      .ok (ids.pushCounterId n, kv.put subspace key (some (.bytes (i64Bytes n))))
    | .clear => .ok (ids, kv.put subspace key none)
  else .error .panicked

/-- `RocksDBTransaction::commit`. The bytes of a change set list the ids of its sets in some order. -/
def rocksDb (xxh3 : List UInt8 → UInt64) (bytesOf : LogSet → List UInt8) : Backend Kv where
  assignChangeId key kv := do
    let found ← kv.get Subspace.counter.toUInt8 key
    let changeId ← incremented key found 1
    .ok (changeId.toUInt64, kv.put Subspace.counter.toUInt8 key (some (.bytes (i64Bytes changeId))))
  value := rocksDbValue
  index key set kv :=
    .ok (kv.put Subspace.indexes.toUInt8 key (if set then some (.bytes []) else none))
  log key set kv :=
    .ok (kv.put Subspace.logs.toUInt8 key.serialize (some (.bytes (bytesOf set))))
  assertValue subspace key value kv :=
    if subspace ∈ families then do
      let found ← kv.get subspace key
      .ok (found.elim value.isNone fun bytes => value.matchesBytes xxh3 bytes)
    else .error .panicked

end Bearmail.Store
