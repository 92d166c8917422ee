import Bearmail.Store.BatchBuilder

/-!
# Committing a batch

What `write` and `commit` of the backends have in common: change ids are assigned to the accounts that the
batch names, then the operations are done one by one, in the account, collection and document that those
before them have set.
-/

namespace Bearmail.Store

structure Context where
  accountId : UInt32
  collection : UInt8
  documentId : UInt32
  deriving DecidableEq

def Context.initial : Context := ⟨0xffffffff, 0xff, 0xffffffff⟩

def Operation.mark : Operation → Context → Context
  | .accountId account, context => { context with accountId := account }
  | .collection named, context => { context with collection := named.toUInt8 }
  | .documentId document, context => { context with documentId := document }
  | _, context => context

def Operation.isMarker : Operation → Bool
  | .accountId _ | .collection _ | .documentId _ => true
  | _ => false

def Operation.usesDocument : Operation → Bool
  | .value cls _ | .assertValue cls _ => cls.usesDocument
  | .index .. => true
  | _ => false

/-- The part of the context that the keys of an operation are made of. -/
def Operation.scope (op : Operation) (context : Context) : Context :=
  if op.usesDocument then context else { context with documentId := Context.initial.documentId }

theorem Operation.scope_eq {op : Operation} {context context' : Context}
    (haccount : context.accountId = context'.accountId)
    (hcollection : context.collection = context'.collection)
    (hdocument : op.usesDocument = true → context.documentId = context'.documentId) :
    op.scope context = op.scope context' := by
  obtain ⟨accountId, collection, documentId⟩ := context
  cases haccount
  cases hcollection
  cases huses : op.usesDocument with
  | false => simp [scope, huses]
  | true =>
    cases hdocument huses
    rfl

@[simp] theorem Operation.scope_accountId (op : Operation) (context : Context) :
    (op.scope context).accountId = context.accountId := by
  unfold scope
  split <;> rfl

/-! ## Assigned ids -/

namespace AssignedIds

def empty : AssignedIds := ⟨[], none⟩

def pushCounterId (ids : AssignedIds) (id : Int64) : AssignedIds :=
  { ids with ids := ids.ids ++ [.counter id] }

def pushChangeId (ids : AssignedIds) (accountId : UInt32) (changeId : UInt64) : AssignedIds :=
  { ids with ids := ids.ids ++ [.changeId accountId changeId] }

def changeIdOf (accountId : UInt32) : AssignedId → Option UInt64
  | .changeId account changeId => if account = accountId then some changeId else none
  | .counter _ => none

def lastChangeId (ids : AssignedIds) (accountId : UInt32) : Except StoreError UInt64 :=
  match (ids.ids.filterMap (changeIdOf accountId)).getLast? with
  | some changeId => .ok changeId
  | none => .error (.unexpectedError "No change ids were created")

def setCurrentChangeId (ids : AssignedIds) (accountId : UInt32) :
    Except StoreError (UInt64 × AssignedIds) := do
  let changeId ← ids.lastChangeId accountId
  .ok (changeId, { ids with currentChangeId := some changeId })

end AssignedIds

/-! ## Values -/

def i64Bytes (n : Int64) : List UInt8 := (be64 n.toUInt64).reverse

def deserializeI64 (key bytes : List UInt8) : Except StoreError Int64 :=
  if bytes.length = 8 then .ok (UInt64.ofNat (BigEndian.ofBytes bytes.reverse)).toInt64
  else .error (.dataCorruption key)

theorem deserializeI64_i64Bytes (key : List UInt8) (n : Int64) :
    deserializeI64 key (i64Bytes n) = .ok n := by
  simp [deserializeI64, i64Bytes, List.reverse_reverse, ofBytes_be64, Int64.toInt64_toUInt64]

def lastBytes (bytes : List UInt8) (count after : Nat) : Option (List UInt8) :=
  if count + after ≤ bytes.length then
    some ((bytes.drop (bytes.length - after - count)).take count)
  else none

def AssertValue.matchesBytes (xxh3 : List UInt8 → UInt64) (bytes : List UInt8) : AssertValue → Bool
  | .u32 value => lastBytes bytes 4 0 = Option.some (be32 value)
  | .u64 value => lastBytes bytes 8 0 = Option.some (be64 value)
  | .hash value => xxh3 bytes = value
  | .archive (.versioned _ digest) => lastBytes bytes 4 9 = Option.some (be32 digest)
  | .archive (.hashed digest) => lastBytes bytes 4 1 = Option.some (be32 digest)
  | .archive .unversioned => false
  | .none => false
  | .some => true

def AssertValue.isNone : AssertValue → Bool
  | .none => true
  | _ => false

/-! ## Backends -/

structure LogKey where
  accountId : UInt32
  collection : UInt8
  changeId : UInt64
  deriving DecidableEq

def LogKey.serialize (key : LogKey) : List UInt8 :=
  be32 key.accountId ++ [key.collection] ++ be64 key.changeId

def indexKey (context : Context) (field : UInt8) (key : List UInt8) : List UInt8 :=
  be32 context.accountId ++ [context.collection, field] ++ key ++ be32 context.documentId

/-- What a backend does in a transaction, with the state of its tables. -/
structure Backend (σ : Type) where
  assignChangeId : List UInt8 → σ → Except StoreError (UInt64 × σ)
  value : UInt8 → List UInt8 → ValueOp → AssignedIds → σ → Except StoreError (AssignedIds × σ)
  index : List UInt8 → Bool → σ → Except StoreError σ
  log : LogKey → LogSet → σ → Except StoreError σ
  assertValue : UInt8 → List UInt8 → AssertValue → σ → Except StoreError Bool

/-- The variables of a transaction, but for the context. -/
structure Txn (σ : Type) where
  changeId : UInt64
  ids : AssignedIds
  state : σ

namespace Backend

variable {σ : Type} (backend : Backend σ)

def assignAll : List UInt32 → AssignedIds → σ → Except StoreError (AssignedIds × σ)
  | [], ids, state => .ok (ids, state)
  | accountId :: rest, ids, state => do
    let (changeId, state) ← backend.assignChangeId (ValueClass.changeId.serialize accountId 0 0) state
    assignAll rest (ids.pushChangeId accountId changeId) state

def execute (hasChanges : Bool) (context : Context) (op : Operation) (txn : Txn σ) :
    Except StoreError (Txn σ) :=
  match op with
  | .accountId accountId =>
    if hasChanges then do
      let (changeId, ids) ← txn.ids.setCurrentChangeId accountId
      .ok { txn with changeId, ids }
    else .ok txn
  | .collection _ | .documentId _ => .ok txn
  | .value cls op => do
    let (ids, state) ← backend.value (cls.subspace context.collection)
      (cls.serialize context.accountId context.collection context.documentId) op txn.ids txn.state
    .ok { txn with ids, state }
  | .index field key set => do
    let state ← backend.index (indexKey context field key) set txn.state
    .ok { txn with state }
  | .log collection set => do
    let state ← backend.log ⟨context.accountId, collection.toUInt8, txn.changeId⟩ set txn.state
    .ok { txn with state }
  | .assertValue cls value => do
    let holds ← backend.assertValue (cls.subspace context.collection)
      (cls.serialize context.accountId context.collection context.documentId) value txn.state
    if holds then .ok txn else .error .assertValueFailed

def commit (batch : Batch) (state : σ) : Except StoreError (AssignedIds × σ) := do
  let (ids, state) ← backend.assignAll batch.changes.keys .empty state
  let txn ← Markers.loop Operation.mark (backend.execute !batch.changes.isEmpty) Context.initial
    batch.ops ⟨0, ids, state⟩
  .ok (txn.ids, txn.state)

def commitAll : List Batch → σ → Except StoreError σ
  | [], state => .ok state
  | batch :: rest, state => do
    let (_, state) ← backend.commit batch state
    commitAll rest state

theorem execute_scope (hasChanges : Bool) (context : Context) (op : Operation) (txn : Txn σ) :
    backend.execute hasChanges (op.scope context) op txn = backend.execute hasChanges context op txn := by
  cases op with
  | accountId | collection | documentId | log | index field key set => rfl
  | value cls op | assertValue cls value =>
    cases huses : cls.usesDocument with
    | true => simp [Operation.scope, Operation.usesDocument, huses]
    | false =>
      simp [Operation.scope, Operation.usesDocument, huses, execute,
        ValueClass.serialize_eq huses _ _ Context.initial.documentId context.documentId]

/-- The operations are executed one after the other, each in its scope of the context that those before it
have set. -/
theorem commit_eq (batch : Batch) (state : σ) :
    backend.commit batch state = (do
      let (ids, state) ← backend.assignAll batch.changes.keys .empty state
      let txn ← (Markers.trace Operation.mark Context.initial batch.ops).foldlM
        (fun txn entry => backend.execute (!batch.changes.isEmpty) (entry.2.scope entry.1) entry.2 txn)
        ⟨0, ids, state⟩
      .ok (txn.ids, txn.state)) := by
  simp [commit, Markers.loop_eq_foldlM, execute_scope]

end Backend

end Bearmail.Store
