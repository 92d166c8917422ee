import Bearmail.Store.ChangeSets

/-!
# Every change set in an entry of its own

The log entries that a builder is committed with. One transaction writes all change sets of an account and a
log under one key, and so do several when no change ids are assigned.
-/

namespace Bearmail.Store

open List

/-! ## Counted change ids -/

def Kv.countOf (kv : Kv) (accountId : UInt32) : UInt64 :=
  match kv Subspace.counter.toUInt8 (be32 accountId) with
  | some (.bytes bytes) =>
    match deserializeI64 [] bytes with
    | .ok n => n.toUInt64
    | .error _ => 0
  | _ => 0

theorem Kv.countOf_put_of_ne (kv : Kv) {subspace : UInt8} {key : List UInt8} {accountId : UInt32}
    (h : ¬ (subspace = Subspace.counter.toUInt8 ∧ key = be32 accountId)) (cell : Option Cell) :
    (kv.put subspace key cell).countOf accountId = kv.countOf accountId := by
  unfold countOf
  rw [put_of_ne]
  exact fun ⟨hsubspace, hkey⟩ => h ⟨hsubspace.symm, hkey.symm⟩

theorem Kv.countOf_put_self (kv : Kv) (accountId : UInt32) (n : Int64) :
    (kv.put Subspace.counter.toUInt8 (be32 accountId) (some (.bytes (i64Bytes n)))).countOf accountId =
      n.toUInt64 := by
  unfold countOf
  rw [put_self]
  dsimp only
  rw [deserializeI64_i64Bytes]

theorem lastChangeId_pushCounterId (ids : AssignedIds) (n : Int64) (accountId : UInt32) :
    (ids.pushCounterId n).lastChangeId accountId = ids.lastChangeId accountId := by
  unfold AssignedIds.lastChangeId AssignedIds.pushCounterId
  simp [AssignedIds.changeIdOf]

theorem rocksDbValue_eq_ok {subspace : UInt8} {key : List UInt8} {op : ValueOp}
    {ids ids' : AssignedIds} {kv kv' : Kv}
    (h : rocksDbValue subspace key op ids kv = .ok (ids', kv')) :
    (∀ account, ids'.lastChangeId account = ids.lastChangeId account) ∧
      (kv' = kv ∨ ∃ cell, kv' = kv.put subspace key cell) := by
  unfold rocksDbValue at h
  split at h
  · cases op with
    | set value =>
      cases h
      exact ⟨fun _ => rfl, .inr ⟨_, rfl⟩⟩
    | setFnc fnc =>
      obtain ⟨value, -, hnext⟩ := Fallible.bind_eq_ok.mp h
      cases hnext
      exact ⟨fun _ => rfl, .inr ⟨_, rfl⟩⟩
    | mergeFnc fnc =>
      obtain ⟨found, -, hmerge⟩ := Fallible.bind_eq_ok.mp h
      obtain ⟨result, -, hnext⟩ := Fallible.bind_eq_ok.mp hmerge
      cases result with
      | update value =>
        cases hnext
        exact ⟨fun _ => rfl, .inr ⟨_, rfl⟩⟩
      | skip =>
        cases hnext
        exact ⟨fun _ => rfl, .inl rfl⟩
      | delete =>
        cases hnext
        exact ⟨fun _ => rfl, .inr ⟨_, rfl⟩⟩
    | atomicAdd amount =>
      dsimp only at h
      split at h
      · cases h
        exact ⟨fun _ => rfl, .inr ⟨_, rfl⟩⟩
      · cases h
    | addAndGet amount =>
      obtain ⟨found, -, hadd⟩ := Fallible.bind_eq_ok.mp h
      obtain ⟨n, -, hnext⟩ := Fallible.bind_eq_ok.mp hadd
      cases hnext
      exact ⟨lastChangeId_pushCounterId ids n, .inr ⟨_, rfl⟩⟩
    | clear =>
      cases h
      exact ⟨fun _ => rfl, .inr ⟨_, rfl⟩⟩
  · cases h

theorem rocksDb_countsChanges (xxh3 : List UInt8 → UInt64) (bytesOf : LogSet → List UInt8) :
    (rocksDb xxh3 bytesOf).CountsChanges Kv.countOf where
  assign := by
    intro accountId changeId kv kv' h
    obtain ⟨found, hfound, h⟩ := Fallible.bind_eq_ok.mp h
    obtain ⟨n, hn, hnext⟩ := Fallible.bind_eq_ok.mp h
    cases hnext
    refine ⟨?_, kv.countOf_put_self accountId n, fun other hother =>
      kv.countOf_put_of_ne (fun heq => hother (be32_inj.mp heq.2).symm) _⟩
    unfold Kv.get at hfound
    unfold Kv.countOf
    cases hcell : kv Subspace.counter.toUInt8 (be32 accountId) with
    | none =>
      rw [hcell] at hfound
      cases hfound
      cases hn
      rfl
    | some cell =>
      rw [hcell] at hfound
      cases cell with
      | unreadable => cases hfound
      | bytes bytes =>
        cases hfound
        obtain ⟨last, hlast, hnext⟩ := Fallible.bind_eq_ok.mp hn
        cases hnext
        have hread : deserializeI64 [] bytes = .ok last := by
          unfold deserializeI64 at hlast ⊢
          split at hlast
          · rename_i hlength
            rw [if_pos hlength, hlast]
          · cases hlast
        dsimp only
        rw [hread]
        rfl
  value := by
    intro subspace key op ids ids' kv kv' h
    obtain ⟨hids, hkv⟩ := rocksDbValue_eq_ok h
    refine ⟨hids, fun hspares account => ?_⟩
    rcases hkv with rfl | ⟨cell, rfl⟩
    · rfl
    · exact kv.countOf_put_of_ne (hspares account) cell
  index := by
    intro key set kv kv' h account
    cases h
    exact kv.countOf_put_of_ne (fun heq => by cases heq.1) _
  log := by
    intro key set kv kv' h account
    cases h
    exact kv.countOf_put_of_ne (fun heq => by cases heq.1) _

/-! ## Accounts with changes -/

variable (builder : BatchBuilder) (accountId : UInt32)

namespace BatchBuilder

theorem withAccountId_changedCollections :
    (builder.withAccountId accountId).changedCollections = builder.changedCollections := by
  unfold withAccountId
  split <;> rfl

theorem withCollection_changedCollections (collection : Collection) :
    (builder.withCollection collection).changedCollections = builder.changedCollections := by
  unfold withCollection
  split <;> rfl

theorem serializeAccount_isEmpty (entry : UInt32 × ChangeLogBuilder) :
    (builder.serializeAccount entry).changedCollections.isEmpty =
      (builder.changedCollections.isEmpty && entry.2.changes.entries.isEmpty) := by
  have hcollections : ∀ (changes : List (SyncCollection × Changes)) (builder : BatchBuilder),
      (changes.foldl (serializeCollection entry.1) builder).changedCollections.isEmpty =
        (builder.changedCollections.isEmpty && changes.isEmpty) := by
    intro changes
    induction changes with
    | nil => exact fun builder => (Bool.and_true _).symm
    | cons first rest ih =>
      intro builder
      have hfirst : (builder.serializeCollection entry.1 first).changedCollections.isEmpty = false :=
        isEmpty_eq_false_iff.mpr (VecMap.entries_modify_ne_nil _ _ _ _)
      simp [foldl_cons, ih, hfirst, isEmpty_cons, Bool.and_false]
  have hvanished : ∀ (vanished : List (VanishedCollection × List VanishedItem))
      (builder : BatchBuilder), (vanished.foldl serializeVanished builder).changedCollections =
        builder.changedCollections := by
    intro vanished
    induction vanished with
    | nil => exact fun builder => rfl
    | cons first rest ih => exact fun builder => ih (builder.serializeVanished first)
  rw [serializeAccount, hvanished, hcollections, withAccountId_changedCollections]

theorem serializeChanges_isEmpty : builder.serializeChanges.changedCollections.isEmpty =
      (builder.changedCollections.isEmpty &&
        builder.changes.entries.all fun entry => entry.2.changes.entries.isEmpty) := by
  have hfold : ∀ (entries : List (UInt32 × ChangeLogBuilder)) (start : BatchBuilder),
      (entries.foldl serializeAccount start).changedCollections.isEmpty =
        (start.changedCollections.isEmpty &&
          entries.all fun entry => entry.2.changes.entries.isEmpty) := by
    intro entries
    induction entries with
    | nil => exact fun start => (Bool.and_true _).symm
    | cons entry rest ih =>
      intro start
      rw [foldl_cons, ih, serializeAccount_isEmpty, all_cons, Bool.and_assoc]
  exact hfold builder.changes.entries { builder with changes := .empty }

/-- What the operations of the change sets are like does not depend on the changes. -/
theorem forall_ops_serializeChanges {builder : BatchBuilder} {good : Operation → Prop}
    (haccount : ∀ accountId, good (.accountId accountId))
    (hlog : ∀ collection set, good (.log collection set)) (h : ∀ op ∈ builder.ops, good op) :
    ∀ op ∈ builder.serializeChanges.ops, good op := by
  have hfold : ∀ {ι : Type} (step : BatchBuilder → ι → BatchBuilder) (items : List ι),
      (∀ builder item, (∀ op ∈ builder.ops, good op) → ∀ op ∈ (step builder item).ops, good op) →
      ∀ start : BatchBuilder, (∀ op ∈ start.ops, good op) →
        ∀ op ∈ (items.foldl step start).ops, good op := by
    intro ι step items hstep
    induction items with
    | nil => exact fun start h => h
    | cons item rest ih => exact fun start h => ih _ (hstep start item h)
  have happend : ∀ {ops : List Operation} {op : Operation}, (∀ op ∈ ops, good op) → good op →
      ∀ op' ∈ ops ++ [op], good op' := fun hops hop =>
    forall_mem_append.mpr ⟨hops, forall_mem_singleton.mpr hop⟩
  refine hfold serializeAccount builder.changes.entries (fun builder entry hbuilder => ?_) _ h
  refine hfold serializeVanished _ (fun _ _ hstart => happend hstart (hlog _ _)) _ ?_
  refine hfold (serializeCollection entry.1) _ (fun _ _ hstart => happend hstart (hlog _ _)) _ ?_
  unfold withAccountId
  split
  · exact hbuilder
  · exact happend hbuilder (haccount _)

end BatchBuilder

theorem all_isEmpty_changesOf (filed : List (UInt32 × LogCall)) :
    ((changesOf filed).entries.all fun entry => entry.2.changes.entries.isEmpty) = true ↔
      ¬ ∃ entry ∈ filed, ∃ collection, entry.2.collection = .sync collection := by
  rw [all_eq_true]
  constructor
  · rintro hall ⟨entry, hentry, collection, hcollection⟩
    have hlog : (entry.1, LogCollection.sync collection) ∈ (setsOf filed).map logOf :=
      mem_logs_setsOf.mpr (mem_map.mpr ⟨entry, hentry, Prod.ext rfl hcollection⟩)
    obtain ⟨changelog, hlookup, hhas⟩ := mem_logs_changeSets.mp hlog
    have hempty := List.isEmpty_iff.mp (hall _ (VecMap.mem_entries_iff.mpr hlookup))
    obtain ⟨changes, hchanges, -⟩ := mem_map.mp hhas
    rw [hempty] at hchanges
    exact not_mem_nil hchanges
  · intro hnone account haccount
    rw [List.isEmpty_iff, eq_nil_iff_forall_not_mem]
    intro changes hchanges
    have hlog : (account.1, LogCollection.sync changes.1) ∈ (setsOf filed).map logOf :=
      mem_logs_changeSets.mpr ⟨account.2, VecMap.mem_entries_iff.mp haccount, mem_map_of_mem hchanges⟩
    obtain ⟨entry, hentry, heq⟩ := mem_map.mp (mem_logs_setsOf.mp hlog)
    exact hnone ⟨entry, hentry, changes.1, congrArg Prod.snd heq⟩

namespace Session

/-- A change of an item or a container is logged in a segment. -/
def HasChange (filed : List Filed) : Prop :=
  ∃ entry ∈ filed, ∃ collection, entry.change.collection = .sync collection

theorem hasChange_kept (filed : List Filed) :
    (∃ entry ∈ filed.map Filed.kept, ∃ collection, entry.2.collection = .sync collection) ↔
      HasChange filed := by
  simp [HasChange, Filed.kept]

variable {session : Session}

/-- The builder has accounts with changes once a share notification has been logged, or a change of a
segment that has ended. -/
structure Assigns (session : Session) : Prop where
  changed : session.builder.changedCollections.isEmpty = false ↔
    session.notified = true ∨ ∃ filed ∈ session.closed, HasChange filed
  spares : ∀ op ∈ session.builder.ops, op.sparesChangeIds = true

theorem isMarker_sparesChangeIds {op : Operation} (h : op.isMarker = true) :
    op.sparesChangeIds = true := by
  cases op with
  | value => cases h
  | _ => rfl

theorem plain_isEmpty {call : Call} (hplain : call.isPlain = true) :
    (builder.call call).changedCollections.isEmpty =
      (builder.changedCollections.isEmpty && !notifies call) := by
  have hdocument : ∀ change, (builder.logDocument change).changedCollections =
      builder.changedCollections := by
    intro change
    unfold BatchBuilder.logDocument
    split <;> rfl
  cases call with
  | withAccountId | withCollection | withDocument | commitPoint => cases hplain
  | logItemInsert | logItemUpdate | logItemDelete | logContainerInsert | logContainerUpdate
    | logContainerDelete =>
    show _ = (_ && !false)
    rw [Bool.not_false, Bool.and_true]
    exact congrArg VecMap.isEmpty (hdocument _)
  | logContainerPropertyChange collection documentId =>
    show (builder.logContainerPropertyChange collection documentId).changedCollections.isEmpty =
      (_ && !false)
    rw [Bool.not_false, Bool.and_true, BatchBuilder.logContainerPropertyChange]
    split <;> rfl
  | logVanishedItem collection item =>
    show (builder.logVanishedItem collection item).changedCollections.isEmpty = (_ && !false)
    rw [Bool.not_false, Bool.and_true, BatchBuilder.logVanishedItem]
    split <;> rfl
  | logShareNotification notificationId notifyAccountId value =>
    rw [notifies, Bool.not_true, Bool.and_false]
    exact isEmpty_eq_false_iff.mpr (VecMap.entries_modify_ne_nil _ _ _ _)
  | _ => exact (Bool.and_true _).symm

theorem Assigns.same (h : Assigns session) {call : Call} (hnotifies : notifies call = false)
    (hcuts : session.cuts call = false)
    (hchanged : (session.builder.call call).changedCollections = session.builder.changedCollections)
    {added : List Operation} (hops : (session.builder.call call).ops = session.builder.ops ++ added)
    (hadded : ∀ op ∈ added, op.sparesChangeIds = true) : Assigns (session.call call) where
  changed := by
    simpa only [Session.call, hchanged, hnotifies, hcuts, Bool.or_false, Bool.false_eq_true,
      if_false] using h.changed
  spares := by
    show ∀ op ∈ (session.builder.call call).ops, _
    rw [hops]
    exact forall_mem_append.mpr ⟨h.spares, hadded⟩

theorem Assigns.cut (h : Assigns session)
    (hchanges : session.builder.changes = changesOf (session.opened.map Filed.kept))
    (hlarge : session.builder.isLargeBatch = true) : Assigns (session.call .commitPoint) := by
  have hcuts : session.cuts .commitPoint = true := hlarge
  have hbuilder : (session.call .commitPoint).builder = _ :=
    BatchBuilder.commitPoint_of_large hlarge
  have hclosed : (session.call .commitPoint).closed = session.closed ++ [session.opened] :=
    if_pos hcuts
  have hnotified : (session.call .commitPoint).notified = session.notified := Bool.or_false _
  constructor
  · rw [hbuilder, hclosed, hnotified]
    show session.builder.serializeChanges.changedCollections.isEmpty = false ↔ _
    rw [BatchBuilder.serializeChanges_isEmpty, Bool.and_eq_false_iff, h.changed, hchanges,
      ← Bool.not_eq_true (List.all _ _), all_isEmpty_changesOf, not_not, hasChange_kept, or_assoc]
    simp [or_and_right, exists_or]
  · rw [hbuilder]
    refine forall_mem_append.mpr ⟨?_, fun op hop =>
      isMarker_sparesChangeIds (session.builder.cut.isMarker_resume op hop)⟩
    exact BatchBuilder.forall_ops_serializeChanges (fun _ => rfl) (fun _ _ => rfl) h.spares

theorem Assigns.call (h : Assigns session)
    (hchanges : session.builder.changes = changesOf (session.opened.map Filed.kept)) {call : Call}
    (hspares : ∀ op ∈ call.operation, op.sparesChangeIds = true) : Assigns (session.call call) := by
  cases hplain : call.isPlain with
  | true =>
    have hcuts : session.cuts call = false := by
      cases call with
      | commitPoint => cases hplain
      | _ => rfl
    constructor
    · show (session.builder.call call).changedCollections.isEmpty = false ↔ _
      rw [plain_isEmpty _ hplain, Bool.and_eq_false_iff, h.changed, Bool.not_eq_false']
      simp only [Session.call, hcuts, Bool.or_eq_true, Bool.false_eq_true, if_false]
      exact or_right_comm
    · show ∀ op ∈ (session.builder.call call).ops, _
      rw [(session.builder.plain_call hplain).ops]
      exact forall_mem_append.mpr ⟨h.spares, fun op hop => hspares op (Option.mem_toList.mp hop)⟩
  | false =>
    cases call with
    | withAccountId accountId =>
      obtain ⟨added, hmarks, -⟩ := session.builder.marks_withAccountId accountId
      exact h.same rfl rfl (session.builder.withAccountId_changedCollections accountId) hmarks.ops
        fun op hop => isMarker_sparesChangeIds (hmarks.markers op hop)
    | withCollection collection =>
      obtain ⟨added, hmarks, -⟩ := session.builder.marks_withCollection collection
      exact h.same rfl rfl (session.builder.withCollection_changedCollections collection) hmarks.ops
        fun op hop => isMarker_sparesChangeIds (hmarks.markers op hop)
    | withDocument documentId =>
      exact h.same rfl rfl rfl (session.builder.marks_withDocument documentId).ops
        (forall_mem_singleton.mpr rfl)
    | commitPoint =>
      cases hlarge : session.builder.isLargeBatch with
      | true => exact h.cut hchanges hlarge
      | false =>
        have hsame : session.builder.call .commitPoint = session.builder :=
          BatchBuilder.commitPoint_of_not_large hlarge
        exact h.same rfl hlarge (congrArg _ hsame)
          ((congrArg _ hsame).trans (List.append_nil _).symm) (forall_mem_nil _)
    | _ => cases hplain

theorem assigns_ofCalls {calls : List Call}
    (hspares : ∀ call ∈ calls, ∀ op ∈ call.operation, op.sparesChangeIds = true) (route : Route) :
    (∃ closed opened, (ofCalls calls).Follows False route closed opened) ∧
      Assigns (ofCalls calls) :=
  Runs.run_invariant
    (fun session => (∃ closed opened, session.Follows False route closed opened) ∧ Assigns session)
    (fun _ _ _ ⟨⟨_, _, hfollows⟩, hassigns⟩ hspares hstep => by
      cases hstep
      exact ⟨hfollows.call nofun, hassigns.call hfollows.changes hspares⟩)
    (Runs.along_of_forall hspares new)
    ⟨⟨_, _, .new False route⟩, ⟨by simp [new, BatchBuilder.new, VecMap.isEmpty], forall_mem_nil _⟩⟩
    (run_step new calls)

/-! ## The entries of a builder -/

def logKeyOf (put : LogPut) : UInt32 × UInt8 × LogSet := (put.1.accountId, put.1.collection, put.2)

/-- Every change set of the builder is written, and no two of them under the same key. -/
structure EntriesKept (session : Session) (puts : List LogPut) : Prop where
  written : puts.map logKeyOf =
    ((session.closed ++ [session.opened]).flatMap fun filed => setsOf (filed.map Filed.kept)).map
      fun set => (set.1, set.2.1.toUInt8, set.2.2)
  distinct : (puts.map Prod.fst).Nodup

/-- An item, a container or a share notification makes the transactions assign change ids. -/
def HasChanges (session : Session) : Prop :=
  session.notified = true ∨ ∃ filed ∈ session.closed ++ [session.opened], HasChange filed

/-- No account has changes of the same log in two segments. -/
def LogsApart (session : Session) : Prop :=
  (session.closed ++ [session.opened]).Pairwise fun filed filed' =>
    ∀ entry ∈ filed, ∀ entry' ∈ filed',
      (entry.account, entry.change.collection) ≠ (entry'.account, entry'.change.collection)

theorem logs_apart_iff (session : Session) :
    (((session.closed ++ [session.opened]).flatMap fun filed =>
      setsOf (filed.map Filed.kept)).map logOf).Nodup ↔ LogsApart session := by
  have hmap := nodup_flatMap_setsOf
    ((session.closed ++ [session.opened]).map fun filed => filed.map Filed.kept)
  rw [flatMap_map] at hmap
  rw [hmap, pairwise_map]
  simp only [forall_mem_map]
  exact Iff.rfl

theorem hasChanges_iff (h : Assigns session)
    (hchanges : session.builder.changes = changesOf (session.opened.map Filed.kept)) :
    (!session.builder.serializeChanges.changedCollections.isEmpty) = true ↔ HasChanges session := by
  rw [Bool.not_eq_true', BatchBuilder.serializeChanges_isEmpty, Bool.and_eq_false_iff, h.changed,
    hchanges, ← Bool.not_eq_true (List.all _ _), all_isEmpty_changesOf, not_not, hasChange_kept,
    or_assoc, HasChanges]
  simp [or_and_right, exists_or]

theorem map_logPuts (hasChanges : Bool) (counted : UInt32 → UInt64)
    (transactions : List (List ChangeSet)) :
    (Backend.logPuts hasChanges counted transactions).map logKeyOf =
      transactions.flatten.map fun set => (set.1, set.2.1.toUInt8, set.2.2) := by
  induction transactions generalizing counted with
  | nil => rfl
  | cons sets rest ih =>
    rw [Backend.logPuts, List.map_append, ih, map_map, flatten_cons, List.map_append]
    rfl

theorem nodup_transactions_iff (session : Session) (route : Route) {hasChanges : Bool}
    (hlength : session.closed.length < 2 ^ 64) (counted : UInt32 → UInt64) :
    ((Backend.logPuts hasChanges counted (session.transactions route)).map Prod.fst).Nodup ↔
      (route = .segments ∧ hasChanges = true) ∨ LogsApart session := by
  cases hasChanges with
  | false =>
    rw [Backend.logPuts_of_no_changes, nodup_keys_logPut, flatten_transactions, logs_apart_iff]
    simp
  | true =>
    cases route with
    | all =>
      rw [Backend.nodup_logPuts (Nat.succ_le_of_lt (by decide)), transactions,
        forall_mem_singleton, logs_apart_iff]
      simp
    | segments =>
      have hcount : (session.transactions .segments).length ≤ 2 ^ 64 := by
        rw [transactions, length_map, length_append]
        exact hlength
      rw [Backend.nodup_logPuts hcount]
      refine iff_of_true (fun sets hsets => ?_) (.inl ⟨rfl, rfl⟩)
      obtain ⟨filed, -, rfl⟩ := mem_map.mp hsets
      exact nodup_setsOf _

theorem entries_kept_iff (route : Route) {calls : List Call}
    (hspares : ∀ call ∈ calls, ∀ op ∈ call.operation, op.sparesChangeIds = true)
    (hlength : (ofCalls calls).closed.length < 2 ^ 64)
    (xxh3 : List UInt8 → UInt64) (bytesOf : LogSet → List UInt8) {kv kv' : Kv} {puts : List LogPut}
    (hcommit : (rocksDb xxh3 bytesOf).journaled.commitAll ((ofCalls calls).builder.batches route)
      (kv, []) = .ok (kv', puts)) :
    EntriesKept (ofCalls calls) puts ↔
      (route = .segments ∧ HasChanges (ofCalls calls)) ∨ LogsApart (ofCalls calls) := by
  obtain ⟨⟨closed, opened, hfollows⟩, hassigns⟩ := assigns_ofCalls hspares route
  obtain ⟨ended, hbatches, hflatten, hheaded, -, hlogs⟩ := hfollows.batches
  have hops : ∀ ops ∈ ended, ∀ op ∈ ops, op.sparesChangeIds = true := by
    intro ops hended op hop
    refine BatchBuilder.forall_ops_serializeChanges (fun _ => rfl) (fun _ _ => rfl) hassigns.spares op ?_
    rw [← hflatten]
    exact mem_flatten.mpr ⟨ops, hended, hop⟩
  rw [hbatches] at hcommit
  have hputs := Backend.commitAll_puts (rocksDb_countsChanges xxh3 bytesOf) hops hheaded hcommit
    fun _ _ => rfl
  rw [nil_append, hlogs] at hputs
  rw [← hasChanges_iff hassigns hfollows.changes,
    ← nodup_transactions_iff (ofCalls calls) route hlength kv.countOf]
  subst hputs
  exact ⟨EntriesKept.distinct, fun hdistinct =>
    ⟨by rw [map_logPuts, flatten_transactions], hdistinct⟩⟩

theorem entries_kept_iff_oneChange : ∃ kv puts,
    (rocksDb (fun _ => 0) fun _ => []).journaled.commitAll
        ((ofCalls [.withAccountId 1, .withDocument 7, .logItemUpdate .email none]).builder.batches
          .all) (fun _ _ => none, []) = .ok (kv, puts) ∧
      EntriesKept (ofCalls [.withAccountId 1, .withDocument 7, .logItemUpdate .email none]) puts := by
  obtain ⟨kv, puts, hcommit⟩ : ∃ kv puts,
      (rocksDb (fun _ => 0) fun _ => []).journaled.commitAll
        ((ofCalls [.withAccountId 1, .withDocument 7, .logItemUpdate .email none]).builder.batches
          .all) (fun _ _ => none, []) = .ok (kv, puts) := ⟨_, _, rfl⟩
  exact ⟨kv, puts, hcommit, (entries_kept_iff .all (by decide) (by decide) _ _ hcommit).mpr
    (.inr (pairwise_singleton _ _))⟩

/-- A large batch is cut between two changes of one document. -/
def updatedTwice (value : List UInt8) : List Call :=
  [.withAccountId 1, .withDocument 7, .logItemUpdate .email none, .set (.property 0) value,
    .commitPoint, .withDocument 7, .logItemUpdate .email none]

theorem commitAll_updatedTwice {value : List UInt8} (h : 5000000 < value.length) : ∃ kv set,
    (rocksDb (fun _ => 0) fun _ => []).journaled.commitAll
      ((ofCalls (updatedTwice value)).builder.batches .all) (fun _ _ => none, []) =
        .ok (kv, [(⟨1, 0, 1⟩, set), (⟨1, 0, 1⟩, set)]) := by
  have hlarge : (ofCalls ((updatedTwice value).take 4)).builder.isLargeBatch = true := by
    refine decide_eq_true (.inl ?_)
    show 5000000 < 0 + ((ValueClass.property 0).serializedSize + value.length)
    omega
  have hbuilder : (ofCalls (updatedTwice value)).builder =
      (((ofCalls ((updatedTwice value).take 4)).builder.commitPoint.withDocument 7).logItemUpdate
        .email none) := rfl
  rw [hbuilder, BatchBuilder.commitPoint, if_pos hlarge]
  exact ⟨_, _, rfl⟩

theorem entries_not_kept : ¬ ∀ (route : Route) (calls : List Call) (xxh3 : List UInt8 → UInt64)
    (bytesOf : LogSet → List UInt8) (kv kv' : Kv) (puts : List LogPut),
    (rocksDb xxh3 bytesOf).journaled.commitAll ((ofCalls calls).builder.batches route) (kv, []) =
      .ok (kv', puts) → EntriesKept (ofCalls calls) puts := by
  intro hclaim
  have hlong : 5000000 < (List.replicate 5000001 (0 : UInt8)).length := by
    rw [length_replicate]
    decide
  obtain ⟨kv, set, hcommit⟩ := commitAll_updatedTwice hlong
  have hkept := hclaim .all _ _ _ _ _ _ hcommit
  exact absurd hkept.distinct (by simp)

end Session

end Bearmail.Store
