import Bearmail.Lib.Fallible
import Bearmail.Store.Executed

/-!
# The log entries of commits

The entries that the commits of some batches write, in a journal beside the state of the backend, and the
change ids they are written under: an account gets the next one in every transaction.
-/

namespace Bearmail.Store

open Markers (after trace)
open List

abbrev LogPut := LogKey × LogSet

namespace Backend

variable {σ : Type}

def journaled (backend : Backend σ) : Backend (σ × List LogPut) where
  assignChangeId key state := do
    let (changeId, tables) ← backend.assignChangeId key state.1
    .ok (changeId, tables, state.2)
  value subspace key op ids state := do
    let (ids, tables) ← backend.value subspace key op ids state.1
    .ok (ids, tables, state.2)
  index key set state := do
    let tables ← backend.index key set state.1
    .ok (tables, state.2)
  log key set state := do
    let tables ← backend.log key set state.1
    .ok (tables, state.2 ++ [(key, set)])
  assertValue subspace key value state := backend.assertValue subspace key value state.1

def forget (txn : Txn (σ × List LogPut)) : Txn σ := ⟨txn.changeId, txn.ids, txn.state.1⟩

theorem journaled_execute (backend : Backend σ) (hasChanges : Bool) (context : Context)
    (op : Operation) (txn : Txn (σ × List LogPut)) :
    (backend.journaled.execute hasChanges context op txn).map forget =
      backend.execute hasChanges context op (forget txn) := by
  cases op with
  | accountId accountId =>
    cases hasChanges with
    | false => rfl
    | true =>
      simp only [execute, forget, if_true]
      cases txn.ids.setCurrentChangeId accountId <;> rfl
  | collection | documentId => rfl
  | value cls op =>
    simp only [execute, journaled, forget]
    cases backend.value (cls.subspace context.collection)
      (cls.serialize context.accountId context.collection context.documentId) op txn.ids
      txn.state.1 <;> rfl
  | index field key set =>
    simp only [execute, journaled, forget]
    cases backend.index (indexKey context field key) set txn.state.1 <;> rfl
  | log collection set =>
    simp only [execute, journaled, forget]
    cases backend.log ⟨context.accountId, collection.toUInt8, txn.changeId⟩ set txn.state.1 <;> rfl
  | assertValue cls value =>
    simp only [execute, journaled, forget]
    cases backend.assertValue (cls.subspace context.collection)
      (cls.serialize context.accountId context.collection context.documentId) value
      txn.state.1 with
    | error => rfl
    | ok holds => cases holds <;> rfl

theorem journaled_assignAll (backend : Backend σ) (accounts : List UInt32) (ids : AssignedIds)
    (state : σ × List LogPut) :
    (backend.journaled.assignAll accounts ids state).map (fun result => (result.1, result.2.1)) =
      backend.assignAll accounts ids state.1 := by
  induction accounts generalizing ids state with
  | nil => rfl
  | cons accountId rest ih =>
    simp only [assignAll, journaled]
    cases hassign : backend.assignChangeId (ValueClass.changeId.serialize accountId 0 0) state.1 with
    | error => rfl
    | ok assigned => exact ih (ids.pushChangeId accountId assigned.1) (assigned.2, state.2)

theorem journaled_loop (backend : Backend σ) (hasChanges : Bool) (context : Context)
    (ops : List Operation) (txn : Txn (σ × List LogPut)) :
    (Markers.loop Operation.mark (backend.journaled.execute hasChanges) context ops txn).map forget =
      Markers.loop Operation.mark (backend.execute hasChanges) context ops (forget txn) := by
  induction ops generalizing context txn with
  | nil => rfl
  | cons op rest ih =>
    rw [Markers.loop, Markers.loop, ← journaled_execute]
    cases backend.journaled.execute hasChanges context op txn with
    | error => rfl
    | ok next => exact ih (op.mark context) next

theorem journaled_commit (backend : Backend σ) (batch : Batch) (state : σ × List LogPut) :
    (backend.journaled.commit batch state).map (fun result => (result.1, result.2.1)) =
      backend.commit batch state.1 := by
  unfold commit
  rw [← journaled_assignAll]
  cases backend.journaled.assignAll batch.changes.keys .empty state with
  | error => rfl
  | ok assigned =>
    obtain ⟨ids, state⟩ := assigned
    have hloop := backend.journaled_loop (!batch.changes.isEmpty) Context.initial batch.ops
    show Except.map _ (Markers.loop Operation.mark _ _ _ _ >>= _) =
      (Markers.loop Operation.mark _ _ _ (forget ⟨0, ids, state⟩) >>= _)
    rw [← hloop]
    cases Markers.loop Operation.mark (backend.journaled.execute !batch.changes.isEmpty)
      Context.initial batch.ops ⟨0, ids, state⟩ <;> rfl

theorem journaled_commitAll (backend : Backend σ) (batches : List Batch) (state : σ × List LogPut) :
    (backend.journaled.commitAll batches state).map Prod.fst = backend.commitAll batches state.1 := by
  induction batches generalizing state with
  | nil => rfl
  | cons batch rest ih =>
    rw [commitAll, commitAll, ← journaled_commit]
    cases backend.journaled.commit batch state with
    | error => rfl
    | ok result => exact ih result.2

end Backend

/-! ## Change ids -/

def ValueClass.sparesChangeIds : ValueClass → Bool
  | .changeId => false
  | .any subspace _ => !decide (subspace = Subspace.counter.toUInt8)
  | _ => true

def Operation.sparesChangeIds : Operation → Bool
  | .value cls _ => cls.sparesChangeIds
  | _ => true

theorem ValueClass.serialize_ne {cls : ValueClass} (h : cls.sparesChangeIds = true)
    {collection : UInt8} (hcounter : cls.subspace collection = Subspace.counter.toUInt8)
    (accountId documentId account : UInt32) :
    cls.serialize accountId collection documentId ≠ be32 account := by
  intro heq
  have hlength := congrArg List.length heq
  cases cls with
  | changeId => cases h
  | any subspace key =>
    exact absurd hcounter (show subspace ≠ _ by simpa [sparesChangeIds] using h)
  | property | documentId | quota | tenantQuota => simp [serialize, be32] at hlength
  | registry entry =>
    cases entry with
    | idCounter => simp [serialize, RegistryClass.serialize, be16, be32] at hlength
    | item objectId itemId =>
      have hsubspace : registrySubspace objectId ≠ .counter := by
        unfold registrySubspace
        repeat' split
        all_goals decide
      revert hcounter
      show (registrySubspace objectId).toUInt8 = _ → False
      cases hplace : registrySubspace objectId <;> first | exact absurd hplace hsubspace | decide
    | reference | index | indexId | primaryKey => cases hcounter
  | inMemory lookup => cases lookup <;> cases hcounter
  | queue queue => cases queue <;> cases hcounter
  | telemetry telemetry => cases telemetry <;> cases hcounter
  | _ => cases hcounter

/-- A backend counts the change ids of every account, and nothing else changes the counts. -/
structure Backend.CountsChanges {σ : Type} (backend : Backend σ) (count : σ → UInt32 → UInt64) :
    Prop where
  assign : ∀ {accountId : UInt32} {changeId : UInt64} {state state' : σ},
    backend.assignChangeId (be32 accountId) state = .ok (changeId, state') →
      changeId = count state accountId + 1 ∧ count state' accountId = changeId ∧
        ∀ other, other ≠ accountId → count state' other = count state other
  value : ∀ {subspace : UInt8} {key : List UInt8} {op : ValueOp} {ids ids' : AssignedIds}
    {state state' : σ}, backend.value subspace key op ids state = .ok (ids', state') →
      (∀ account, ids'.lastChangeId account = ids.lastChangeId account) ∧
        ((∀ account, ¬ (subspace = Subspace.counter.toUInt8 ∧ key = be32 account)) →
          ∀ account, count state' account = count state account)
  index : ∀ {key : List UInt8} {set : Bool} {state state' : σ},
    backend.index key set state = .ok state' → ∀ account, count state' account = count state account
  log : ∀ {key : LogKey} {set : LogSet} {state state' : σ},
    backend.log key set state = .ok state' → ∀ account, count state' account = count state account

def logPut (idOf : UInt32 → UInt64) (set : ChangeSet) : LogPut :=
  (⟨set.1, set.2.1.toUInt8, idOf set.1⟩, set.2.2)

variable {context : Context} {account : Option UInt32} {ids : AssignedIds}

namespace Backend

variable {σ : Type} {backend : Backend σ} {count : σ → UInt32 → UInt64} {hasChanges : Bool}
  {idOf : UInt32 → UInt64}

structure Numbered (hasChanges : Bool) (idOf : UInt32 → UInt64) (context : Context)
    (account : Option UInt32) (txn : Txn (σ × List LogPut)) : Prop where
  context : context.accountId = account.getD Context.initial.accountId
  assigned : hasChanges = true → ∀ account changeId,
    txn.ids.lastChangeId account = .ok changeId → changeId = idOf account
  unassigned : hasChanges = false → txn.changeId = 0 ∧ ∀ account, idOf account = 0
  current : ∀ accountId, account = some accountId → txn.changeId = idOf accountId ∧
    (hasChanges = true → ∃ changeId, txn.ids.lastChangeId accountId = .ok changeId)

/-- What a step leaves as it is, but for the journal. -/
structure Keeps (count : σ → UInt32 → UInt64) (txn txn' : Txn (σ × List LogPut)) : Prop where
  count : ∀ account, count txn'.state.1 account = count txn.state.1 account
  ids : ∀ account, txn'.ids.lastChangeId account = txn.ids.lastChangeId account

variable {txn txn' : Txn (σ × List LogPut)}

theorem Numbered.keeps (h : Numbered hasChanges idOf context account txn) (hkeeps : Keeps count txn txn')
    (hchangeId : txn'.changeId = txn.changeId) : Numbered hasChanges idOf context account txn' where
  context := h.context
  assigned hchanges accountId changeId hid :=
    h.assigned hchanges accountId changeId ((hkeeps.ids accountId).symm.trans hid)
  unassigned hnone := ⟨hchangeId.trans (h.unassigned hnone).1, (h.unassigned hnone).2⟩
  current accountId haccount := by
    obtain ⟨hcurrent, hassigned⟩ := h.current accountId haccount
    rw [hchangeId, hkeeps.ids]
    exact ⟨hcurrent, hassigned⟩

theorem setCurrentChangeId_eq_ok {ids' : AssignedIds} {accountId : UInt32} {changeId : UInt64}
    (h : ids.setCurrentChangeId accountId = .ok (changeId, ids')) :
    ids.lastChangeId accountId = .ok changeId ∧
      ∀ account, ids'.lastChangeId account = ids.lastChangeId account := by
  unfold AssignedIds.setCurrentChangeId at h
  cases hlast : ids.lastChangeId accountId with
  | error e =>
    rw [hlast] at h
    cases h
  | ok last =>
    rw [hlast] at h
    cases h
    exact ⟨rfl, fun _ => rfl⟩

theorem Numbered.quiet {op : Operation} (h : Numbered hasChanges idOf context account txn)
    (hmark : (op.mark context).accountId = context.accountId)
    (haccount : op.markAccount account = account) (hlogs : logsOf [(context, op)] = [])
    (hkeeps : Keeps count txn txn') (hchangeId : txn'.changeId = txn.changeId)
    (hputs : txn'.state.2 = txn.state.2) :
    Numbered hasChanges idOf (op.mark context) (op.markAccount account) txn' ∧ Keeps count txn txn' ∧
      txn'.state.2 = txn.state.2 ++ (logsOf [(context, op)]).map (logPut idOf) ∧
      (hasChanges = true → ∀ set ∈ logsOf [(context, op)],
        ∃ changeId, txn.ids.lastChangeId set.1 = .ok changeId) := by
  have hnumbered := h.keeps hkeeps hchangeId
  rw [haccount, hlogs]
  exact ⟨⟨hmark.trans hnumbered.context, hnumbered.assigned, hnumbered.unassigned, hnumbered.current⟩,
    hkeeps, hputs.trans (List.append_nil _).symm, fun _ => forall_mem_nil _⟩

theorem execute_numbered (hcounts : backend.CountsChanges count) {op : Operation}
    (h : Numbered hasChanges idOf context account txn)
    (hspares : op.sparesChangeIds = true)
    (hheaded : ∀ collection set, op = .log collection set → account.isSome = true)
    (hexecute : backend.journaled.execute hasChanges context op txn = .ok txn') :
    Numbered hasChanges idOf (op.mark context) (op.markAccount account) txn' ∧ Keeps count txn txn' ∧
      txn'.state.2 = txn.state.2 ++ (logsOf [(context, op)]).map (logPut idOf) ∧
      (hasChanges = true → ∀ set ∈ logsOf [(context, op)],
        ∃ changeId, txn.ids.lastChangeId set.1 = .ok changeId) := by
  have hrefl : Keeps count txn txn := ⟨fun _ => rfl, fun _ => rfl⟩
  cases op with
  | accountId accountId =>
    cases hchanges : hasChanges with
    | false =>
      rw [hchanges] at hexecute h
      cases hexecute
      have hzero := h.unassigned rfl
      refine ⟨⟨rfl, (by simp), fun _ => hzero, ?_⟩, hrefl, (List.append_nil _).symm, (by simp)⟩
      rintro _ ⟨⟩
      exact ⟨hzero.1.trans (hzero.2 accountId).symm, (by simp)⟩
    | true =>
      rw [hchanges] at hexecute h
      obtain ⟨⟨changeId, ids⟩, hset, hnext⟩ := Fallible.bind_eq_ok.mp hexecute
      cases hnext
      obtain ⟨hlast, hsame⟩ := setCurrentChangeId_eq_ok hset
      have hid := h.assigned rfl accountId changeId hlast
      refine ⟨⟨rfl, fun _ account changeId hother => ?_, (by simp), ?_⟩, ⟨fun _ => rfl, hsame⟩,
        (List.append_nil _).symm, fun _ => forall_mem_nil _⟩
      · exact h.assigned rfl account changeId ((hsame account).symm.trans hother)
      · rintro _ ⟨⟩
        exact ⟨hid, fun _ => ⟨changeId, (hsame accountId).trans hlast⟩⟩
  | collection named | documentId document =>
    cases hexecute
    exact h.quiet rfl rfl rfl hrefl rfl rfl
  | value cls op =>
    obtain ⟨result, hresult, hnext⟩ := Fallible.bind_eq_ok.mp hexecute
    obtain ⟨⟨ids, tables⟩, hvalue, hjournal⟩ := Fallible.bind_eq_ok.mp hresult
    cases hjournal
    cases hnext
    obtain ⟨hids, hcount⟩ := hcounts.value hvalue
    exact h.quiet rfl rfl rfl ⟨hcount fun account hkey =>
      ValueClass.serialize_ne hspares hkey.1 _ _ account hkey.2, hids⟩ rfl rfl
  | index field key set =>
    obtain ⟨result, hresult, hnext⟩ := Fallible.bind_eq_ok.mp hexecute
    obtain ⟨tables, hindex, hjournal⟩ := Fallible.bind_eq_ok.mp hresult
    cases hjournal
    cases hnext
    exact h.quiet rfl rfl rfl ⟨hcounts.index hindex, fun _ => rfl⟩ rfl rfl
  | log collection set =>
    obtain ⟨result, hresult, hnext⟩ := Fallible.bind_eq_ok.mp hexecute
    obtain ⟨tables, hlog, hjournal⟩ := Fallible.bind_eq_ok.mp hresult
    cases hjournal
    cases hnext
    obtain ⟨accountId, haccount⟩ := Option.isSome_iff_exists.mp (hheaded collection set rfl)
    obtain ⟨hcurrent, hassigned⟩ := h.current accountId haccount
    have hcontext : context.accountId = accountId := by
      rw [h.context, haccount]
      rfl
    have hkeeps : Keeps count txn ⟨txn.changeId, txn.ids, tables,
        txn.state.2 ++ [(⟨context.accountId, collection.toUInt8, txn.changeId⟩, set)]⟩ :=
      ⟨hcounts.log hlog, fun _ => rfl⟩
    have hlogs : logsOf [(context, .log collection set)] = [(accountId, collection, set)] := by
      rw [← hcontext]
      rfl
    refine ⟨h.keeps hkeeps rfl, hkeeps, ?_, fun hchanges => ?_⟩
    · rw [hlogs, hcontext, hcurrent]
      rfl
    · rw [hlogs]
      exact forall_mem_singleton.mpr (hassigned hchanges)
  | assertValue cls value =>
    obtain ⟨holds, -, hnext⟩ := Fallible.bind_eq_ok.mp hexecute
    cases holds with
    | false => cases hnext
    | true =>
      cases hnext
      exact h.quiet rfl rfl rfl hrefl rfl rfl

theorem loop_numbered (hcounts : backend.CountsChanges count) {ops : List Operation}
    (h : Numbered hasChanges idOf context account txn)
    (hspares : ∀ op ∈ ops, op.sparesChangeIds = true)
    (hheaded : ∀ entry ∈ trace Operation.markAccount account ops, ∀ collection set,
      entry.2 = .log collection set → entry.1.isSome = true)
    (hloop : Markers.loop Operation.mark (backend.journaled.execute hasChanges) context ops txn =
      .ok txn') :
    Keeps count txn txn' ∧ txn'.state.2 = txn.state.2 ++
        (logsOf (trace Operation.mark context ops)).map (logPut idOf) ∧
      (hasChanges = true → ∀ set ∈ logsOf (trace Operation.mark context ops),
        ∃ changeId, txn.ids.lastChangeId set.1 = .ok changeId) := by
  induction ops generalizing context account txn with
  | nil =>
    cases hloop
    exact ⟨⟨fun _ => rfl, fun _ => rfl⟩, (List.append_nil _).symm, fun _ => forall_mem_nil _⟩
  | cons op rest ih =>
    obtain ⟨next, hexecute, hrest⟩ := Fallible.bind_eq_ok.mp hloop
    obtain ⟨hop, hheaded⟩ := forall_mem_cons.mp hheaded
    obtain ⟨hnumbered, hkeeps, hputs, hassigned⟩ := execute_numbered hcounts h
      (hspares op mem_cons_self) hop hexecute
    obtain ⟨hkeeps', hputs', hassigned'⟩ := ih hnumbered
      (fun op' hop' => hspares op' (mem_cons_of_mem _ hop')) hheaded hrest
    have hsplit : logsOf (trace Operation.mark context (op :: rest)) =
        logsOf [(context, op)] ++ logsOf (trace Operation.mark (op.mark context) rest) :=
      logsOf_append [(context, op)] _
    refine ⟨⟨fun account => (hkeeps'.count account).trans (hkeeps.count account),
      fun account => (hkeeps'.ids account).trans (hkeeps.ids account)⟩, ?_, fun hchanges => ?_⟩
    · rw [hputs', hputs, hsplit, List.map_append, append_assoc]
    · rw [hsplit]
      refine forall_mem_append.mpr ⟨hassigned hchanges, fun set hset => ?_⟩
      obtain ⟨changeId, hid⟩ := hassigned' hchanges set hset
      exact ⟨changeId, (hkeeps.ids set.1).symm.trans hid⟩

/-! ## Transactions -/

theorem lastChangeId_push (ids : AssignedIds) (accountId account : UInt32) (changeId : UInt64) :
    (ids.pushChangeId accountId changeId).lastChangeId account =
      if accountId = account then .ok changeId else ids.lastChangeId account := by
  unfold AssignedIds.lastChangeId AssignedIds.pushChangeId
  by_cases heq : accountId = account
  all_goals simp [AssignedIds.changeIdOf, heq]

theorem assignAll_counts (hcounts : backend.CountsChanges count) {accounts : List UInt32}
    (hnodup : accounts.Nodup) {ids' : AssignedIds} {state state' : σ × List LogPut}
    (h : backend.journaled.assignAll accounts ids state = .ok (ids', state')) :
    state'.2 = state.2 ∧ ∀ account,
      count state'.1 account = (if account ∈ accounts then count state.1 account + 1
        else count state.1 account) ∧
      ids'.lastChangeId account = (if account ∈ accounts then .ok (count state.1 account + 1)
        else ids.lastChangeId account) := by
  induction accounts generalizing ids state with
  | nil =>
    cases h
    exact ⟨rfl, fun account => ⟨rfl, rfl⟩⟩
  | cons accountId rest ih =>
    obtain ⟨hnew, hnodup⟩ := nodup_cons.mp hnodup
    obtain ⟨⟨changeId, next⟩, hassign, hrest⟩ := Fallible.bind_eq_ok.mp h
    obtain ⟨⟨changeId', tables⟩, hcalled, hjournal⟩ := Fallible.bind_eq_ok.mp hassign
    cases hjournal
    obtain ⟨rfl, hself, hother⟩ := hcounts.assign hcalled
    obtain ⟨hputs, hids⟩ := ih hnodup hrest
    refine ⟨hputs, fun account => ?_⟩
    obtain ⟨hcount, hlast⟩ := hids account
    rw [hcount, hlast, lastChangeId_push]
    by_cases heq : account = accountId
    · subst heq
      simp only [hnew, if_false, mem_cons, true_or, if_true]
      exact ⟨hself, trivial⟩
    · simp only [mem_cons, heq, false_or, hother account heq, Ne.symm heq, if_false]
      exact ⟨trivial, trivial⟩

/-- The change id of an account in a transaction, when its last one was counted. -/
def changeIdFor (hasChanges : Bool) (count : UInt32 → UInt64) (account : UInt32) : UInt64 :=
  if hasChanges then count account + 1 else 0

theorem commit_puts (hcounts : backend.CountsChanges count) {batch : Batch}
    {state state' : σ × List LogPut} (hspares : ∀ op ∈ batch.ops, op.sparesChangeIds = true)
    (hheaded : Headed batch.ops)
    (hcommit : backend.journaled.commit batch state = .ok (ids, state')) :
    state'.2 = state.2 ++ (logsOf (entriesOf batch.ops)).map
        (logPut (changeIdFor (!batch.changes.isEmpty) (count state.1))) ∧
      (∀ account, count state'.1 account = if account ∈ batch.changes.keys then
        count state.1 account + 1 else count state.1 account) ∧
      ((!batch.changes.isEmpty) = true →
        ∀ set ∈ logsOf (entriesOf batch.ops), set.1 ∈ batch.changes.keys) := by
  obtain ⟨⟨assigned, start⟩, hassign, hcommit⟩ := Fallible.bind_eq_ok.mp hcommit
  obtain ⟨txn, hloop, hend⟩ := Fallible.bind_eq_ok.mp hcommit
  cases hend
  obtain ⟨hputs, hids⟩ := assignAll_counts hcounts batch.changes.nodup hassign
  have hmem : ∀ account changeId, assigned.lastChangeId account = .ok changeId →
      account ∈ batch.changes.keys ∧ changeId = count state.1 account + 1 := by
    intro account changeId hlast
    rw [(hids account).2] at hlast
    split at hlast
    · rename_i hkey
      cases hlast
      exact ⟨hkey, rfl⟩
    · cases hlast
  have hnumbered : Numbered (!batch.changes.isEmpty)
      (changeIdFor (!batch.changes.isEmpty) (count state.1)) Context.initial none
      ⟨0, assigned, start⟩ := by
    refine ⟨rfl, fun hchanges account changeId hlast => ?_, fun hnone => ⟨rfl, fun account => ?_⟩, nofun⟩
    · rw [changeIdFor, if_pos hchanges]
      exact (hmem account changeId hlast).2
    · rw [hnone]
      rfl
  obtain ⟨hkeeps, hlogs, hassigned⟩ := loop_numbered hcounts hnumbered hspares hheaded hloop
  refine ⟨by rw [hlogs, hputs]; rfl, fun account => ?_, fun hchanges set hset => ?_⟩
  · exact (hkeeps.count account).trans (hids account).1
  · obtain ⟨changeId, hlast⟩ := hassigned hchanges set hset
    exact (hmem set.1 changeId hlast).1

/-- The entries of transactions that assign change ids to the same accounts. -/
def logPuts (hasChanges : Bool) : (UInt32 → UInt64) → List (List ChangeSet) → List LogPut
  | _, [] => []
  | count, sets :: rest =>
    sets.map (logPut (changeIdFor hasChanges count)) ++
      logPuts hasChanges (fun account => count account + 1) rest

theorem commitAll_puts (hcounts : backend.CountsChanges count)
    {changes : VecMap UInt32 ChangedCollection} {segments : List (List Operation)}
    {state state' : σ × List LogPut}
    (hspares : ∀ ops ∈ segments, ∀ op ∈ ops, op.sparesChangeIds = true)
    (hheaded : ∀ ops ∈ segments, Headed ops)
    (hcommit : backend.journaled.commitAll (segments.map fun ops => ⟨changes, ops⟩) state =
      .ok state') {counted : UInt32 → UInt64}
    (hcounted : ∀ account ∈ changes.keys, count state.1 account = counted account) :
    state'.2 = state.2 ++ logPuts (!changes.isEmpty) counted
      (segments.map fun ops => logsOf (entriesOf ops)) := by
  induction segments generalizing state counted with
  | nil =>
    cases hcommit
    exact (List.append_nil _).symm
  | cons ops rest ih =>
    obtain ⟨⟨ids, next⟩, hfirst, hrest⟩ := Fallible.bind_eq_ok.mp hcommit
    obtain ⟨hspares, hspares'⟩ := forall_mem_cons.mp hspares
    obtain ⟨hheaded, hheaded'⟩ := forall_mem_cons.mp hheaded
    obtain ⟨hputs, hcount, hkeys⟩ := commit_puts hcounts hspares hheaded hfirst
    have hnext : ∀ account ∈ changes.keys, count next.1 account = counted account + 1 := by
      intro account haccount
      simp [hcount, haccount, hcounted account haccount]
    have hsame : (logsOf (entriesOf ops)).map (logPut (changeIdFor (!changes.isEmpty) (count state.1))) =
        (logsOf (entriesOf ops)).map (logPut (changeIdFor (!changes.isEmpty) counted)) := by
      refine map_congr_left fun set hset => ?_
      unfold logPut changeIdFor
      split
      · rename_i hchanges
        rw [hcounted set.1 (hkeys hchanges set hset)]
      · rfl
    rw [ih hspares' hheaded' hrest hnext, hputs, hsame, append_assoc]
    rfl

end Backend

end Bearmail.Store
