import Bearmail.Store.Transaction

/-!
# What is executed

The operations that the batches of a builder execute, each in its context. Those that set the context are
left out, and a log operation counts with the account that it is written for.
-/

namespace Bearmail.Store

open Markers (after trace offsets slices)
open List hiding set

abbrev Entries := List (Context × Operation)

/-- A serialised change set, with the account it is written for. -/
abbrev ChangeSet := UInt32 × LogCollection × LogSet

def directEntry : Context × Operation → Option (Context × Operation)
  | (_, .accountId _) | (_, .collection _) | (_, .documentId _) | (_, .log ..) => none
  | (context, op) => some (op.scope context, op)

def logEntry : Context × Operation → Option ChangeSet
  | (context, .log collection set) => some (context.accountId, collection, set)
  | _ => none

def directOf (entries : Entries) : Entries := entries.filterMap directEntry

def logsOf (entries : Entries) : List ChangeSet := entries.filterMap logEntry

def entriesOf (ops : List Operation) : Entries := trace Operation.mark Context.initial ops

def contextOf (ops : List Operation) : Context := after Operation.mark Context.initial ops

/-- What a backend executes of the batches of a route (`Backend.commit_eq`). -/
def BatchBuilder.executed (builder : BatchBuilder) (route : Route) : Entries :=
  (builder.batches route).flatMap fun batch => entriesOf batch.ops

@[simp] theorem directOf_append (entries entries' : Entries) :
    directOf (entries ++ entries') = directOf entries ++ directOf entries' :=
  filterMap_append

@[simp] theorem logsOf_append (entries entries' : Entries) :
    logsOf (entries ++ entries') = logsOf entries ++ logsOf entries' :=
  filterMap_append

theorem entriesOf_append (ops added : List Operation) :
    entriesOf (ops ++ added) = entriesOf ops ++ trace Operation.mark (contextOf ops) added :=
  Markers.trace_append _ _ _ _

theorem contextOf_append (ops added : List Operation) :
    contextOf (ops ++ added) = after Operation.mark (contextOf ops) added :=
  Markers.after_append _ _ _ _

/-! ## Accounts that are set -/

def Operation.markAccount : Operation → Option UInt32 → Option UInt32
  | .accountId account, _ => some account
  | _, account => account

def accountOf (ops : List Operation) : Option UInt32 := after Operation.markAccount none ops

theorem accountOf_append (ops added : List Operation) :
    accountOf (ops ++ added) = after Operation.markAccount (accountOf ops) added :=
  Markers.after_append _ _ _ _

theorem contextOf_accountId (ops : List Operation) :
    (contextOf ops).accountId = (accountOf ops).getD Context.initial.accountId := by
  suffices ∀ (context : Context) (account : Option UInt32),
      context.accountId = account.getD Context.initial.accountId →
      (after Operation.mark context ops).accountId =
        (after Operation.markAccount account ops).getD Context.initial.accountId from
    this _ _ rfl
  induction ops with
  | nil => exact fun context account h => h
  | cons op rest ih =>
    intro context account h
    refine ih _ _ ?_
    cases op with
    | accountId => rfl
    | _ => exact h

/-- Change sets are written only once an account is set. -/
def Headed (ops : List Operation) : Prop :=
  ∀ entry ∈ trace Operation.markAccount none ops, ∀ collection set,
    entry.2 = .log collection set → entry.1.isSome = true

variable {ops added opened : List Operation} {builder builder' : BatchBuilder} {route : Route}
  {closed : List (List Operation)}

theorem headed_append : Headed (ops ++ added) ↔ Headed ops ∧
      ∀ entry ∈ trace Operation.markAccount (accountOf ops) added, ∀ collection set,
        entry.2 = .log collection set → entry.1.isSome = true := by
  rw [Headed, Markers.trace_append, forall_mem_append]
  rfl

/-! ## Flushing -/

/-- The change sets of some logged changes, in the order in which they become operations. -/
def accountSets (entry : UInt32 × ChangeLogBuilder) : List ChangeSet :=
  entry.2.changes.entries.map
      (fun changes => (entry.1, LogCollection.sync changes.1, .changes changes.2)) ++
    entry.2.vanished.entries.map fun vanished => (entry.1, .vanished vanished.1, .vanished vanished.2)

def changeSets (changes : VecMap UInt32 ChangeLogBuilder) : List ChangeSet :=
  changes.entries.flatMap accountSets

/-- The account and the collection of the builder are those that a transaction has set. -/
structure BatchBuilder.Kept (builder : BatchBuilder) (ops : List Operation) : Prop where
  account : accountOf ops = builder.currentAccountId
  collection : (contextOf ops).collection =
    (builder.currentCollection.map Collection.toUInt8).getD Context.initial.collection

structure Writes (ops added : List Operation) (sets : List ChangeSet) : Prop where
  document : (contextOf (ops ++ added)).documentId = (contextOf ops).documentId
  direct : directOf (entriesOf (ops ++ added)) = directOf (entriesOf ops)
  logs : logsOf (entriesOf (ops ++ added)) = logsOf (entriesOf ops) ++ sets
  headed : Headed ops → Headed (ops ++ added)

theorem Writes.nil (ops : List Operation) : Writes ops [] [] := by
  constructor <;> rw [List.append_nil]
  · exact (List.append_nil _).symm
  · exact fun h => h

theorem Writes.trans {added' : List Operation} {sets sets' : List ChangeSet}
    (h : Writes ops added sets) (h' : Writes (ops ++ added) added' sets') :
    Writes ops (added ++ added') (sets ++ sets') where
  document := by rw [← append_assoc, h'.document, h.document]
  direct := by rw [← append_assoc, h'.direct, h.direct]
  logs := by simp [← append_assoc, h'.logs, h.logs]
  headed hheaded := by
    rw [← append_assoc]
    exact h'.headed (h.headed hheaded)

structure BatchBuilder.Flushes (builder builder' : BatchBuilder) (sets : List ChangeSet) : Prop where
  commitPoints : builder'.commitPoints = builder.commitPoints
  collection : builder'.currentCollection = builder.currentCollection
  document : builder'.currentDocumentId = builder.currentDocumentId
  changes : builder'.changes = builder.changes
  emitted : ∃ added, builder'.ops = builder.ops ++ added ∧
    ∀ ops, builder.Kept ops → builder'.Kept (ops ++ added) ∧ Writes ops added sets

namespace BatchBuilder

theorem Flushes.refl (builder : BatchBuilder) : builder.Flushes builder [] :=
  ⟨rfl, rfl, rfl, rfl, [], (List.append_nil _).symm, fun ops hkept =>
    ⟨(List.append_nil ops).symm ▸ hkept, .nil ops⟩⟩

theorem Flushes.trans {builder'' : BatchBuilder} {sets sets' : List ChangeSet}
    (h : builder.Flushes builder' sets) (h' : builder'.Flushes builder'' sets') :
    builder.Flushes builder'' (sets ++ sets') := by
  obtain ⟨added, hops, hadded⟩ := h.emitted
  obtain ⟨added', hops', hadded'⟩ := h'.emitted
  refine ⟨h'.commitPoints.trans h.commitPoints, h'.collection.trans h.collection,
    h'.document.trans h.document, h'.changes.trans h.changes, added ++ added',
    by rw [hops', hops, append_assoc], fun ops hkept => ?_⟩
  obtain ⟨hkept', hwrites⟩ := hadded ops hkept
  obtain ⟨hkept'', hwrites'⟩ := hadded' _ hkept'
  rw [← append_assoc]
  exact ⟨hkept'', hwrites.trans hwrites'⟩

theorem Flushes.foldl {ι : Type} (step : BatchBuilder → ι → BatchBuilder)
    (sets : ι → List ChangeSet) (inv : BatchBuilder → Prop) (hstep : ∀ builder item, inv builder →
      builder.Flushes (step builder item) (sets item) ∧ inv (step builder item)) (items : List ι)
    (hinv : inv builder) :
    builder.Flushes (items.foldl step builder) (items.flatMap sets) ∧
      inv (items.foldl step builder) := by
  induction items generalizing builder with
  | nil => exact ⟨.refl builder, hinv⟩
  | cons item rest ih =>
    obtain ⟨hflush, hinv'⟩ := hstep builder item hinv
    obtain ⟨hrest, hend⟩ := ih hinv'
    exact ⟨hflush.trans hrest, hend⟩

theorem withAccountId_currentAccountId (builder : BatchBuilder) (accountId : UInt32) :
    (builder.withAccountId accountId).currentAccountId = some accountId := by
  unfold withAccountId
  split
  · assumption
  · rfl

theorem writes_accountId (ops : List Operation) (accountId : UInt32) :
    Writes ops [.accountId accountId] [] := by
  constructor
  · rw [contextOf_append]
    rfl
  · rw [entriesOf_append, directOf_append]
    exact List.append_nil _
  · rw [entriesOf_append, logsOf_append]
    rfl
  · exact fun h => headed_append.mpr ⟨h, forall_mem_singleton.mpr nofun⟩

theorem flushes_withAccountId (builder : BatchBuilder) (accountId : UInt32) :
    builder.Flushes (builder.withAccountId accountId) [] := by
  unfold withAccountId
  split
  · exact .refl builder
  · refine ⟨rfl, rfl, rfl, rfl, [.accountId accountId], rfl, fun ops hkept =>
      ⟨⟨?_, ?_⟩, writes_accountId ops accountId⟩⟩
    · rw [accountOf_append]
      rfl
    · rw [contextOf_append]
      exact hkept.collection

theorem flushes_log {accountId : UInt32} (haccount : builder.currentAccountId = some accountId)
    (collection : LogCollection) (set : LogSet)
    (changedCollections : VecMap UInt32 ChangedCollection) :
    builder.Flushes { builder with changedCollections, ops := builder.ops ++ [.log collection set] }
      [(accountId, collection, set)] := by
  refine ⟨rfl, rfl, rfl, rfl, [.log collection set], rfl, fun ops hkept => ?_⟩
  have hset : accountOf ops = some accountId := hkept.account.trans haccount
  refine ⟨⟨?_, ?_⟩, ?_, ?_, ?_, fun h => headed_append.mpr ⟨h, forall_mem_singleton.mpr ?_⟩⟩
  · rw [accountOf_append]
    exact hkept.account
  · rw [contextOf_append]
    exact hkept.collection
  · rw [contextOf_append]
    rfl
  · rw [entriesOf_append, directOf_append]
    exact List.append_nil _
  · rw [entriesOf_append]
    simp [logsOf, logEntry, contextOf_accountId, hset]
  · rw [hset]
    exact fun _ _ _ => rfl

theorem flushes_serializeAccount (builder : BatchBuilder) (entry : UInt32 × ChangeLogBuilder) :
    builder.Flushes (builder.serializeAccount entry) (accountSets entry) ∧
      (builder.serializeAccount entry).currentAccountId = some entry.1 := by
  have haccount := builder.withAccountId_currentAccountId entry.1
  obtain ⟨hchanges, hchanged⟩ :=
    Flushes.foldl (serializeCollection entry.1)
      (fun changes => [(entry.1, LogCollection.sync changes.1, .changes changes.2)])
      (fun builder => builder.currentAccountId = some entry.1)
      (fun builder changes h => ⟨flushes_log h _ _ _, h⟩) entry.2.changes.entries haccount
  obtain ⟨hvanished, hend⟩ :=
    Flushes.foldl serializeVanished
      (fun vanished => [(entry.1, .vanished vanished.1, .vanished vanished.2)])
      (fun builder => builder.currentAccountId = some entry.1)
      (fun builder vanished h => ⟨flushes_log h _ _ builder.changedCollections, h⟩)
      entry.2.vanished.entries hchanged
  refine ⟨?_, hend⟩
  rw [accountSets, map_eq_flatMap, map_eq_flatMap]
  exact ((builder.flushes_withAccountId entry.1).trans hchanges).trans hvanished

theorem flushes_serializeChanges (builder : BatchBuilder) :
    { builder with changes := .empty }.Flushes builder.serializeChanges (changeSets builder.changes) ∧
      builder.serializeChanges.currentAccountId =
        builder.changes.keys.getLast?.or builder.currentAccountId := by
  refine ⟨(Flushes.foldl serializeAccount accountSets (fun _ => True)
    (fun builder entry _ => ⟨(flushes_serializeAccount builder entry).1, trivial⟩)
    builder.changes.entries trivial).1, ?_⟩
  have hlast : ∀ (entries : List (UInt32 × ChangeLogBuilder)) (start : BatchBuilder),
      (entries.foldl serializeAccount start).currentAccountId =
        (entries.map Prod.fst).getLast?.or start.currentAccountId := by
    intro entries
    induction entries with
    | nil => exact fun start => rfl
    | cons entry rest ih =>
      intro start
      rw [foldl_cons, ih, (flushes_serializeAccount start entry).2, map_cons, List.getLast?_cons]
      cases (rest.map Prod.fst).getLast? <;> rfl
  exact hlast builder.changes.entries { builder with changes := .empty }

theorem serializeChanges_writes (hkept : builder.Kept ops) :
    ∃ added, builder.serializeChanges.ops = builder.ops ++ added ∧
      builder.serializeChanges.Kept (ops ++ added) ∧ Writes ops added (changeSets builder.changes) := by
  obtain ⟨added, hops, hadded⟩ := builder.flushes_serializeChanges.1.emitted
  exact ⟨added, hops, hadded ops ⟨hkept.account, hkept.collection⟩⟩

/-! ## Routes -/

/-- The operations so far, cut in the transactions in which a route commits them. -/
def Plays : Route → BatchBuilder → List (List Operation) → List Operation → Prop
  | .all, builder, closed, opened => closed = [] ∧ builder.ops = opened
  | .segments, builder, closed, opened =>
    builder.ops = closed.flatten ++ opened ∧ builder.commitPoints = offsets 0 closed

theorem Plays.new (route : Route) : Plays route .new [] [] := by
  cases route <;> exact ⟨rfl, rfl⟩

variable (h : Plays route builder closed opened)
include h

theorem Plays.extend (hops : builder'.ops = builder.ops ++ added)
    (hpoints : builder'.commitPoints = builder.commitPoints) :
    Plays route builder' closed (opened ++ added) := by
  cases route with
  | all => exact ⟨h.1, by rw [hops, h.2]⟩
  | segments => exact ⟨by rw [hops, h.1, append_assoc], hpoints.trans h.2⟩

/-- A cut begins a new transaction on the route by segments, and does nothing on the other. -/
theorem Plays.cut (hops : builder'.ops = builder.ops)
    (hpoints : builder'.commitPoints = builder.commitPoints ++ [builder.ops.length]) :
    route = .all ∧ Plays route builder' closed opened ∨
      route = .segments ∧ Plays route builder' (closed ++ [opened]) [] := by
  cases route with
  | all => exact .inl ⟨rfl, h.1, hops.trans h.2⟩
  | segments =>
    obtain ⟨hsplit, hclosed⟩ := h
    refine .inr ⟨rfl, by simp [hops, hsplit], ?_⟩
    rw [hpoints, hclosed, Markers.offsets_append, hsplit]
    simp [offsets]

theorem Plays.flatten : (closed ++ [opened]).flatten = builder.ops := by
  rw [flatten_append, flatten_singleton]
  cases route with
  | all =>
    obtain ⟨rfl, rfl⟩ := h
    rfl
  | segments => exact h.1.symm

omit h

theorem Plays.batches (h : Plays route builder.serializeChanges closed opened) :
    builder.batches route = (closed ++ [opened]).map fun ops =>
      ⟨builder.serializeChanges.changedCollections, ops⟩ := by
  cases route with
  | all =>
    obtain ⟨rfl, rfl⟩ := h
    rfl
  | segments =>
    obtain ⟨hsplit, hclosed⟩ := h
    have hends : builder.serializeChanges.commitPoints ++ [builder.serializeChanges.ops.length] =
        offsets 0 (closed ++ [opened]) := by
      rw [hclosed, Markers.offsets_append, hsplit]
      simp [offsets]
    have hslices : slices builder.serializeChanges.ops 0 (offsets 0 (closed ++ [opened])) =
        closed ++ [opened] := by
      have hall := Markers.slices_offsets [] (closed ++ [opened])
      rwa [nil_append, length_nil, flatten_append, flatten_singleton, ← hsplit] at hall
    show (slices builder.serializeChanges.ops 0 (builder.serializeChanges.commitPoints ++
      [builder.serializeChanges.ops.length])).map _ = _
    rw [hends, hslices]

/-! ## Markers -/

/-- The operations that set the context again after a cut. -/
def resume (builder : BatchBuilder) : List Operation :=
  (builder.currentAccountId.map Operation.accountId).toList ++
    (builder.currentCollection.map Operation.collection).toList

theorem isMarker_resume (builder : BatchBuilder) : ∀ op ∈ builder.resume, op.isMarker = true := by
  intro op hop
  rcases mem_append.mp hop with hop | hop
  · obtain ⟨accountId, -, rfl⟩ := Option.map_eq_some_iff.mp (Option.mem_toList.mp hop)
    rfl
  · obtain ⟨collection, -, rfl⟩ := Option.map_eq_some_iff.mp (Option.mem_toList.mp hop)
    rfl

theorem kept_resume (h : builder.Kept ops ∨ ops = []) : builder.Kept (ops ++ builder.resume) := by
  have haccount : builder.currentAccountId = none → accountOf ops = none := by
    intro hnone
    rcases h with hkept | rfl
    · exact hkept.account.trans hnone
    · rfl
  have hcollection : builder.currentCollection = none →
      (contextOf ops).collection = Context.initial.collection := by
    intro hnone
    rcases h with hkept | rfl
    · rw [hkept.collection, hnone]
      rfl
    · rfl
  constructor
  · rw [accountOf_append]
    cases hsome : builder.currentAccountId <;> cases hsome' : builder.currentCollection <;>
      simp_all [resume, Operation.markAccount]
  · rw [contextOf_append]
    cases hsome : builder.currentAccountId <;> cases hsome' : builder.currentCollection <;>
      simp_all [resume, Operation.mark]

end BatchBuilder

/-- Markers at the end are nothing to a reader of entries that passes over them. -/
theorem filterMap_markers {γ : Type} {read : Context × Operation → Option γ}
    (hread : ∀ context op, op.isMarker = true → read (context, op) = none)
    (h : ∀ op ∈ added, op.isMarker = true) (ops : List Operation) :
    (entriesOf (ops ++ added)).filterMap read = (entriesOf ops).filterMap read := by
  have hnone : ∀ context, (trace Operation.mark context added).filterMap read = [] := by
    induction added with
    | nil => exact fun context => rfl
    | cons op rest ih =>
      intro context
      rw [Markers.trace_cons, filterMap_cons_none (hread _ op (h op mem_cons_self))]
      exact ih (fun op' hop' => h op' (mem_cons_of_mem _ hop')) (op.mark context)
  rw [entriesOf_append, filterMap_append, hnone, List.append_nil]

theorem directOf_markers (h : ∀ op ∈ added, op.isMarker = true) (ops : List Operation) :
    directOf (entriesOf (ops ++ added)) = directOf (entriesOf ops) :=
  filterMap_markers (fun _ op hop => by cases op <;> first | rfl | cases hop) h ops

theorem logsOf_markers (h : ∀ op ∈ added, op.isMarker = true) (ops : List Operation) :
    logsOf (entriesOf (ops ++ added)) = logsOf (entriesOf ops) :=
  filterMap_markers (fun _ op hop => by cases op <;> first | rfl | cases hop) h ops

theorem headed_quiet (h : ∀ op ∈ added, ∀ collection set, op ≠ .log collection set)
    (hheaded : Headed ops) : Headed (ops ++ added) := by
  refine headed_append.mpr ⟨hheaded, fun entry hentry collection set heq => ?_⟩
  exact absurd heq (h _ (Markers.mem_of_mem_trace _ hentry) collection set)

end Bearmail.Store
