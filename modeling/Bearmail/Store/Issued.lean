import Bearmail.Store.Caller

/-!
# Operations as they are issued

The operations that the batches of a builder execute are those issued, in the account that the builder had
at that time, and the change sets they write are those of the changes logged since the cut before. A cut can
leave the builder in the account of a change set: what the caller then issues or logs before it sets an
account goes to that one.
-/

namespace Bearmail.Store

open Markers (after trace)
open List

def setsOf (filed : List (UInt32 × LogCall)) : List ChangeSet := changeSets (changesOf filed)

structure BatchBuilder.Marks (builder builder' : BatchBuilder) (added : List Operation) : Prop where
  markers : ∀ op ∈ added, op.isMarker = true
  ops : builder'.ops = builder.ops ++ added
  commitPoints : builder'.commitPoints = builder.commitPoints
  changes : builder'.changes = builder.changes
  kept : ∀ ops, builder.Kept ops → builder'.Kept (ops ++ added)

variable (builder : BatchBuilder)

namespace BatchBuilder

theorem Marks.refl : builder.Marks builder [] :=
  ⟨forall_mem_nil _, (List.append_nil _).symm, rfl, rfl, fun ops h =>
    (List.append_nil ops).symm ▸ h⟩

theorem marks_withAccountId (accountId : UInt32) : ∃ added,
    builder.Marks (builder.withAccountId accountId) added ∧
      ∀ ops, (contextOf (ops ++ added)).documentId = (contextOf ops).documentId := by
  unfold withAccountId
  split
  · exact ⟨[], .refl builder, fun ops => by simp⟩
  · refine ⟨[.accountId accountId], ⟨forall_mem_singleton.mpr rfl, rfl, rfl, rfl,
      fun ops h => ⟨?_, ?_⟩⟩, fun ops => ?_⟩
    · rw [accountOf_append]
      rfl
    · rw [contextOf_append]
      exact h.collection
    · rw [contextOf_append]
      rfl

theorem marks_withCollection (collection : Collection) : ∃ added,
    builder.Marks (builder.withCollection collection) added ∧
      (∀ ops, (contextOf (ops ++ added)).documentId = (contextOf ops).documentId) ∧
      (builder.withCollection collection).currentAccountId = builder.currentAccountId ∧
      (builder.withCollection collection).currentCollection = some collection ∧
      (builder.withCollection collection).currentDocumentId = builder.currentDocumentId := by
  unfold withCollection
  split
  · rename_i hsame
    exact ⟨[], .refl builder, fun ops => by rw [List.append_nil], rfl, hsame, rfl⟩
  · refine ⟨[.collection collection], ⟨forall_mem_singleton.mpr rfl, rfl, rfl, rfl,
      fun ops h => ⟨?_, ?_⟩⟩, fun ops => ?_, rfl, rfl, rfl⟩
    · rw [accountOf_append]
      exact h.account
    all_goals
      rw [contextOf_append]
      rfl

theorem marks_withDocument (documentId : UInt32) :
    builder.Marks (builder.withDocument documentId) [.documentId documentId] := by
  refine ⟨forall_mem_singleton.mpr rfl, rfl, rfl, rfl, fun ops h => ⟨?_, ?_⟩⟩
  · rw [accountOf_append]
    exact h.account
  · rw [contextOf_append]
    exact h.collection

theorem commitPoint_of_not_large {builder : BatchBuilder} (h : builder.isLargeBatch = false) :
    builder.commitPoint = builder := by
  simp [commitPoint, h]

/-- The builder of a commit point that cuts, before it sets the context again. -/
def cut (builder : BatchBuilder) : BatchBuilder :=
  { builder.serializeChanges with
    commitPoints := builder.serializeChanges.commitPoints ++ [builder.serializeChanges.ops.length] }

theorem commitPoint_of_large {builder : BatchBuilder} (h : builder.isLargeBatch = true) :
    builder.commitPoint =
      { builder.cut with
        batchOps := 0
        batchSize := 0
        ops := builder.cut.ops ++ builder.cut.resume } := by
  rw [commitPoint, if_pos h]
  simp [cut, resume]

end BatchBuilder

variable {ops : List Operation} {op : Operation}

namespace Session

/-- The change sets that the transactions write: at every cut those of a segment, on the route of one
transaction all of them in it. -/
def Logs (session : Session) (closed : List (List Operation)) (opened : List Operation) : Route → Prop
  | .all => logsOf (entriesOf opened) = session.closed.flatMap fun filed => setsOf (filed.map Filed.kept)
  | .segments => closed.map (fun ops => logsOf (entriesOf ops)) =
      session.closed.map (fun filed => setsOf (filed.map Filed.kept)) ∧ logsOf (entriesOf opened) = []

/-- The transactions of a session so far. The operations are those issued, if documents are set again where
they have to be. -/
structure Follows (renewed : Prop) (route : Route) (session : Session)
    (closed : List (List Operation)) (opened : List Operation) : Prop where
  plays : BatchBuilder.Plays route session.builder closed opened
  kept : session.builder.Kept opened
  headed : ∀ ops ∈ closed ++ [opened], Headed ops
  fresh : session.caller.stale = false →
    (contextOf opened).documentId = session.caller.documentId.getD Context.initial.documentId
  collection : session.builder.currentCollection = session.caller.collection
  document : session.builder.currentDocumentId = session.caller.documentId
  account : session.builder.currentAccountId = none ↔ session.caller.accountId = none
  unset : session.builder.currentAccountId = none → session.opened = []
  direct : renewed → directOf ((closed ++ [opened]).flatMap entriesOf) = session.issued.map Issued.kept
  logs : session.Logs closed opened route
  changes : session.builder.changes = changesOf (session.opened.map Filed.kept)

theorem Follows.new (renewed : Prop) (route : Route) : Follows renewed route .new [] [] where
  plays := .new route
  kept := ⟨rfl, rfl⟩
  headed := forall_mem_singleton.mpr (forall_mem_nil _)
  fresh _ := rfl
  collection := rfl
  document := rfl
  account := Iff.rfl
  unset _ := rfl
  direct _ := rfl
  logs := by cases route <;> first | rfl | exact ⟨rfl, rfl⟩
  changes := rfl

/-- Nothing is issued or logged, and no segment ends. -/
structure Quiet (session session' : Session) : Prop where
  issued : session'.issued = session.issued
  closed : session'.closed = session.closed
  opened : session'.opened = session.opened

theorem files_eq_none {session : Session} {call : Call}
    (h : call.change session.caller.documentId = none) : session.files call = none := by
  unfold files
  rw [h]
  cases session.caller.accountId <;> cases session.builder.currentAccountId <;> rfl

theorem quiet_call {session : Session} {call : Call} (hcuts : session.cuts call = false)
    (hoperation : call.operation = none) (hchange : call.change session.caller.documentId = none) :
    session.Quiet (session.call call) where
  issued := by simp [Session.call, hoperation]
  closed := by simp [Session.call, hcuts]
  opened := by simp [Session.call, hcuts, files_eq_none hchange]

variable {renewed : Prop} {route : Route} {session session' : Session}
  {closed : List (List Operation)} {opened added : List Operation}

theorem directOf_flatMap_append (closed : List (List Operation)) {direct : Entries}
    (h : directOf (entriesOf ops) = directOf (entriesOf opened) ++ direct) :
    directOf ((closed ++ [ops]).flatMap entriesOf) =
      directOf ((closed ++ [opened]).flatMap entriesOf) ++ direct := by
  simp only [flatMap_append, flatMap_singleton, directOf_append, h, append_assoc]

theorem Logs.congr (h : session.Logs closed opened route) (hsession : session'.closed = session.closed)
    (hops : logsOf (entriesOf ops) = logsOf (entriesOf opened)) :
    session'.Logs closed ops route := by
  cases route with
  | all => exact hops.trans (h.trans (by rw [hsession]))
  | segments => exact ⟨h.1.trans (by rw [hsession]), hops.trans h.2⟩

theorem headed_last (h : ∀ ops ∈ closed ++ [opened], Headed ops) (hops : Headed opened → Headed ops) :
    ∀ ops' ∈ closed ++ [ops], Headed ops' := by
  obtain ⟨hclosed, hopened⟩ := forall_mem_append.mp h
  exact forall_mem_append.mpr
    ⟨hclosed, forall_mem_singleton.mpr (hops (forall_mem_singleton.mp hopened))⟩

variable (h : session.Follows renewed route closed opened)
include h

theorem Follows.marked
    (hquiet : session.Quiet session') (hmarks : session.builder.Marks session'.builder added)
    (hfresh : session'.caller.stale = false → (contextOf (opened ++ added)).documentId =
      session'.caller.documentId.getD Context.initial.documentId)
    (hcollection : session'.builder.currentCollection = session'.caller.collection)
    (hdocument : session'.builder.currentDocumentId = session'.caller.documentId)
    (haccount : session'.builder.currentAccountId = none ↔ session'.caller.accountId = none)
    (hunset : session'.builder.currentAccountId = none → session.builder.currentAccountId = none) :
    session'.Follows renewed route closed (opened ++ added) where
  plays := h.plays.extend hmarks.ops hmarks.commitPoints
  kept := hmarks.kept opened h.kept
  headed := headed_last h.headed (headed_quiet fun op hop collection set heq => by
    have hmarker := hmarks.markers op hop
    rw [heq] at hmarker
    cases hmarker)
  fresh := hfresh
  collection := hcollection
  document := hdocument
  account := haccount
  unset hnone := hquiet.opened.trans (h.unset (hunset hnone))
  direct hrenewed := by
    have hdirect := directOf_markers hmarks.markers opened
    rw [directOf_flatMap_append closed (hdirect.trans (List.append_nil _).symm), h.direct hrenewed,
      hquiet.issued, List.append_nil]
  logs := h.logs.congr hquiet.closed (logsOf_markers hmarks.markers opened)
  changes := by rw [hmarks.changes, hquiet.opened, h.changes]

theorem Follows.withAccountId (accountId : UInt32) : ∃ closed' opened',
      (session.call (.withAccountId accountId)).Follows renewed route closed' opened' := by
  obtain ⟨added, hmarks, hsame⟩ := session.builder.marks_withAccountId accountId
  have hset := session.builder.withAccountId_currentAccountId accountId
  have hflush := session.builder.flushes_withAccountId accountId
  exact ⟨_, _, h.marked (quiet_call rfl rfl rfl) hmarks
    (fun hstale => (hsame opened).trans (h.fresh hstale)) (hflush.collection.trans h.collection)
    (hflush.document.trans h.document) (iff_of_false (by simp [Session.call, BatchBuilder.call, hset])
      nofun) fun hnone => absurd (hset.symm.trans hnone) nofun⟩

theorem Follows.withCollection (collection : Collection) : ∃ closed' opened',
      (session.call (.withCollection collection)).Follows renewed route closed' opened' := by
  obtain ⟨added, hmarks, hsame, haccount, hset, hdocument⟩ :=
    session.builder.marks_withCollection collection
  refine ⟨_, _, h.marked (quiet_call rfl rfl rfl) hmarks
    (fun hstale => (hsame opened).trans (h.fresh hstale)) hset (hdocument.trans h.document) ?_
    fun hnone => haccount.symm.trans hnone⟩
  show (session.builder.withCollection collection).currentAccountId = none ↔ _
  rw [haccount]
  exact h.account

theorem Follows.withDocument (documentId : UInt32) : ∃ closed' opened',
      (session.call (.withDocument documentId)).Follows renewed route closed' opened' := by
  refine ⟨_, _, h.marked (quiet_call rfl rfl rfl) (session.builder.marks_withDocument documentId)
    (fun _ => ?_) h.collection rfl h.account fun hnone => hnone⟩
  rw [contextOf_append]
  rfl

omit h

theorem directEntry_operation {call : Call} (h : call.operation = some op) (context : Context) :
    directEntry (context, op) = some (op.scope context, op) ∧ logEntry (context, op) = none ∧
      ∀ collection set, op ≠ .log collection set := by
  cases call <;> cases h <;> exact ⟨rfl, rfl, nofun⟩

theorem mark_operation {call : Call} (h : call.operation = some op) :
    (∀ context, op.mark context = context) ∧ ∀ account, op.markAccount account = account := by
  cases call <;> cases h <;> exact ⟨fun _ => rfl, fun _ => rfl⟩

theorem Caller.call_of_isPlain {call : Call} (h : call.isPlain = true) (caller : Caller) :
    caller.call call = caller := by
  cases call with
  | withAccountId | withCollection | withDocument | commitPoint => cases h
  | _ => rfl

variable (h : session.Follows renewed route closed opened)
include h

theorem Follows.files_kept (call : Call) : (session.files call).map Filed.kept =
      filing session.builder.currentAccountId (call.change session.builder.currentDocumentId) := by
  rw [h.document]
  unfold files filing
  cases hcaller : session.caller.accountId with
  | none =>
    rw [h.account.mpr hcaller]
    rfl
  | some caller =>
    cases session.builder.currentAccountId with
    | none => rfl
    | some account => cases call.change session.caller.documentId <;> rfl

/-- An operation is executed in the account of the builder, and otherwise as the caller means it. -/
theorem Follows.scope_eq (huses : op.usesDocument = true → session.caller.stale = false) :
    op.scope (contextOf opened) =
      op.scope { session.caller with accountId := session.builder.currentAccountId }.context := by
  refine Operation.scope_eq ?_ ?_ fun hdocument => h.fresh (huses hdocument)
  · rw [contextOf_accountId, h.kept.account]
    rfl
  · rw [h.kept.collection, h.collection]
    rfl

theorem Follows.plain {call : Call} (hplain : call.isPlain = true)
    (huses : renewed → ∀ op ∈ call.operation, op.usesDocument = true → session.caller.stale = false) :
    ∃ closed' opened', (session.call call).Follows renewed route closed' opened' := by
  have hcalled := session.builder.plain_call hplain
  have hcaller : (session.call call).caller = session.caller := Caller.call_of_isPlain hplain _
  have hcuts : session.cuts call = false := by
    cases call with
    | commitPoint => cases hplain
    | _ => rfl
  have hcontext : contextOf (opened ++ call.operation.toList) = contextOf opened := by
    rw [contextOf_append]
    cases hop : call.operation with
    | none => rfl
    | some op => exact (mark_operation hop).1 _
  have haccount : accountOf (opened ++ call.operation.toList) = accountOf opened := by
    rw [accountOf_append]
    cases hop : call.operation with
    | none => rfl
    | some op => exact (mark_operation hop).2 _
  refine ⟨closed, opened ++ call.operation.toList, h.plays.extend hcalled.ops hcalled.commitPoints,
    ⟨?_, ?_⟩, headed_last h.headed (headed_quiet fun op hop => ?_), ?_, ?_, ?_, ?_, ?_, ?_, ?_, ?_⟩
  · rw [haccount, h.kept.account]
    exact hcalled.account.symm
  · rw [hcontext, h.kept.collection, ← hcalled.collection]
    rfl
  · exact (directEntry_operation (Option.mem_toList.mp hop) Context.initial).2.2
  · rw [hcaller, hcontext]
    exact h.fresh
  · rw [hcaller]
    exact hcalled.collection.trans h.collection
  · rw [hcaller]
    exact hcalled.document.trans h.document
  · rw [hcaller]
    show (session.builder.call call).currentAccountId = none ↔ _
    rw [hcalled.account]
    exact h.account
  · intro hnone
    have hunset : session.builder.currentAccountId = none := hcalled.account.symm.trans hnone
    have hfiles : session.files call = none := by
      unfold files
      rw [h.account.mp hunset]
      rfl
    simp [Session.call, hcuts, hfiles, h.unset hunset]
  · intro hrenewed
    have hdirect : directOf (entriesOf (opened ++ call.operation.toList)) =
        directOf (entriesOf opened) ++ (call.operation.map fun op =>
          (op.scope (contextOf opened), op)).toList := by
      rw [entriesOf_append, directOf_append]
      cases hop : call.operation with
      | none => rfl
      | some op => simp [directOf, (directEntry_operation hop (contextOf opened)).1]
    rw [directOf_flatMap_append closed hdirect, h.direct hrenewed]
    show _ = (session.issued ++ _).map Issued.kept
    rw [List.map_append]
    cases hop : call.operation with
    | none => rfl
    | some op => simp [h.scope_eq (huses hrenewed op hop), Issued.kept]
  · refine h.logs.congr (by simp [Session.call, hcuts]) ?_
    rw [entriesOf_append, logsOf_append]
    cases hop : call.operation with
    | none => exact List.append_nil _
    | some op => simp [logsOf, (directEntry_operation hop (contextOf opened)).2.1]
  · refine hcalled.changes.trans ?_
    rw [← h.files_kept call, h.changes]
    simp [Session.call, hcuts, changesOf, Option.toList_map]

omit h

theorem changesOf_eq_empty_of_nil {filed : List Filed} (h : filed = []) :
    changesOf (filed.map Filed.kept) = .empty := by
  rw [h]
  rfl

variable (h : session.Follows renewed route closed opened)
include h

theorem Follows.goOn (hsmall : session.builder.isLargeBatch = false) : ∃ closed' opened',
      (session.call .commitPoint).Follows renewed route closed' opened' := by
  have hsame : session.builder.call .commitPoint = session.builder :=
    BatchBuilder.commitPoint_of_not_large hsmall
  have hmarks : session.builder.Marks (session.call .commitPoint).builder [] := by
    show session.builder.Marks (session.builder.call .commitPoint) []
    rw [hsame]
    exact .refl _
  refine ⟨_, _, h.marked (quiet_call (show session.cuts .commitPoint = false from hsmall) rfl rfl)
    hmarks nofun ?_ ?_ ?_ ?_⟩
  · exact (congrArg _ hsame).trans h.collection
  · exact (congrArg _ hsame).trans h.document
  · show (session.builder.call .commitPoint).currentAccountId = none ↔ _
    rw [hsame]
    exact h.account
  · exact fun hnone => (congrArg _ hsame.symm).trans hnone

theorem Follows.flushed : ∃ added, session.builder.serializeChanges.ops = session.builder.ops ++ added ∧
      session.builder.serializeChanges.Kept (opened ++ added) ∧
      (∀ ops ∈ closed ++ [opened ++ added], Headed ops) ∧
      (renewed → directOf ((closed ++ [opened ++ added]).flatMap entriesOf) =
        session.issued.map Issued.kept) ∧
      logsOf (entriesOf (opened ++ added)) =
        logsOf (entriesOf opened) ++ setsOf (session.opened.map Filed.kept) := by
  obtain ⟨added, hops, hkept, hwrites⟩ := BatchBuilder.serializeChanges_writes h.kept
  refine ⟨added, hops, hkept, headed_last h.headed hwrites.headed, fun hrenewed => ?_, ?_⟩
  · rw [directOf_flatMap_append closed (hwrites.direct.trans (List.append_nil _).symm),
      h.direct hrenewed, List.append_nil]
  · rw [hwrites.logs, h.changes]
    rfl

/-- After the cut the context is set again, whether or not a new transaction begins. -/
theorem Follows.resumed (hlarge : session.builder.isLargeBatch = true) {closed' : List (List Operation)}
    {opened' : List Operation} (hplays : BatchBuilder.Plays route session.builder.cut closed' opened')
    (hkept : session.builder.cut.Kept opened' ∨ opened' = [])
    (hheaded : ∀ ops ∈ closed' ++ [opened'], Headed ops)
    (hdirect : renewed →
      directOf ((closed' ++ [opened']).flatMap entriesOf) = session.issued.map Issued.kept)
    (hlogs : (session.call .commitPoint).Logs closed' opened' route) :
    (session.call .commitPoint).Follows renewed route closed'
      (opened' ++ session.builder.cut.resume) := by
  obtain ⟨hflush, hlast⟩ := session.builder.flushes_serializeChanges
  have hcuts : session.cuts .commitPoint = true := hlarge
  have hpoint : session.builder.commitPoint = _ := BatchBuilder.commitPoint_of_large hlarge
  have hmarkers := session.builder.cut.isMarker_resume
  have hresumed := BatchBuilder.kept_resume hkept
  have hbuilder : (session.call .commitPoint).builder = _ := hpoint
  constructor
  case plays =>
    rw [hbuilder]
    exact hplays.extend rfl rfl
  case kept =>
    rw [hbuilder]
    exact ⟨hresumed.account, hresumed.collection⟩
  case headed =>
    refine headed_last hheaded (headed_quiet fun op hop collection set heq => ?_)
    have hmarker := hmarkers op hop
    rw [heq] at hmarker
    cases hmarker
  case fresh => exact nofun
  case collection =>
    rw [hbuilder]
    exact hflush.collection.trans h.collection
  case document =>
    rw [hbuilder]
    exact hflush.document.trans h.document
  case account =>
    rw [hbuilder]
    show session.builder.serializeChanges.currentAccountId = none ↔ session.caller.accountId = none
    rw [hlast, ← h.account]
    cases hkeys : session.builder.changes.keys.getLast? with
    | none => rfl
    | some last =>
      refine iff_of_false nofun fun hnone => ?_
      rw [h.changes, changesOf_eq_empty_of_nil (h.unset hnone)] at hkeys
      cases hkeys
  case unset => exact fun _ => if_pos hcuts
  case direct =>
    intro hrenewed
    have hsame := directOf_markers hmarkers opened'
    rw [directOf_flatMap_append closed' (hsame.trans (List.append_nil _).symm), hdirect hrenewed]
    simp [Session.call, Call.operation]
  case logs => exact hlogs.congr rfl (logsOf_markers hmarkers opened')
  case changes =>
    rw [hbuilder]
    refine hflush.changes.trans ?_
    simp [Session.call, hcuts, changesOf]

theorem Follows.commitPoint :
    ∃ closed' opened', (session.call .commitPoint).Follows renewed route closed' opened' := by
  cases hlarge : session.builder.isLargeBatch with
  | false => exact h.goOn hlarge
  | true =>
    obtain ⟨added, hops, hkept, hheaded, hdirect, hlogs⟩ := h.flushed
    have hplays := h.plays.extend hops session.builder.flushes_serializeChanges.1.commitPoints
    have hclosed : (session.call .commitPoint).closed = session.closed ++ [session.opened] :=
      if_pos hlarge
    have hcut : route = .all ∧ BatchBuilder.Plays route session.builder.cut closed (opened ++ added) ∨
        route = .segments ∧
          BatchBuilder.Plays route session.builder.cut (closed ++ [opened ++ added]) [] :=
      hplays.cut rfl rfl
    rcases hcut with ⟨rfl, hplays⟩ | ⟨rfl, hplays⟩
    · refine ⟨_, _, h.resumed hlarge hplays (.inl ⟨hkept.account, hkept.collection⟩) hheaded hdirect ?_⟩
      have hbefore : logsOf (entriesOf opened) = _ := h.logs
      rw [Logs, hlogs, hbefore, hclosed]
      simp
    · refine ⟨_, _, h.resumed hlarge hplays (.inr rfl) ?_ (fun hrenewed => ?_) ⟨?_, rfl⟩⟩
      · exact forall_mem_append.mpr ⟨hheaded, forall_mem_singleton.mpr (forall_mem_nil _)⟩
      · rw [flatMap_append, directOf_append, hdirect hrenewed]
        exact List.append_nil _
      · obtain ⟨hbefore, hnone⟩ := h.logs
        simp [hclosed, hbefore, hlogs, hnone]

omit h

/-! ## Runs -/

/-- The document is set again before an operation that uses it, once a commit point has come. -/
def renews (session : Session) (call : Call) : Prop :=
  ∀ op ∈ call.operation, op.usesDocument = true → session.caller.stale = false

instance (session : Session) (call : Call) : Decidable (session.renews call) :=
  have : ∀ op : Operation, Decidable (op.usesDocument = true → session.caller.stale = false) :=
    fun _ => inferInstance
  Option.decidableForallMem call.operation

theorem Follows.call (h : session.Follows renewed route closed opened) {call : Call}
    (hrenews : renewed → session.renews call) :
    ∃ closed' opened', (session.call call).Follows renewed route closed' opened' := by
  cases hplain : call.isPlain with
  | true => exact h.plain hplain hrenews
  | false =>
    cases call with
    | withAccountId accountId => exact h.withAccountId accountId
    | withCollection collection => exact h.withCollection collection
    | withDocument documentId => exact h.withDocument documentId
    | commitPoint => exact h.commitPoint
    | _ => cases hplain

theorem run_step (session : Session) (calls : List Call) :
    Runs.run step session calls = some (calls.foldl Session.call session) := by
  induction calls generalizing session with
  | nil => rfl
  | cons call rest ih => exact ih (session.call call)

theorem follows_ofCalls (renewed : Prop) (route : Route) {calls : List Call}
    (hrenews : Runs.Along step (fun session call => renewed → session.renews call) new calls) :
    ∃ closed opened, (ofCalls calls).Follows renewed route closed opened :=
  Runs.run_invariant (fun session => ∃ closed opened, session.Follows renewed route closed opened)
    (fun _ _ _ ⟨_, _, hfollows⟩ hrenews hstep => by
      cases hstep
      exact hfollows.call hrenews)
    hrenews ⟨_, _, .new renewed route⟩ (run_step new calls)

def transactions (session : Session) : Route → List (List ChangeSet)
  | .all => [(session.closed ++ [session.opened]).flatMap fun filed => setsOf (filed.map Filed.kept)]
  | .segments =>
    (session.closed ++ [session.opened]).map fun filed => setsOf (filed.map Filed.kept)

theorem flatten_transactions (session : Session) (route : Route) : (session.transactions route).flatten =
      (session.closed ++ [session.opened]).flatMap fun filed => setsOf (filed.map Filed.kept) := by
  cases route with
  | all => exact flatten_singleton
  | segments => exact (flatMap_def ..).symm

/-- The batches of a session: what they execute is what was issued, and they write the change sets of its
segments. -/
theorem Follows.batches (h : session.Follows renewed route closed opened) :
    ∃ ended : List (List Operation),
      session.builder.batches route = ended.map (fun ops =>
        ⟨session.builder.serializeChanges.changedCollections, ops⟩) ∧
      ended.flatten = session.builder.serializeChanges.ops ∧
      (∀ ops ∈ ended, Headed ops) ∧
      (renewed → directOf (ended.flatMap entriesOf) = session.issued.map Issued.kept) ∧
      ended.map (fun ops => logsOf (entriesOf ops)) = session.transactions route := by
  obtain ⟨added, hops, -, hheaded, hdirect, hlogs⟩ := h.flushed
  have hplays := h.plays.extend hops session.builder.flushes_serializeChanges.1.commitPoints
  refine ⟨closed ++ [opened ++ added], hplays.batches, hplays.flatten, hheaded, hdirect, ?_⟩
  have hbefore := h.logs
  rw [List.map_append, map_singleton, hlogs]
  cases route with
  | all =>
    obtain ⟨rfl, -⟩ := h.plays
    rw [hbefore, transactions, flatMap_append, flatMap_singleton]
    rfl
  | segments => 
    rw [hbefore.1, hbefore.2, transactions, List.map_append]
    rfl

theorem Follows.executed (h : session.Follows renewed route closed opened) :
    (renewed → directOf (session.builder.executed route) = session.issued.map Issued.kept) ∧
      logsOf (session.builder.executed route) =
        (session.closed ++ [session.opened]).flatMap fun filed => setsOf (filed.map Filed.kept) := by
  obtain ⟨ended, hbatches, -, -, hdirect, hlogs⟩ := h.batches
  have hexecuted : session.builder.executed route = ended.flatMap entriesOf := by
    rw [BatchBuilder.executed, hbatches, flatMap_map]
  rw [hexecuted, ← flatten_transactions session route, ← hlogs, ← flatMap_def, logsOf, filterMap_flatMap]
  exact ⟨hdirect, rfl⟩

end Session

end Bearmail.Store
