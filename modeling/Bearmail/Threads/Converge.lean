import Bearmail.Lib.Runs
import Bearmail.Threads.Careful

/-!
# Threads converge

What is true of the threads of an account when messages are received, changed and deleted, and tasks
merge threads, in any order.
-/

namespace Bearmail.Threads

open List Option

variable {account account' : Account}

/-! ## Workers -/

theorem later_setRun (worker : Nat) (run : MergeRun) : Later account (account.setRun worker run) :=
  ⟨fun _ hknown => hknown, fun _ _ hgone => hgone, le_rfl,
    fun _ task' _ htask' => ⟨task', htask', rfl, rfl⟩⟩

variable {worker : Nat} {run : MergeRun}

theorem Inv.setRun (h : Inv account) (hrun : Working account run)
    (hpairs : ∀ threadName documentId documentId' info info', Live account threadName documentId info →
      Live account threadName documentId' info' → Meet info.references info'.references →
      Together (account.setRun worker run) threadName info info') :
    Inv (account.setRun worker run) := by
  refine ⟨h.ordered, h.known, h.single, h.agrees, h.arrivals, h.tasks, ?_, ?_⟩
  · intro other run' hrun'
    rcases Tables.of_insert hrun' with ⟨-, rfl⟩ | ⟨-, hold⟩
    · exact hrun.later (later_setRun _ _)
    · exact (h.runs other run' hold).later (later_setRun _ _)
  · intro threadName documentId documentId' info info' hlive hlive' hmeet
    exact hpairs threadName documentId documentId' info info' ⟨hlive.1, hlive.2⟩
      ⟨hlive'.1, hlive'.2⟩ hmeet

theorem Waiting.setRun {id : Nat} {task : MergeTask} (h : Waiting account id task)
    (hrun : run.task = id → run.phase ≠ .done true) :
    Waiting (account.setRun worker run) id task := by
  refine ⟨h.queued, h.due, fun other run' hrun' heq => ?_⟩
  rcases Tables.of_insert hrun' with ⟨-, rfl⟩ | ⟨-, hold⟩
  · exact hrun heq
  · exact h.unfinished other run' hold heq

theorem Inv.setRun_unfinished (h : Inv account)
    (hrun : Working account run) (hphase : run.phase ≠ .done true) :
    Inv (account.setRun worker run) := by
  refine h.setRun hrun fun threadName documentId documentId' info info' hlive hlive' hmeet => ?_
  refine (h.pairs threadName documentId documentId' info info' hlive hlive' hmeet).imp_right ?_
  rintro ⟨id, task, hwaiting, hrest⟩
  exact ⟨id, task, hwaiting.setRun fun _ => hphase, hrest⟩

theorem Working.setPhase (h : Working account run) {tries : Nat} {phase : Phase}
    (hphase : ∀ merge todo moves, phase ≠ .read merge todo moves) :
    Working account { run with tries, phase } :=
  ⟨h.ordered, h.task_le, h.same, fun merge todo moves heq => absurd heq (hphase merge todo moves)⟩

theorem inv_start (h : Inv account) {worker task : Nat}
    (hstep : start account worker task = some account') : Inv account' := by
  unfold start at hstep
  split at hstep
  · cases hstep
  rename_i details hdetails
  split at hstep
  · cases hstep
  cases hstep
  refine h.setRun_unfinished ⟨pairwise_insertionSort _ _, h.tasks task details hdetails, ?_, ?_⟩ ?_
  · intro task' htask'
    rw [hdetails, Option.some.injEq] at htask'
    subst htask'
    exact ⟨rfl, fun id => mem_insertionSort _⟩
  · exact fun _ _ _ hphase => nomatch hphase
  · exact fun hphase => nomatch hphase

variable {documentId documentId' : Nat} {info info' : ThreadInfo} {threadName : CheekyHash}

variable (h : Inv account)
include h

/-- The messages that a task is to bring together are in one thread when the scan finds one only. -/
theorem same_of_scan (hrun : Working account run)
    (hone : (ThreadMerge.addAll ∅ (account.index.matching run.threadName
      run.messageIds)).keys.length < 2) (hlive : Live account run.threadName documentId info)
    (hlive' : Live account run.threadName documentId' info')
    (hmeet : Meet run.messageIds info.references) (hmeet' : Meet run.messageIds info'.references) :
    info.threadId = info'.threadId :=
  ThreadMerge.eq_of_length_lt hone
    ((has_matching h.ordered hrun.ordered).mpr ⟨info, hlive.1, rfl, hmeet⟩)
    ((has_matching h.ordered hrun.ordered).mpr ⟨info', hlive'.1, rfl, hmeet'⟩)

theorem reading_scanThreads (hrun : Working account run) :
    Reading account (scanThreads account.index run) (toMove (scanThreads account.index run)) [] := by
  refine ⟨?_, ?_, fun _ hmem => (nomatch hmem), ?_⟩
  · intro threadId documentId hhas
    obtain ⟨info, hinfo, -⟩ := (has_scanThreads h.ordered hrun.ordered).mp hhas
    exact h.known _ _ info hinfo
  · intro entry hentry
    obtain ⟨hne, hhas⟩ := mem_toMove.mp hentry
    exact ⟨hne, hhas.mem_keys⟩
  · exact fun threadId documentId hhas hne => Or.inl (mem_toMove.mpr ⟨hne, hhas⟩)

theorem inv_scan (hstep : scan account worker = some account') :
    Inv account' := by
  unfold scan at hstep
  split at hstep
  · cases hstep
  rename_i run hlookup
  have hrun := h.runs worker run hlookup
  split at hstep
  · split at hstep
    · rename_i hone
      cases hstep
      refine h.setRun (hrun.setPhase fun _ _ _ heq => nomatch heq)
        fun threadName documentId documentId' info info' hlive hlive' hmeet => ?_
      rcases h.pairs threadName documentId documentId' info info' hlive hlive' hmeet with heq |
        ⟨id, task, hwaiting, hname, hfirst, hsecond⟩
      · exact Or.inl heq
      · by_cases htask : run.task = id
        · subst htask
          obtain ⟨hsame, hids⟩ := hrun.same task hwaiting.queued
          rw [← hname, hsame] at hlive hlive'
          refine Or.inl (same_of_scan h hrun hone hlive hlive' ?_ ?_)
          · exact hfirst.imp fun id hid => ⟨(hids id).mpr hid.1, hid.2⟩
          · exact hsecond.imp fun id hid => ⟨(hids id).mpr hid.1, hid.2⟩
        · exact Or.inr ⟨id, task, hwaiting.setRun fun heq => absurd heq htask, hname, hfirst, hsecond⟩
    · cases hstep
      refine h.setRun_unfinished ⟨hrun.ordered, hrun.task_le, hrun.same, ?_⟩ fun heq => nomatch heq
      intro merge todo moves heq
      cases heq
      exact reading_scanThreads h hrun
  · cases hstep

theorem inv_read (hstep : read account worker = some account') :
    Inv account' := by
  unfold read at hstep
  split at hstep
  · cases hstep
  rename_i run hlookup
  have hrun := h.runs worker run hlookup
  split at hstep
  · rename_i merge group documentId todo moves hphase
    have hreading := hrun.reading _ _ _ hphase
    have hplanned := fun entry hentry => hreading.planned entry (mem_cons_of_mem _ hentry)
    split at hstep
    · rename_i hgone
      cases hstep
      refine h.setRun_unfinished ⟨hrun.ordered, hrun.task_le, hrun.same, ?_⟩ fun heq => nomatch heq
      intro merge' todo' moves' heq
      cases heq
      refine ⟨hreading.known, hplanned, hreading.taken, fun threadId document hhas hne => ?_⟩
      rcases hreading.kept threadId document hhas hne with hmem | hrest
      · rcases mem_cons.mp hmem with heq | hlater
        · obtain ⟨-, rfl⟩ := Prod.mk.inj heq
          exact Or.inr (Or.inr hgone)
        · exact Or.inl hlater
      · exact Or.inr hrest
    · rename_i data hdata
      split at hstep
      · cases hstep
        exact h.setRun_unfinished (hrun.setPhase fun _ _ _ heq => nomatch heq) fun heq => nomatch heq
      · rename_i hgroup
        rw [not_not] at hgroup
        cases hstep
        refine h.setRun_unfinished ⟨hrun.ordered, hrun.task_le, hrun.same, ?_⟩ fun heq => nomatch heq
        intro merge' todo' moves' heq
        cases heq
        obtain ⟨hne, hkey⟩ := hreading.planned _ mem_cons_self
        refine ⟨hreading.known, hplanned, ?_, fun threadId document hhas hne' => ?_⟩
        · intro move hmove
          rcases mem_append.mp hmove with hold | hnew
          · exact hreading.taken move hold
          · cases mem_singleton.mp hnew
            exact ⟨hne, hkey, hgroup⟩
        · rcases hreading.kept threadId document hhas hne' with hmem | ⟨move, hmove, hrest⟩ | hgone
          · rcases mem_cons.mp hmem with heq | hlater
            · obtain ⟨rfl, rfl⟩ := Prod.mk.inj heq
              exact Or.inr (Or.inl ⟨_, mem_append_right _ mem_cons_self, rfl, rfl⟩)
            · exact Or.inl hlater
          · exact Or.inr (Or.inl ⟨move, mem_append_left _ hmove, hrest⟩)
          · exact Or.inr (Or.inr hgone)
  · cases hstep

theorem inv_fail (hstep : fail account worker = some account') :
    Inv account' := by
  unfold fail at hstep
  split at hstep
  · cases hstep
  rename_i run hlookup
  split at hstep
  · cases hstep
  · cases hstep
    exact h.setRun_unfinished ((h.runs worker run hlookup).setPhase fun _ _ _ heq => nomatch heq)
      fun heq => nomatch heq

omit h

/-! ## Merges -/

/-- What the batch of a merge does: each message that it moves was in its group, and is in the thread
then. -/
structure Merged (threadName : CheekyHash) (threadId : Nat) (moves : List Move)
    (store store' : (AList fun _ : Nat => MessageData) × Index) : Prop where
  moved : ∀ move ∈ moves, (∃ info, store.2.lookup (threadName, move.documentId) = some info ∧
    info.threadId = move.group) ∧ ∃ data, store.1.lookup move.documentId = some data ∧
      store'.1.lookup move.documentId = some { data with threadId }
  indexed : ∀ move ∈ moves, store'.2.lookup (threadName, move.documentId) =
    (store.2.lookup (threadName, move.documentId)).map fun info => { info with threadId }
  dataFrame : ∀ documentId, (∀ move ∈ moves, move.documentId ≠ documentId) →
    store'.1.lookup documentId = store.1.lookup documentId
  indexFrame : ∀ key, (key.1 = threadName → ∀ move ∈ moves, move.documentId ≠ key.2) →
    store'.2.lookup key = store.2.lookup key

theorem apply_eq_some {threadId : Nat} {move : Move}
    {store store' : (AList fun _ : Nat => MessageData) × Index}
    (h : Move.apply threadName threadId store move = some store') :
    store.1.lookup move.documentId = some move.data ∧
      ∃ info, store.2.lookup (threadName, move.documentId) = some info ∧ info.threadId = move.group ∧
        store' = (store.1.insert move.documentId { move.data with threadId },
          store.2.insert (threadName, move.documentId) { info with threadId }) := by
  unfold Move.apply at h
  split at h
  · cases h
  rename_i hdata
  rw [not_not] at hdata
  refine ⟨hdata, ?_⟩
  split at h
  · cases h
  rename_i info hinfo
  split at h
  · cases h
  rename_i hgroup
  rw [not_or, not_not] at hgroup
  cases h
  exact ⟨info, hinfo, hgroup.2, rfl⟩

theorem merged_of_transact {threadId : Nat} {moves : List Move}
    {store store' : (AList fun _ : Nat => MessageData) × Index}
    (hgroups : ∀ move ∈ moves, move.group ≠ threadId)
    (h : Batch.transact (Move.apply threadName threadId) store moves = some store') :
    Merged threadName threadId moves store store' := by
  induction moves generalizing store with
  | nil =>
    cases h
    exact ⟨fun _ hmem => (nomatch hmem), fun _ hmem => (nomatch hmem), fun _ _ => rfl,
      fun _ _ => rfl⟩
  | cons first moves ih =>
    obtain ⟨next, hnext, hrest⟩ := bind_eq_some_iff.mp h
    obtain ⟨hdata, info, hinfo, hgroup, rfl⟩ := apply_eq_some hnext
    have hlater := ih (fun move hmove => hgroups move (mem_cons_of_mem _ hmove)) hrest
    -- a message is moved once, since its group is not that of the thread
    have honce : ∀ move ∈ moves, move.documentId ≠ first.documentId := by
      intro move hmove heq
      obtain ⟨⟨info', hinfo', hgroup'⟩, -⟩ := hlater.moved move hmove
      rw [heq] at hinfo'
      cases (AList.lookup_insert _).symm.trans hinfo'
      exact hgroups move (mem_cons_of_mem _ hmove) hgroup'.symm
    have hkey : ∀ move ∈ moves, (threadName, move.documentId) ≠ (threadName, first.documentId) :=
      fun move hmove heq => honce move hmove (Prod.mk.inj heq).2
    refine ⟨fun move hmove => ?_, fun move hmove => ?_, fun documentId hother => ?_,
      fun key hother => ?_⟩
    · rcases mem_cons.mp hmove with rfl | hmem
      · refine ⟨⟨info, hinfo, hgroup⟩, move.data, hdata, ?_⟩
        exact (hlater.dataFrame _ honce).trans (AList.lookup_insert _)
      · obtain ⟨⟨info', hinfo', hgroup'⟩, data, hdata', hafter⟩ := hlater.moved move hmem
        refine ⟨⟨info', ?_, hgroup'⟩, data, ?_, hafter⟩
        · exact (AList.lookup_insert_ne (hkey move hmem)).symm.trans hinfo'
        · exact (AList.lookup_insert_ne (honce move hmem)).symm.trans hdata'
    · rcases mem_cons.mp hmove with rfl | hmem
      · rw [hlater.indexFrame _ fun _ => honce, hinfo]
        exact AList.lookup_insert _
      · rw [hlater.indexed move hmem]
        exact congrArg _ (AList.lookup_insert_ne (hkey move hmem))
    · rw [hlater.dataFrame documentId fun move hmem => hother move (mem_cons_of_mem _ hmem)]
      exact AList.lookup_insert_ne (hother first mem_cons_self).symm
    · rw [hlater.indexFrame key fun hname move hmem =>
        hother hname move (mem_cons_of_mem _ hmem)]
      refine AList.lookup_insert_ne ?_
      rintro rfl
      exact hother rfl first mem_cons_self rfl

section Commit

variable {worker : Nat} {run : MergeRun} {merge : ThreadMerge} {moves : List Move}
  {store : (AList fun _ : Nat => MessageData) × Index}

def withMerge (account : Account) (worker : Nat) (run : MergeRun)
    (store : (AList fun _ : Nat => MessageData) × Index) : Account :=
  { account.setRun worker { run with phase := .done true } with data := store.1, index := store.2 }

theorem Merged.of_index
    (h : Merged run.threadName merge.mergeThreadId moves (account.data, account.index) store)
    (hinfo' : store.2.lookup (threadName, documentId) = some info') :
    ∃ info, account.index.lookup (threadName, documentId) = some info ∧
      info'.references = info.references ∧
      ((threadName = run.threadName ∧ (∃ move ∈ moves, move.documentId = documentId) ∧
        info'.threadId = merge.mergeThreadId) ∨
      ((threadName = run.threadName → ∀ move ∈ moves, move.documentId ≠ documentId) ∧
        info' = info)) := by
  by_cases hmoved : threadName = run.threadName ∧ ∃ move ∈ moves, move.documentId = documentId
  · obtain ⟨rfl, move, hmove, rfl⟩ := hmoved
    rw [h.indexed move hmove] at hinfo'
    obtain ⟨info, hinfo, rfl⟩ := map_eq_some_iff.mp hinfo'
    exact ⟨info, hinfo, rfl, Or.inl ⟨rfl, ⟨move, hmove, rfl⟩, rfl⟩⟩
  · have hother : threadName = run.threadName → ∀ move ∈ moves, move.documentId ≠ documentId :=
      fun hname move hmove heq => hmoved ⟨hname, move, hmove, heq⟩
    rw [h.indexFrame (threadName, documentId) hother] at hinfo'
    exact ⟨info', hinfo', rfl, Or.inr ⟨hother, rfl⟩⟩

theorem Merged.of_data
    (h : Merged run.threadName merge.mergeThreadId moves (account.data, account.index) store) :
    store.1.lookup documentId = none ↔ account.data.lookup documentId = none := by
  by_cases hmoved : ∃ move ∈ moves, move.documentId = documentId
  · obtain ⟨move, hmove, rfl⟩ := hmoved
    obtain ⟨-, data, hbefore, hafter⟩ := h.moved move hmove
    rw [hafter]
    exact iff_of_false (some_ne_none _) (hbefore ▸ some_ne_none _)
  · rw [h.dataFrame documentId fun move hmove heq => hmoved ⟨move, hmove, heq⟩]

/-- A message that the merge is for is in the thread of the merge, or has a task of its own. -/
theorem Merged.settled
    (h : Merged run.threadName merge.mergeThreadId moves (account.data, account.index) store)
    (hreading : Reading account merge [] moves) (hcareful : CarefulCommit account run merge)
    (hlive : Live account run.threadName documentId info)
    (hinfo' : store.2.lookup (run.threadName, documentId) = some info')
    (hfor : Meet run.messageIds info.references ∨ info.threadId ∈ merge.keys) :
    info'.threadId = merge.mergeThreadId ∨
      HasOwnTask account (some run.task) run.threadName info'.references := by
  obtain ⟨before, hbefore, hreferences, hcase⟩ := h.of_index hinfo'
  cases hbefore.symm.trans hlive.1
  rcases hcase with ⟨-, -, hthread⟩ | ⟨hother, rfl⟩
  · exact Or.inl hthread
  by_cases heq : info'.threadId = merge.mergeThreadId
  · exact Or.inl heq
  refine Or.inr ((hcareful documentId info' hlive heq hfor).resolve_left fun hhas => ?_)
  rcases hreading.kept _ _ hhas heq with hmem | ⟨move, hmove, hdocument, -⟩ | hgone
  · cases hmem
  · exact hother rfl move hmove hdocument
  · exact hlive.2 hgone

theorem HasOwnTask.together (h : HasOwnTask account (some run.task) threadName info.references)
    (hmeet : Meet info.references info'.references) :
    Together (withMerge account worker run store) threadName info info' := by
  obtain ⟨id, task, hne, hwaiting, hname, hids⟩ := h
  have hstill : Waiting (account.setRun worker { run with phase := .done true }) id task :=
    hwaiting.setRun fun heq => absurd (congrArg some heq) hne
  refine Or.inr ⟨id, task, ⟨hstill.1, hstill.2, hstill.3⟩, hname, ?_, ?_⟩
  · rw [hids]
    exact hmeet.left
  · rw [hids]
    exact hmeet

theorem Merged.together
    (h : Merged run.threadName merge.mergeThreadId moves (account.data, account.index) store)
    (hreading : Reading account merge [] moves) (hcareful : CarefulCommit account run merge)
    {before before' : ThreadInfo} (hbefore : Live account run.threadName documentId before)
    (hbefore' : Live account run.threadName documentId' before')
    (hinfo : store.2.lookup (run.threadName, documentId) = some info)
    (hinfo' : store.2.lookup (run.threadName, documentId') = some info')
    (hfor : Meet run.messageIds before.references ∨ before.threadId ∈ merge.keys)
    (hfor' : Meet run.messageIds before'.references ∨ before'.threadId ∈ merge.keys)
    (hmeet : Meet info.references info'.references) :
    Together (withMerge account worker run store) run.threadName info info' := by
  rcases h.settled hreading hcareful hbefore hinfo hfor with hthread | hown
  · rcases h.settled hreading hcareful hbefore' hinfo' hfor' with hthread' | hown'
    · exact Or.inl (hthread.trans hthread'.symm)
    · exact (hown'.together hmeet.symm).symm
  · exact hown.together hmeet

theorem Merged.key_of_moved
    (h : Merged run.threadName merge.mergeThreadId moves (account.data, account.index) store)
    (hreading : Reading account merge [] moves)
    (hinfo : account.index.lookup (run.threadName, documentId) = some info)
    (hmoved : ∃ move ∈ moves, move.documentId = documentId) : info.threadId ∈ merge.keys := by
  obtain ⟨move, hmove, rfl⟩ := hmoved
  obtain ⟨⟨found, hfound, hgroup⟩, -⟩ := h.moved move hmove
  cases hfound.symm.trans hinfo
  rw [hgroup]
  exact (hreading.taken move hmove).2.1

theorem Merged.pairs
    (h : Merged run.threadName merge.mergeThreadId moves (account.data, account.index) store)
    (hinv : Inv account) (hrun : Working account run) (hreading : Reading account merge [] moves)
    (hcareful : CarefulCommit account run merge)
    (hlive : Live (withMerge account worker run store) threadName documentId info)
    (hlive' : Live (withMerge account worker run store) threadName documentId' info')
    (hmeet : Meet info.references info'.references) :
    Together (withMerge account worker run store) threadName info info' := by
  obtain ⟨before, hbefore, hreferences, hcase⟩ := h.of_index hlive.1
  obtain ⟨before', hbefore', hreferences', hcase'⟩ := h.of_index hlive'.1
  have hwas : Live account threadName documentId before :=
    ⟨hbefore, fun hgone => hlive.2 (h.of_data.mpr hgone)⟩
  have hwas' : Live account threadName documentId' before' :=
    ⟨hbefore', fun hgone => hlive'.2 (h.of_data.mpr hgone)⟩
  have htogether := hinv.pairs threadName documentId documentId' before before' hwas hwas'
    (hreferences ▸ hreferences' ▸ hmeet)
  rcases htogether with heq | ⟨id, task, hwaiting, hname, hfirst, hsecond⟩
  · -- both in one thread: the merge is for both when it moves one
    rcases hcase with ⟨rfl, hmoved, -⟩ | ⟨-, rfl⟩
    · have hkey := h.key_of_moved hreading hbefore hmoved
      exact h.together hreading hcareful hwas hwas' hlive.1 hlive'.1 (Or.inr hkey)
        (Or.inr (heq ▸ hkey)) hmeet
    · rcases hcase' with ⟨rfl, hmoved', -⟩ | ⟨-, rfl⟩
      · have hkey := h.key_of_moved hreading hbefore' hmoved'
        exact h.together hreading hcareful hwas hwas' hlive.1 hlive'.1 (Or.inr (heq ▸ hkey))
          (Or.inr hkey) hmeet
      · exact Or.inl heq
  · by_cases htask : run.task = id
    · subst htask
      obtain ⟨hsame, hids⟩ := hrun.same task hwaiting.queued
      rw [← hname, hsame] at hlive hlive' hwas hwas' ⊢
      refine h.together hreading hcareful hwas hwas' hlive.1 hlive'.1 (Or.inl ?_) (Or.inl ?_) hmeet
      · exact hfirst.imp fun id hid => ⟨(hids id).mpr hid.1, hid.2⟩
      · exact hsecond.imp fun id hid => ⟨(hids id).mpr hid.1, hid.2⟩
    · have hstill : Waiting (account.setRun worker { run with phase := .done true }) id task :=
        hwaiting.setRun fun heq => absurd heq htask
      rw [← hreferences] at hfirst
      rw [← hreferences'] at hsecond
      exact Or.inr ⟨id, task, ⟨hstill.1, hstill.2, hstill.3⟩, hname, hfirst, hsecond⟩

theorem Merged.agrees (h : Merged run.threadName merge.mergeThreadId moves
      (account.data, account.index) store) (hinv : Inv account) :
    Agrees (withMerge account worker run store) := by
  intro documentId data hdata
  by_cases hmoved : ∃ move ∈ moves, move.documentId = documentId
  · obtain ⟨move, hmove, rfl⟩ := hmoved
    obtain ⟨⟨found, hfound, -⟩, before, -, hafter⟩ := h.moved move hmove
    cases hafter.symm.trans hdata
    refine ⟨⟨run.threadName, { found with threadId := merge.mergeThreadId }, ?_⟩,
      fun threadName info hinfo => ?_⟩
    · refine (h.indexed move hmove).trans ?_
      rw [hfound]
      rfl
    · obtain ⟨before', hbefore', -, ⟨-, -, hthread⟩ | ⟨hother, -⟩⟩ := h.of_index hinfo
      · exact hthread
      · have hname := hinv.single threadName run.threadName _ before' found hbefore' hfound
        exact absurd rfl (hother hname move hmove)
  · have hother : ∀ move ∈ moves, move.documentId ≠ documentId := fun move hmove heq =>
      hmoved ⟨move, hmove, heq⟩
    obtain ⟨⟨threadName, info, hinfo⟩, hagree⟩ :=
      hinv.agrees documentId data ((h.dataFrame documentId hother).symm.trans hdata)
    refine ⟨⟨threadName, info, ?_⟩, fun name info' hinfo' => hagree name info' ?_⟩
    · exact (h.indexFrame (threadName, documentId) fun _ => hother).trans hinfo
    · exact (h.indexFrame (name, documentId) fun _ => hother).symm.trans hinfo'

theorem Inv.withMerge (h : Inv account) (hrun : Working account run)
    (hphase : run.phase = .read merge [] moves) (hcareful : CarefulCommit account run merge)
    (hmerged : Merged run.threadName merge.mergeThreadId moves (account.data, account.index) store) :
    Inv (withMerge account worker run store) := by
  have hreading := hrun.reading _ _ _ hphase
  have hlater : Later account (Threads.withMerge account worker run store) :=
    ⟨fun _ hknown => hknown, fun _ _ hgone => hmerged.of_data.mpr hgone, le_rfl,
      fun _ task' _ htask' => ⟨task', htask', rfl, rfl⟩⟩
  have hdone : Working account { run with phase := .done true } :=
    hrun.setPhase fun _ _ _ heq => nomatch heq
  refine ⟨?_, ?_, ?_, ?_, h.arrivals, h.tasks, ?_, ?_⟩
  · rintro ⟨threadName, documentId⟩ info hinfo
    obtain ⟨before, hbefore, hreferences, -⟩ := hmerged.of_index hinfo
    rw [hreferences]
    exact h.ordered _ before hbefore
  · intro threadName documentId info hinfo
    obtain ⟨before, hbefore, -⟩ := hmerged.of_index hinfo
    exact h.known threadName documentId before hbefore
  · intro threadName threadName' documentId info info' hinfo hinfo'
    obtain ⟨before, hbefore, -⟩ := hmerged.of_index hinfo
    obtain ⟨before', hbefore', -⟩ := hmerged.of_index hinfo'
    exact h.single threadName threadName' documentId before before' hbefore hbefore'
  · exact hmerged.agrees h
  · intro other run' hrun'
    rcases Tables.of_insert hrun' with ⟨-, rfl⟩ | ⟨-, hold⟩
    · exact hdone.later hlater
    · exact (h.runs other run' hold).later hlater
  · intro threadName documentId documentId' info info' hfirst hsecond hmeet
    exact hmerged.pairs h hrun hreading hcareful hfirst hsecond hmeet

theorem inv_commit (h : Inv account) (hcareful : ∀ run ∈ account.runs.lookup worker, ∀ merge moves,
      run.phase = .read merge [] moves → CarefulCommit account run merge)
    (hstep : commit account worker = some account') : Inv account' := by
  unfold commit at hstep
  split at hstep
  · cases hstep
  rename_i run hlookup
  have hrun := h.runs worker run hlookup
  split at hstep
  · rename_i merge moves hphase
    split at hstep
    · rename_i store hstore
      cases hstep
      refine h.withMerge hrun hphase (hcareful run hlookup merge moves hphase) ?_
      refine merged_of_transact (fun move hmove => ?_) hstore
      exact ((hrun.reading _ _ _ hphase).taken move hmove).1
    · split at hstep
      all_goals
        cases hstep
        exact h.setRun_unfinished (hrun.setPhase fun _ _ _ heq => nomatch heq) fun heq => nomatch heq
  · cases hstep

end Commit

/-! ## Tasks -/

theorem Inv.setTasks (h : Inv account) {tasks : AList fun _ : Nat => MergeTask}
    {runs : AList fun _ : Nat => MergeRun}
    (hruns : ∀ worker run, runs.lookup worker = some run → account.runs.lookup worker = some run)
    (htasks : ∀ id task', tasks.lookup id = some task' → ∃ task, account.tasks.lookup id = some task ∧
      task.threadName = task'.threadName ∧ task.messageIds = task'.messageIds)
    (hwait : ∀ id task, Waiting account id task → tasks.lookup id = some task) :
    Inv { account with tasks, runs } := by
  have hlater : Later account { account with tasks, runs } :=
    ⟨fun _ hknown => hknown, fun _ _ hgone => hgone, le_rfl, fun id task' _ htask' =>
      htasks id task' htask'⟩
  refine ⟨h.ordered, h.known, h.single, h.agrees, h.arrivals, ?_, ?_, ?_⟩
  · intro id task' htask'
    obtain ⟨task, htask, -⟩ := htasks id task' htask'
    exact h.tasks id task htask
  · exact fun worker run hrun => (h.runs worker run (hruns worker run hrun)).later hlater
  · intro threadName documentId documentId' info info' hlive hlive' hmeet
    refine (h.pairs threadName documentId documentId' info info' ⟨hlive.1, hlive.2⟩
      ⟨hlive'.1, hlive'.2⟩ hmeet).imp_right ?_
    rintro ⟨id, task, hwaiting, hrest⟩
    exact ⟨id, task, ⟨hwait id task hwaiting, hwaiting.due, fun worker run hrun =>
      hwaiting.unfinished worker run (hruns worker run hrun)⟩, hrest⟩

theorem inv_update (h : Inv account) {again : Bool}
    (hcareful : ∀ run ∈ account.runs.lookup worker, run.phase = .done false → again = true)
    (hstep : update account worker again = some account') : Inv account' := by
  unfold update at hstep
  split at hstep
  · cases hstep
  rename_i run hlookup
  split at hstep
  · rename_i success hphase
    have hruns : ∀ other run', (account.runs.erase worker).lookup other = some run' →
        account.runs.lookup other = some run' := fun other run' hrun' => (Tables.of_erase hrun').2
    dsimp only at hstep
    split at hstep
    · rename_i hsuccess
      cases hstep
      refine h.setTasks hruns (fun id task' htask' => ?_) fun id task hwaiting => ?_
      · exact ⟨task', (Tables.of_erase htask').2, rfl, rfl⟩
      · have hne : id ≠ run.task := fun heq =>
          hwaiting.unfinished worker run hlookup heq.symm (hsuccess ▸ hphase)
        rw [AList.lookup_erase_ne hne]
        exact hwaiting.queued
    · rename_i hsuccess
      rw [Bool.not_eq_true] at hsuccess
      cases hcareful run hlookup (hsuccess ▸ hphase)
      split at hstep
      · cases hstep
        exact h.setTasks hruns (fun id task' htask' => ⟨task', htask', rfl, rfl⟩)
          fun id task hwaiting => hwaiting.queued
      · rename_i task htask
        cases hstep
        refine h.setTasks hruns (fun id task' htask' => ?_) fun id task' hwaiting => ?_
        · rcases Tables.of_insert htask' with ⟨rfl, rfl⟩ | ⟨-, hold⟩
          · exact ⟨task, htask, rfl, rfl⟩
          · exact ⟨task', hold, rfl, rfl⟩
        · by_cases heq : id = run.task
          · subst heq
            cases htask.symm.trans hwaiting.queued
            have hdue := hwaiting.due
            rw [AList.lookup_insert, Bool.not_true, ← hdue]
          · rw [AList.lookup_insert_ne heq]
            exact hwaiting.queued
  · cases hstep

/-! ## Steps with nothing in between -/

/-! ## Runs -/

theorem inv_step (h : Inv account) {l : Step} (hcareful : Careful account l)
    (hstep : step account l = some account') : Inv account' := by
  cases l with
  | receive => exact inv_receive h hstep
  | assign => exact inv_assign h hstep
  | ingest => exact inv_ingest h hcareful hstep
  | drop => exact inv_drop h hstep
  | edit => exact inv_edit h hstep
  | destroy => exact inv_destroy h hstep
  | unindex => exact inv_unindex h hstep
  | start => exact inv_start h hstep
  | scan => exact inv_scan h hstep
  | read => exact inv_read h hstep
  | commit => exact inv_commit h hcareful hstep
  | fail => exact inv_fail h hstep
  | update => exact inv_update h hcareful hstep

theorem inv_empty : Inv emptyAccount := by
  refine ⟨?_, ?_, ?_, ?_, ?_, ?_, ?_, ?_⟩
  · exact fun _ _ hinfo => nomatch hinfo
  · exact fun _ _ _ hinfo => nomatch hinfo
  · exact fun _ _ _ _ _ hinfo _ => nomatch hinfo
  · exact fun _ _ hdata => nomatch hdata
  · exact fun _ _ hmessage => nomatch hmessage
  · exact fun _ _ htask => nomatch htask
  · exact fun _ _ hrun => nomatch hrun
  · exact fun _ _ _ _ _ hlive _ _ => nomatch hlive.1

/-- Two messages by IMAP, the second received before the first is stored, and their two tasks. -/
def twoAppends : List Step :=
  [.receive 1 .imap 7 [5] 0 fun _ => false, .receive 2 .imap 7 [6, 5] 0 fun _ => false,
    .assign 1, .assign 2, .ingest 1, .ingest 2, .start 1 1, .scan 1, .read 1, .commit 1,
    .update 1 false, .start 1 2, .scan 1, .update 1 false]

/-- Two deliveries by SMTP, the second received before the first is stored. -/
def twoDeliveries : List Step :=
  [.receive 1 .smtp 7 [5] 0 fun _ => false, .receive 2 .smtp 7 [6, 5] 0 fun _ => false,
    .assign 1, .assign 2, .ingest 1, .ingest 2]

end Bearmail.Threads
