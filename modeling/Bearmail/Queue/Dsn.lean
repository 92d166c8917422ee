import Bearmail.Queue.System

/-!
# One notification for each recipient

A worker reports on every recipient of its copy that is done and has not been reported, and marks
it; what it marks in recipients of other queues is not written back.
-/

namespace Bearmail.Queue

open List Function

/-- How often a recipient has been reported as delivered or as failed. -/
def finalDsns (id : QueueId) (idx : Nat) (dsns : List (QueueId × Nat × DsnKind)) : Nat :=
  dsns.countP fun dsn =>
    decide (dsn.1 = id) && (decide (dsn.2.1 = idx) && DsnKind.isFinal (some dsn.2.2))

/-- A worker finds no recipient of another queue expired, and while others are at work it leaves
its recipients in its queue. New messages have scheduled recipients (`Recipient::new`). -/
def Considerate (s : System) : Label → Prop
  | .queue _ message => ∀ rcpt ∈ message.recipients, rcpt.status = .scheduled
  | .finish id queueName attempt => ∀ w, s.workers id queueName = some w →
    (∀ rcpt ∈ w.read.recipients, rcpt.status.pending = true → rcpt.queue ≠ queueName →
      rcpt.isExpired w.read.created (attempt.now 0) = false) ∧
    ((w.wrapper id queueName attempt).isMultiQueue = true →
      ∀ result ∈ attempt.results, result.2.KeepsQueue queueName)
  | label => label.byWorker

def Message.SameMail (m m' : Message) : Prop :=
  m.returnPath = m'.returnPath ∧ m.blobHash = m'.blobHash

/-- Everybody who is done has been reported, unless there is no one to report to. -/
def Message.Marked (m : Message) : Prop :=
  ∀ rcpt ∈ m.recipients, m.returnPath ≠ "" → rcpt.status.pending = false → rcpt.flags.silent = true

/-- Who is pending in the store, or in a worker's queue, has not been reported. -/
structure Unreported (s : System) : Prop where
  once : ∀ id idx, finalDsns id idx s.dsns ≤ 1
  fresh : ∀ id, id ∉ s.ids → ∀ idx, finalDsns id idx s.dsns = 0
  stored : ∀ id m, s.spool.messages id = some m → m.Marked ∧
    ∀ (idx : Nat) (rcpt : Recipient), m.recipients[idx]? = some rcpt →
      rcpt.status.pending = true → finalDsns id idx s.dsns = 0
  workers : ∀ id queueName w, s.workers id queueName = some w → w.read.Marked ∧
    ∀ (idx : Nat) (rcpt : Recipient), w.read.recipients[idx]? = some rcpt →
      rcpt.status.pending = true → rcpt.queue = queueName → finalDsns id idx s.dsns = 0

structure OneMail (s : System) : Prop where
  stored : ∀ id queueName w m, s.workers id queueName = some w → s.spool.messages id = some m →
    w.read.SameMail m
  others : ∀ id queueName queueName' w w', s.workers id queueName = some w →
    s.workers id queueName' = some w' → w.read.SameMail w'.read

theorem finalDsns_append (id id' : QueueId) (idx : Nat) (dsns : List (QueueId × Nat × DsnKind))
    (reports : List (Nat × DsnKind)) :
    finalDsns id' idx (dsns ++ reports.map fun report => (id, report)) =
      finalDsns id' idx dsns + if id' = id then finalReports idx reports else 0 := by
  rw [finalDsns, countP_append, countP_map]
  congr 1
  split
  · rename_i heq
    subst heq
    refine countP_congr fun report _ => ?_
    simp
  · rename_i hne
    simp [Ne.symm hne]

/-! ## Copies of one mail -/

section Mail

variable {s : System} {id : QueueId} {queueName : QueueName} {attempt : Attempt} {w : Worker}

theorem task_sameMail (queueName : QueueName) (attempt : Attempt) (m : Message) :
    m.SameMail (deliverTask queueName attempt m).1 := by
  rw [(deliverTask_rcpts queueName attempt m).1.1]
  exact ⟨rfl, rfl⟩

theorem saved_sameMail (hmail : OneMail s) (hw : s.workers id queueName = some w) {spool : Spool}
    (hsaved : s.spool.saveChanges (w.wrapper id queueName attempt) (some w.due) = some spool)
    {m : Message} (hm : spool.messages id = some m) : w.read.SameMail m := by
  rcases worker_save_cases hsaved with ⟨-, current, hcurrent, -, hmessages⟩ | ⟨-, hmessages⟩
  · rw [hmessages, update_self] at hm
    cases hm
    exact hmail.stored id queueName w current hw hcurrent
  · rw [hmessages, update_self] at hm
    cases hm
    rw [releaseQuota_eq]
    exact task_sameMail queueName attempt w.read

theorem oneMail_finish (hmail : OneMail s) (hw : s.workers id queueName = some w) :
    OneMail (s.finish w id queueName attempt) := by
  refine ⟨fun id' queueName' w' m hw' hm => ?_, fun id' queueName' queueName'' w' w'' hw' hw'' =>
    hmail.others id' queueName' queueName'' w' w'' (finish_worker_other hw').2
      (finish_worker_other hw'').2⟩
  obtain ⟨-, hstays⟩ := finish_worker_other hw'
  rcases finish_cases s w id queueName attempt with
    ⟨-, hspool, -⟩ | ⟨-, -, hspool, -⟩ | ⟨-, hsaved, -⟩
  · rw [hspool] at hm
    by_cases heq : id' = id
    · subst heq
      cases (update_self _ _ _).symm.trans hm
    · exact hmail.stored id' queueName' w' m hstays ((update_of_ne heq _ _).symm.trans hm)
  · rw [hspool] at hm
    exact hmail.stored id' queueName' w' m hstays hm
  · by_cases heq : id' = id
    · subst heq
      have hsaver := saved_sameMail hmail hw hsaved hm
      have hother := hmail.others id' queueName' queueName w' w hstays hw
      exact ⟨hother.1.trans hsaver.1, hother.2.trans hsaver.2⟩
    · obtain ⟨message, hspool, -⟩ := saveChanges_cases hsaved
      rw [hspool] at hm
      exact hmail.stored id' queueName' w' m hstays ((update_of_ne heq _ _).symm.trans hm)

theorem oneMail_step {s' : System} {label : Label} (hmail : OneMail s) (howned : Owned s)
    (hlabel : label.byWorker) (h : s.step label = some s') : OneMail s' := by
  cases label with
  | queue id message =>
    obtain ⟨hfresh, rfl⟩ := step_queue h
    refine ⟨fun id' queueName w m hw hm => ?_, hmail.others⟩
    by_cases heq : id' = id
    · subst heq
      cases ((howned.fresh id' hfresh).2 queueName).symm.trans hw
    · exact hmail.stored id' queueName w m hw ((update_of_ne heq _ _).symm.trans hm)
  | start event =>
    obtain ⟨message, -, hmessage, -, rfl⟩ := step_start h
    refine ⟨fun id queueName w m hw hm => ?_, fun id queueName queueName' w w' hw hw' => ?_⟩
    · rcases setWorker_workers hw with ⟨rfl, -, heq⟩ | hw
      · cases heq
        cases hmessage.symm.trans hm
        exact ⟨rfl, rfl⟩
      · exact hmail.stored id queueName w m hw hm
    · rcases setWorker_workers hw with ⟨rfl, rfl, heq⟩ | hw
      · cases heq
        rcases setWorker_workers hw' with ⟨-, -, heq'⟩ | hw'
        · cases heq'
          exact ⟨rfl, rfl⟩
        · have hread := hmail.stored _ queueName' w' message hw' hmessage
          exact ⟨hread.1.symm, hread.2.symm⟩
      · rcases setWorker_workers hw' with ⟨rfl, rfl, heq'⟩ | hw'
        · cases heq'
          exact hmail.stored _ queueName w message hw hmessage
        · exact hmail.others id queueName queueName' w w' hw hw'
  | drop event =>
    obtain ⟨-, rfl⟩ := step_drop h
    exact ⟨hmail.stored, hmail.others⟩
  | finish id queueName attempt =>
    obtain ⟨w, hw, rfl⟩ := step_finish h
    exact oneMail_finish hmail hw
  | adminRead session id | adminUpdate session recipients envId priority modifiedRcpts
  | adminDestroy session => exact hlabel.elim

end Mail

/-! ## Reports -/

section Reports

variable {s : System} {id : QueueId} {queueName : QueueName} {attempt : Attempt} {w : Worker}

variable (hunreported : Unreported s)
include hunreported

theorem reported_own (hw : s.workers id queueName = some w)
    (hcond : Considerate s (.finish id queueName attempt)) {idx : Nat}
    (h : finalReports idx (deliverTask queueName attempt w.read).2.2 ≠ 0) :
    ∃ read done, w.read.recipients[idx]? = some read ∧
      (deliverTask queueName attempt w.read).1.recipients[idx]? = some done ∧
      read.status.pending = true ∧ read.queue = queueName ∧ done.status.pending = false ∧
      ((w.wrapper id queueName attempt).isMultiQueue = true → done.queue = queueName) := by
  cases hread : w.read.recipients[idx]? with
  | none => exact absurd (deliverTask_beyond queueName attempt w.read
      (List.getElem?_eq_none_iff.mp hread)) h
  | some read =>
    have hmem := mem_of_getElem? hread
    obtain ⟨done, hdone, hhandled⟩ :=
      (deliverTask_rcpts queueName attempt w.read).2 idx read hread
    obtain ⟨hpath, hfinal⟩ := hhandled.reported h
    have hpending : read.status.pending = true := by
      by_contra hover
      have hover' := Bool.eq_false_iff.mpr hover
      have hmarked := (hunreported.workers id queueName w hw).1 read hmem hpath hover'
      exact h (hhandled.silent hmarked)
    have hqueue : read.queue = queueName := by
      by_contra hother
      have hown := hhandled.own
      rw [expire_of_valid ((hcond w hw).1 read hmem hpending hother)] at hown
      rcases hown with hsame | ⟨-, hqueue⟩
      · rw [hsame.1, hpending] at hfinal
        cases hfinal
      · exact hother hqueue
    exact ⟨read, done, rfl, hdone, hpending, hqueue, hfinal, fun hmulti =>
      (hhandled.queue ((hcond w hw).2 hmulti)).trans hqueue⟩

/-- What the store has after a save that is done with has been reported and marked. -/
theorem saved_marked (hmail : OneMail s) (hw : s.workers id queueName = some w) {spool : Spool}
    (hsaved : s.spool.saveChanges (w.wrapper id queueName attempt) (some w.due) = some spool)
    {m : Message} (hm : spool.messages id = some m) : m.Marked := by
  intro rcpt hmem hpath hover
  obtain ⟨idx, hget⟩ := mem_iff_getElem?.mp hmem
  have hlen := (saved_length hsaved hm).symm
  obtain ⟨read, hread⟩ := getElem?_of_length hlen hget
  obtain ⟨done, hdone, hhandled⟩ := (deliverTask_rcpts queueName attempt w.read).2 idx read hread
  have hmailed := saved_sameMail hmail hw hsaved hm
  rcases saved_rcpt hsaved hm hdone with ⟨-, heq⟩ | ⟨-, current, hcurrent, heq⟩
  · rw [hget] at heq
    cases heq
    exact hhandled.marked (by rw [hmailed.1]; exact hpath) hover
  · rw [hget] at heq
    have hmarked := (hunreported.stored id current hcurrent).1
    have hstored := hmail.stored id queueName w current hw hcurrent
    exact hmarked rcpt (mem_of_getElem? heq.symm) (by rw [← hstored.1, hmailed.1]; exact hpath) hover

theorem saved_unreported (hw : s.workers id queueName = some w)
    (hcond : Considerate s (.finish id queueName attempt)) {spool : Spool}
    (hsaved : s.spool.saveChanges (w.wrapper id queueName attempt) (some w.due) = some spool)
    {m : Message} (hm : spool.messages id = some m) {idx : Nat} {rcpt : Recipient}
    (hget : m.recipients[idx]? = some rcpt) (hpending : rcpt.status.pending = true) :
    finalDsns id idx s.dsns = 0 ∧ finalReports idx (deliverTask queueName attempt w.read).2.2 = 0 := by
  have hlen := (saved_length hsaved hm).symm
  obtain ⟨read, hread⟩ := getElem?_of_length hlen hget
  obtain ⟨done, hdone, hhandled⟩ := (deliverTask_rcpts queueName attempt w.read).2 idx read hread
  rcases saved_rcpt hsaved hm hdone with ⟨hwrites, heq⟩ | ⟨hnot, current, hcurrent, heq⟩
  · cases hget.symm.trans heq
    have hreport : finalReports idx (deliverTask queueName attempt w.read).2.2 = 0 := by
      by_contra h
      rw [(hhandled.reported h).2] at hpending
      cases hpending
    have hread' : read.status.pending = true := by
      by_contra hover
      have hsame := hhandled.same (Bool.eq_false_iff.mpr hover)
      rw [hsame.1] at hpending
      exact hover hpending
    have hqueue : read.queue = queueName := by
      rcases hwrites with hsingle | hqueue
      · exact queue_of_single hsingle hread hread'
      · exact hhandled.queue_eq hqueue
    exact ⟨(hunreported.workers id queueName w hw).2 idx read hread hread' hqueue, hreport⟩
  · rw [hget] at heq
    refine ⟨(hunreported.stored id current hcurrent).2 idx rcpt heq.symm hpending, ?_⟩
    by_contra h
    obtain ⟨_, done', -, hdone', -, -, -, hqueue⟩ := reported_own hunreported hw hcond h
    cases hdone.symm.trans hdone'
    rw [Worker.writes, not_or] at hnot
    exact hnot.2 (hqueue (by simpa using hnot.1))

theorem unreported_finish (howned : Owned s) (hmail : OneMail s) (hw : s.workers id queueName = some w)
    (hcond : Considerate s (.finish id queueName attempt)) :
    Unreported (s.finish w id queueName attempt) := by
  have hcount : ∀ id' idx, finalDsns id' idx (s.finish w id queueName attempt).dsns =
      finalDsns id' idx s.dsns + if id' = id then
        finalReports idx (deliverTask queueName attempt w.read).2.2 else 0 := by
    intro id' idx
    rw [finish_dsns, finalDsns_append]
  have hid : id ∈ s.ids := by
    by_contra hid
    rw [(howned.fresh id hid).2] at hw
    cases hw
  refine ⟨fun id' idx => ?_, fun id' hid' idx => ?_, fun id' m hm => ?_, fun id' queueName' w' hw' => ?_⟩
  · rw [hcount]
    split
    · rename_i heq
      subst heq
      by_cases hreport : finalReports idx (deliverTask queueName attempt w.read).2.2 = 0
      · rw [hreport]
        exact hunreported.once id' idx
      · obtain ⟨read, done, hread, -, hpending, hqueue, -⟩ :=
          reported_own hunreported hw hcond hreport
        obtain ⟨_, -, hhandled⟩ := (deliverTask_rcpts queueName attempt w.read).2 idx read hread
        have hold := (hunreported.workers id' queueName w hw).2 idx read hread hpending hqueue
        have honce := hhandled.once
        omega
    · exact hunreported.once id' idx
  · rw [finish_ids] at hid'
    have hne : id' ≠ id := fun h => hid' (h ▸ hid)
    rw [hcount, if_neg hne]
    exact hunreported.fresh id' hid' idx
  · by_cases heq : id' = id
    · subst heq
      rcases finish_cases s w id' queueName attempt with
        ⟨-, hspool, -⟩ | ⟨-, hfailed, hspool, -⟩ | ⟨-, hsaved, -⟩
      · rw [hspool] at hm
        cases (update_self _ _ _).symm.trans hm
      · -- a save fails only if the message is gone
        rw [hspool] at hm
        have hlen := (howned.stored id' queueName w m hw hm).1
        have hstored := hmail.stored id' queueName w m hw hm
        have htask := task_sameMail queueName attempt w.read
        exact (saveChanges_eq_none hfailed hm (hstored.2.symm.trans htask.2)
          (hlen.trans (deliverTask_rcpts queueName attempt w.read).1.2.symm)).elim
      · refine ⟨saved_marked hunreported hmail hw hsaved hm, fun idx rcpt hget hpending => ?_⟩
        obtain ⟨hold, hreport⟩ := saved_unreported hunreported hw hcond hsaved hm hget hpending
        simp [hcount, hold, hreport]
    · have hm' : s.spool.messages id' = some m := by
        rcases finish_cases s w id queueName attempt with
          ⟨-, hspool, -⟩ | ⟨-, -, hspool, -⟩ | ⟨-, hsaved, -⟩
        · rw [hspool] at hm
          exact (update_of_ne heq _ _).symm.trans hm
        · rw [hspool] at hm
          exact hm
        · obtain ⟨message, hspool, -⟩ := saveChanges_cases hsaved
          rw [hspool] at hm
          exact (update_of_ne heq _ _).symm.trans hm
      refine ⟨(hunreported.stored id' m hm').1, fun idx rcpt hget hpending => ?_⟩
      rw [hcount, if_neg heq]
      exact (hunreported.stored id' m hm').2 idx rcpt hget hpending
  · obtain ⟨hne, hstays⟩ := finish_worker_other hw'
    obtain ⟨hmarked, hpending⟩ := hunreported.workers id' queueName' w' hstays
    refine ⟨hmarked, fun idx rcpt hget hpending' hqueue => ?_⟩
    rw [hcount, hpending idx rcpt hget hpending' hqueue]
    split
    · rename_i heq
      subst heq
      by_contra hreport
      rw [Nat.zero_add] at hreport
      obtain ⟨read, done, hread, -, -, hown, -⟩ := reported_own hunreported hw hcond hreport
      have hne' : queueName' ≠ queueName := fun h => hne ⟨rfl, h⟩
      have hagree := (howned.others id' queueName' queueName w' w hne' hstays hw).2 idx rcpt read
        hget hread (Or.inl hqueue) (Or.inl hown)
      exact hne' (by rw [← hqueue, ← hagree.2, hown])
    · rfl

omit hunreported

end Reports

theorem considerate_byWorker {s : System} {label : Label} (h : Considerate s label) :
    label.byWorker := by
  cases label with
  | queue id message | start event | drop event | finish id queueName attempt => trivial
  | adminRead session id | adminUpdate session recipients envId priority modifiedRcpts
  | adminDestroy session => exact h

theorem unreported_step {s s' : System} {label : Label} (hunreported : Unreported s)
    (howned : Owned s) (hmail : OneMail s) (hcond : Considerate s label)
    (h : s.step label = some s') : Unreported s' := by
  cases label with
  | queue id message =>
    obtain ⟨hfresh, rfl⟩ := step_queue h
    refine ⟨hunreported.once, fun id' hid' => ?_, fun id' m hm => ?_, hunreported.workers⟩
    · rw [Finset.mem_insert, not_or] at hid'
      exact hunreported.fresh id' hid'.2
    · by_cases heq : id' = id
      · subst heq
        cases (update_self _ _ _).symm.trans hm
        refine ⟨fun rcpt hmem _ hover => ?_, fun idx _ _ _ => hunreported.fresh id' hfresh idx⟩
        rw [hcond rcpt hmem] at hover
        cases hover
      · exact hunreported.stored id' m ((update_of_ne heq _ _).symm.trans hm)
  | start event =>
    obtain ⟨message, -, hmessage, -, rfl⟩ := step_start h
    refine ⟨hunreported.once, hunreported.fresh, hunreported.stored, fun id queueName w hw => ?_⟩
    rcases setWorker_workers hw with ⟨rfl, -, heq⟩ | hw
    · cases heq
      obtain ⟨hmarked, hpending⟩ := hunreported.stored _ message hmessage
      exact ⟨hmarked, fun idx rcpt hget hrcpt _ => hpending idx rcpt hget hrcpt⟩
    · exact hunreported.workers id queueName w hw
  | drop event =>
    obtain ⟨-, rfl⟩ := step_drop h
    exact ⟨hunreported.once, hunreported.fresh, hunreported.stored, hunreported.workers⟩
  | finish id queueName attempt =>
    obtain ⟨w, hw, rfl⟩ := step_finish h
    exact unreported_finish hunreported howned hmail hw hcond
  | adminRead session id | adminUpdate session recipients envId priority modifiedRcpts
  | adminDestroy session => exact False.elim hcond

/-- In every run of considerate workers a recipient is reported as delivered or failed at most
once. -/
theorem reported_once (labels : List Label)
    (hcond : Runs.Along System.step Considerate System.empty labels) (s : System)
    (hrun : System.run labels = some s) (id : QueueId) (idx : Nat) :
    finalDsns id idx s.dsns ≤ 1 := by
  have hempty : Unreported System.empty ∧ Owned System.empty ∧ OneMail System.empty :=
    ⟨⟨fun _ _ => Nat.zero_le 1, fun _ _ _ => rfl, fun _ _ h => (by cases h),
      fun _ _ _ h => (by cases h)⟩, owned_empty,
      ⟨fun _ _ _ _ h => (by cases h), fun _ _ _ _ _ h => by cases h⟩⟩
  have hinv : Unreported s ∧ Owned s ∧ OneMail s :=
    Runs.run_invariant (fun s => Unreported s ∧ Owned s ∧ OneMail s)
      (fun _ _ _ hinv hcond hstep =>
        have hworker := considerate_byWorker hcond
        ⟨unreported_step hinv.1 hinv.2.1 hinv.2.2 hcond hstep,
          owned_step hinv.2.1 hworker hstep, oneMail_step hinv.2.2 hinv.2.1 hworker hstep⟩)
      hcond hempty hrun
  exact hinv.1.once id idx

def consideredRun : List Label :=
  [.queue 1 (newMessage [newRecipient "a@x.org" "local", newRecipient "b@y.org" "remote"] []),
    .start ⟨0, 1, "local"⟩, .start ⟨0, 1, "remote"⟩,
    .finish 1 "local" (attemptWith 10 "local" 0 delivered),
    .finish 1 "remote" (attemptWith 10 "remote" 1 delivered)]

theorem reported_once_consideredRun :
    Runs.Along System.step Considerate System.empty consideredRun ∧
      ∃ s, System.run consideredRun = some s ∧ s.dsns = [(1, 0, .success), (1, 1, .success)] ∧
        ∀ idx, finalDsns 1 idx s.dsns ≤ 1 := by
  have hcond : Runs.Along System.step Considerate System.empty consideredRun := by
    refine ⟨?_, fun s₁ h₁ => ⟨trivial, fun s₂ h₂ => ⟨trivial, fun s₃ h₃ =>
      ⟨fun w hw => ?_, fun s₄ h₄ => ⟨fun w hw => ?_, fun _ _ => trivial⟩⟩⟩⟩⟩
    · simp [Considerate, newMessage, newRecipient]
    · cases h₁
      cases h₂
      cases h₃
      cases hw
      refine ⟨by decide, fun _ result hmem => ?_⟩
      cases mem_singleton.mp hmem
      rfl
    · cases h₁
      cases h₂
      cases h₃
      cases h₄
      cases hw
      refine ⟨by decide, fun _ result hmem => ?_⟩
      cases mem_singleton.mp hmem
      rfl
  have hrun : ((System.run consideredRun).map fun s => s.dsns) =
      some [(1, 0, .success), (1, 1, .success)] := by decide
  obtain ⟨s, hs, hdsns⟩ := Option.map_eq_some_iff.mp hrun
  exact ⟨hcond, s, hs, hdsns, reported_once consideredRun hcond s hs 1⟩

/-- The worker of one queue finds the recipient of another queue expired and reports it; its mark
is not written back, and the worker of the other queue reports it again. -/
theorem reported_twice :
    ((System.run [
      .queue 1 (newMessage [newRecipient "a@x.org" "local",
        { newRecipient "b@y.org" "remote" with expires := .ttl 20 }] []),
      .start ⟨0, 1, "local"⟩, .finish 1 "local" (attemptWith 30 "local" 0 greylisted),
      .start ⟨0, 1, "remote"⟩, .finish 1 "remote" (attemptAt 40 [])]).map fun s => s.dsns) =
      some [(1, 1, .failure), (1, 1, .failure)] := by
  decide

end Bearmail.Queue
