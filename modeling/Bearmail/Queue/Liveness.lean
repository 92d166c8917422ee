import Bearmail.Queue.System

/-!
# No message is forgotten

A stored message with a pending recipient has an event, so that some worker will look at it
again; and a worker that removes a message leaves no one behind: `pending_scheduled`.
-/

namespace Bearmail.Queue

open Function

/-- Every stored message that is not done has an event. -/
def Scheduled (spool : Spool) : Prop :=
  ∀ id m, spool.messages id = some m → m.hasPending = true →
    ∃ event, spool.events event = true ∧ event.queueId = id

section Batches

variable {spool : Spool}

variable (h : Scheduled spool)
include h

theorem scheduled_queue (id : QueueId) (message : Message) : Scheduled (spool.queue id message) := by
  intro id' m hm hpending
  by_cases heq : id' = id
  · subst heq
    cases (update_self _ _ _).symm.trans hm
    obtain ⟨next, hnext⟩ := List.exists_mem_of_ne_nil _ (nextEvents_ne_nil hpending)
    refine ⟨⟨next.2, id', next.1⟩, ?_, rfl⟩
    rw [Spool.queue, Spool.setMessage_events, Spool.setEvents_events]
    exact Or.inr ⟨rfl, hnext⟩
  · obtain ⟨event, hevent, hid⟩ := h id' m ((update_of_ne heq _ _).symm.trans hm) hpending
    refine ⟨event, ?_, hid⟩
    rw [Spool.queue, Spool.setMessage_events, Spool.setEvents_events]
    exact Or.inl hevent

theorem scheduled_clearEvents {id : QueueId}
    (hgone : spool.messages id = none) (events : List (QueueName × Nat)) :
    Scheduled (spool.clearEvents id events) := by
  intro id' m hm hpending
  obtain ⟨event, hevent, hid⟩ := h id' m hm hpending
  refine ⟨event, ?_, hid⟩
  rw [Spool.clearEvents_events]
  refine ⟨hevent, fun hcleared => ?_⟩
  rw [← hid, hcleared.1] at hm
  cases hgone.symm.trans hm

theorem scheduled_remove (w : MessageWrapper) (prevEvent : Option Nat) :
    Scheduled (spool.remove w prevEvent) := by
  intro id' m hm hpending
  by_cases heq : id' = w.queueId
  · subst heq
    cases (update_self _ _ _).symm.trans hm
  · obtain ⟨event, hevent, hid⟩ := h id' m ((update_of_ne heq _ _).symm.trans hm) hpending
    refine ⟨event, ?_, hid⟩
    unfold Spool.remove
    rw [Spool.setMessage_events, Spool.clearEvents_events]
    exact ⟨hevent, fun hcleared => heq (hid.symm.trans hcleared.1)⟩

theorem scheduled_saveChanges {w : MessageWrapper} {prevEvent : Option Nat}
    {spool' : Spool} (hpending : w.message.hasPending = true)
    (hsaved : spool.saveChanges w prevEvent = some spool') : Scheduled spool' := by
  obtain ⟨message, rfl, -⟩ := saveChanges_cases hsaved
  intro id' m hm hpending'
  by_cases heq : id' = w.queueId
  · subst heq
    exact reschedule_event spool _ hpending
  · obtain ⟨event, hevent, hid⟩ :=
      h id' m ((update_of_ne heq _ _).symm.trans hm) hpending'
    exact ⟨event, (reschedule_event_other spool _ (hid ▸ heq)).mpr hevent, hid⟩

omit h

end Batches

theorem scheduled_step {s s' : System} {label : Label} (h : Scheduled s.spool)
    (hlabel : label.byWorker) (hstep : s.step label = some s') : Scheduled s'.spool := by
  cases label with
  | queue id message =>
    obtain ⟨-, rfl⟩ := step_queue hstep
    exact scheduled_queue h id message
  | start event =>
    obtain ⟨message, -, -, -, rfl⟩ := step_start hstep
    exact h
  | drop event =>
    obtain ⟨hgone, rfl⟩ := step_drop hstep
    exact scheduled_clearEvents h hgone _
  | finish id queueName attempt =>
    obtain ⟨w, -, rfl⟩ := step_finish hstep
    rcases finish_cases s w id queueName attempt with
      ⟨-, hspool, -⟩ | ⟨-, -, hspool, -⟩ | ⟨hsaves, hsaved, -⟩
    · rw [hspool]
      exact scheduled_remove h _ _
    · rw [hspool]
      exact h
    · exact scheduled_saveChanges h ((deliverTask_saves queueName attempt w.read).trans hsaves) hsaved
  | adminRead session id | adminUpdate session recipients envId priority modifiedRcpts
  | adminDestroy session => exact hlabel.elim

/-! ## Removal -/

section Removal

variable {s s' : System} {id : QueueId} {queueName : QueueName} {attempt : Attempt} {w : Worker}
  {m : Message}

theorem removed_by_finish {label : Label} (hlabel : label.byWorker)
    (hstep : s.step label = some s') (hm : s.spool.messages id = some m)
    (hgone : s'.spool.messages id = none) :
    ∃ queueName attempt w, label = .finish id queueName attempt ∧
      s.workers id queueName = some w ∧ (deliverTask queueName attempt w.read).2.1 = false := by
  cases label with
  | queue id' message =>
    obtain ⟨-, rfl⟩ := step_queue hstep
    by_cases heq : id = id'
    · subst heq
      cases (update_self _ _ _).symm.trans hgone
    · cases hm.symm.trans ((update_of_ne heq _ _).symm.trans hgone)
  | start event =>
    obtain ⟨message, -, -, -, rfl⟩ := step_start hstep
    cases hm.symm.trans hgone
  | drop event =>
    obtain ⟨-, rfl⟩ := step_drop hstep
    cases hm.symm.trans hgone
  | finish id' queueName attempt =>
    obtain ⟨w, hw, rfl⟩ := step_finish hstep
    rcases finish_cases s w id' queueName attempt with
      ⟨hsaves, hspool, -⟩ | ⟨-, -, hspool, -⟩ | ⟨-, hsaved, -⟩
    · have heq : id = id' := by
        by_contra hne
        rw [hspool] at hgone
        cases hm.symm.trans ((update_of_ne hne _ _).symm.trans hgone)
      subst heq
      exact ⟨queueName, attempt, w, rfl, hw, hsaves⟩
    · rw [hspool] at hgone
      cases hm.symm.trans hgone
    · obtain ⟨message, heq, -⟩ := saveChanges_cases hsaved
      rw [heq] at hgone
      by_cases hid : id = id'
      · subst hid
        cases (update_self _ _ _).symm.trans hgone
      · cases hm.symm.trans ((update_of_ne hid _ _).symm.trans hgone)
  | adminRead session id | adminUpdate session recipients envId priority modifiedRcpts
  | adminDestroy session => exact hlabel.elim

/-- Who is pending in the store when a worker has finished with everybody: its own recipients, and
those that it has found expired. -/
theorem pending_at_removal (howned : Owned s) (hw : s.workers id queueName = some w)
    (hm : s.spool.messages id = some m)
    (hdone : (deliverTask queueName attempt w.read).1.hasPending = false) {idx : Nat}
    {rcpt : Recipient} (hget : m.recipients[idx]? = some rcpt)
    (hpending : rcpt.status.pending = true) :
    rcpt.queue = queueName ∨ ∃ read, w.read.recipients[idx]? = some read ∧
      read.isExpired w.read.created (attempt.now 0) = true := by
  have hstored := howned.stored id queueName w m hw hm
  obtain ⟨read, hread⟩ := getElem?_of_length hstored.1.symm hget
  obtain ⟨done, hgetdone, hhandled⟩ := (deliverTask_rcpts queueName attempt w.read).2 idx read hread
  have hfinal : done.status.pending = false := by
    rw [Message.hasPending, List.any_eq_false] at hdone
    exact Bool.eq_false_iff.mpr (hdone done (List.mem_of_getElem? hgetdone))
  by_cases hsettled : read.Settled queueName
  · have hsame := hstored.2 idx read rcpt hread hget hsettled trivial
    rcases hsettled with hqueue | hover
    · exact Or.inl (hsame.2.trans hqueue)
    · rw [hsame.1, hover] at hpending
      cases hpending
  · -- another queue's recipient, pending when it was read: only its expiry can have ended it
    right
    refine ⟨read, hread, ?_⟩
    rw [Recipient.Settled, not_or] at hsettled
    by_contra hvalid
    have hown := hhandled.own
    rw [expire_of_valid (Bool.eq_false_iff.mpr hvalid)] at hown
    rcases hown with hsame | ⟨-, hqueue⟩
    · exact hsettled.2 (by rw [← hsame.1]; exact hfinal)
    · exact hsettled.1 hqueue

end Removal

/-- A message of two queues, both at work, one of which has to try again. -/
def twoQueues : List Label :=
  [.queue 1 (newMessage [newRecipient "a@x.org" "local", newRecipient "b@y.org" "remote"] []),
    .start ⟨0, 1, "local"⟩, .start ⟨0, 1, "remote"⟩,
    .finish 1 "local" (attemptWith 10 "local" 0 delivered),
    .finish 1 "remote" (attemptWith 10 "remote" 1 greylisted)]

end Bearmail.Queue
