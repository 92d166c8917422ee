import Bearmail.Queue.Message
import Mathlib.Data.Int.Notation

/-!
# The spool

What is stored of the queue, and the batches of `smtp/src/queue/spool.rs`. A batch is atomic: a
merge that fails leaves the store as it was, and is `none` here. Links to the blobs of messages
are left out.
-/

namespace Bearmail.Queue

structure Event where
  due : Nat
  queueId : QueueId
  queueName : QueueName
  deriving DecidableEq

structure Spool where
  messages : QueueId → Option Message
  events : Event → Bool
  quotaCount : List UInt8 → Int
  quotaSize : List UInt8 → Int

structure MessageWrapper where
  queueId : QueueId
  queueName : QueueName
  isMultiQueue : Bool
  message : Message

def MessageWrapper.new (message : Message) (queueId : QueueId) (queueName : QueueName) :
    MessageWrapper :=
  { queueId, queueName, message
    isMultiQueue := message.recipients.any fun rcpt =>
      rcpt.status.pending && decide (rcpt.queue ≠ queueName) }

namespace Spool

def setEvents (spool : Spool) (id : QueueId) (events : List (QueueName × Nat)) : Spool :=
  { spool with events := fun event =>
      spool.events event || decide (event.queueId = id ∧ (event.queueName, event.due) ∈ events) }

def clearEvents (spool : Spool) (id : QueueId) (events : List (QueueName × Nat)) : Spool :=
  { spool with events := fun event =>
      spool.events event && !decide (event.queueId = id ∧ (event.queueName, event.due) ∈ events) }

def setMessage (spool : Spool) (id : QueueId) (message : Option Message) : Spool :=
  { spool with messages := Function.update spool.messages id message }

end Spool

def countEntries (key : List UInt8) (entries : List Metadata) : Nat :=
  entries.countP fun entry =>
    match entry with
    | .queueCount k _ => decide (k = key)
    | _ => false

def sizeEntries (key : List UInt8) (entries : List Metadata) : Nat :=
  entries.countP fun entry =>
    match entry with
    | .queueSize k _ => decide (k = key)
    | _ => false

namespace Spool

/-- Reserve (or release, with a negative sign) quota entries of a message. -/
def addQuota (spool : Spool) (sign : Int) (size : Nat) (entries : List Metadata) : Spool :=
  { spool with
    quotaCount := fun key => spool.quotaCount key + sign * countEntries key entries
    quotaSize := fun key => spool.quotaSize key + sign * (size * sizeEntries key entries) }

def queue (spool : Spool) (id : QueueId) (message : Message) : Spool :=
  ((spool.addQuota 1 message.size message.metadata).setEvents id message.nextEvents).setMessage id
    (some message)

/-- The stored recipients, with those of a changed copy that are written back. -/
def mergeRecipients (written : Nat → Recipient → Bool) (current changed : List Recipient) :
    List Recipient :=
  current.mapIdx fun idx rcpt =>
    match changed[idx]? with
    | some rcpt' => if written idx rcpt' then rcpt' else rcpt
    | none => rcpt

/-- The merge checks that both copies are of one message. -/
def mergeable (current changed : Message) : Bool :=
  decide (current.blobHash = changed.blobHash ∧ current.recipients.length = changed.recipients.length)

/-- What both ways to save have in common: quotas of done recipients are released and the events
of the message are written anew. -/
def reschedule (spool : Spool) (w : MessageWrapper) (prevEvents : List (QueueName × Nat)) :
    Spool :=
  ((spool.addQuota (-1) w.message.size (releaseQuota w.message).2).clearEvents w.queueId
    prevEvents).setEvents w.queueId (releaseQuota w.message).1.nextEvents

def saveChanges (spool : Spool) (w : MessageWrapper) (prevEvent : Option Nat) : Option Spool :=
  let message := (releaseQuota w.message).1
  let batch := spool.reschedule w (prevEvent.toList.map fun due => (w.queueName, due))
  if w.isMultiQueue then
    match spool.messages w.queueId with
    | none => none
    | some current =>
      if mergeable current message then
        some (batch.setMessage w.queueId (some { current with
          recipients := mergeRecipients (fun _ rcpt => decide (rcpt.queue = w.queueName))
            current.recipients message.recipients }))
      else none
  else some (batch.setMessage w.queueId (some message))

def remove (spool : Spool) (w : MessageWrapper) (prevEvent : Option Nat) : Spool :=
  let cleared :=
    match prevEvent with
    | some due => [(w.queueName, due)]
    | none => w.message.nextEvents
  ((spool.addQuota (-1) w.message.size w.message.metadata).clearEvents w.queueId
    cleared).setMessage w.queueId none

def saveRegistryChanges (spool : Spool) (w : MessageWrapper) (prevEvents : List (QueueName × Nat))
    (modifiedRcpts : List Nat) : Option Spool :=
  let message := (releaseQuota w.message).1
  let batch := spool.reschedule w prevEvents
  match spool.messages w.queueId with
  | none => none
  | some current =>
    if mergeable current message then
      some (batch.setMessage w.queueId (some { current with
        priority := message.priority
        envId := message.envId
        recipients := mergeRecipients (fun idx _ => decide (idx ∈ modifiedRcpts))
          current.recipients message.recipients }))
    else none

def removeRegistry (spool : Spool) (w : MessageWrapper) (prevEvents : List (QueueName × Nat)) :
    Spool :=
  ((spool.addQuota (-1) w.message.size w.message.metadata).clearEvents w.queueId
    prevEvents).setMessage w.queueId none

end Spool

/-! ## What the batches leave in the store -/

variable (id : QueueId) (events : List (QueueName × Nat))

namespace Spool

variable (spool : Spool)

@[simp]
theorem setMessage_messages (message : Option Message) :
    (spool.setMessage id message).messages = Function.update spool.messages id message := rfl

@[simp]
theorem setMessage_events (message : Option Message) :
    (spool.setMessage id message).events = spool.events := rfl

@[simp]
theorem addQuota_messages (sign : Int) (size : Nat) (entries : List Metadata) :
    (spool.addQuota sign size entries).messages = spool.messages := rfl

@[simp]
theorem addQuota_events (sign : Int) (size : Nat) (entries : List Metadata) :
    (spool.addQuota sign size entries).events = spool.events := rfl

@[simp]
theorem setEvents_messages : (spool.setEvents id events).messages = spool.messages := rfl

@[simp]
theorem clearEvents_messages : (spool.clearEvents id events).messages = spool.messages := rfl

@[simp]
theorem setEvents_events (event : Event) : (spool.setEvents id events).events event = true ↔
      spool.events event = true ∨ event.queueId = id ∧ (event.queueName, event.due) ∈ events := by
  simp [setEvents]

@[simp]
theorem clearEvents_events (event : Event) : (spool.clearEvents id events).events event = true ↔
      spool.events event = true ∧ ¬ (event.queueId = id ∧ (event.queueName, event.due) ∈ events) := by
  simp only [clearEvents, Bool.and_eq_true, Bool.not_eq_true', decide_eq_false_iff_not]

@[simp]
theorem reschedule_messages (w : MessageWrapper) (prevEvents : List (QueueName × Nat)) :
    (spool.reschedule w prevEvents).messages = spool.messages := rfl

end Spool

theorem releaseQuota_eq (m : Message) :
    (releaseQuota m).1 = { m with metadata := (releaseQuota m).1.metadata } := by
  unfold releaseQuota
  split
  · rfl
  · dsimp only
    split
    · rfl
    · rfl

theorem releaseQuota_recipients (m : Message) : (releaseQuota m).1.recipients = m.recipients := by
  rw [releaseQuota_eq]

theorem mergeRecipients_length (written : Nat → Recipient → Bool) (current changed : List Recipient) :
    (Spool.mergeRecipients written current changed).length = current.length :=
  List.length_mapIdx

theorem getElem?_mergeRecipients {written : Nat → Recipient → Bool}
    {current changed : List Recipient} {idx : Nat} {rcpt rcpt' : Recipient}
    (hcurrent : current[idx]? = some rcpt) (hchanged : changed[idx]? = some rcpt') :
    (Spool.mergeRecipients written current changed)[idx]? =
      some (if written idx rcpt' then rcpt' else rcpt) := by
  simp [Spool.mergeRecipients, List.getElem?_mapIdx, hcurrent, hchanged]

theorem releaseQuota_hasPending (m : Message) : (releaseQuota m).1.hasPending = m.hasPending := by
  rw [Message.hasPending, releaseQuota_recipients, Message.hasPending]

variable {w : MessageWrapper}

theorem reschedule_event (spool : Spool) (prevEvents : List (QueueName × Nat))
    (hpending : w.message.hasPending = true) :
    ∃ event, (spool.reschedule w prevEvents).events event = true ∧ event.queueId = w.queueId := by
  rw [← releaseQuota_hasPending] at hpending
  obtain ⟨next, hnext⟩ := List.exists_mem_of_ne_nil _ (nextEvents_ne_nil hpending)
  refine ⟨⟨next.2, w.queueId, next.1⟩, ?_, rfl⟩
  rw [Spool.reschedule, Spool.setEvents_events]
  exact Or.inr ⟨rfl, hnext⟩

theorem reschedule_event_other (spool : Spool) (prevEvents : List (QueueName × Nat)) {event : Event}
    (hother : event.queueId ≠ w.queueId) :
    (spool.reschedule w prevEvents).events event = true ↔ spool.events event = true := by
  simp [Spool.reschedule, hother]

theorem saveChanges_cases {spool spool' : Spool} {prevEvent : Option Nat}
    (h : spool.saveChanges w prevEvent = some spool') :
    ∃ message, spool' = (spool.reschedule w
      (prevEvent.toList.map fun due => (w.queueName, due))).setMessage w.queueId (some message) ∧
      ((w.isMultiQueue = true ∧ ∃ current, spool.messages w.queueId = some current ∧
        current.recipients.length = w.message.recipients.length ∧
        message = { current with
          recipients := Spool.mergeRecipients (fun _ rcpt => decide (rcpt.queue = w.queueName))
            current.recipients w.message.recipients }) ∨
      (w.isMultiQueue = false ∧ message = (releaseQuota w.message).1)) := by
  unfold Spool.saveChanges at h
  dsimp only at h
  split at h
  · rename_i hmulti
    split at h
    · cases h
    · rename_i current hcurrent
      split at h
      · rename_i hmerge
        cases h
        have hlen := (of_decide_eq_true hmerge).2
        rw [releaseQuota_recipients] at hlen ⊢
        exact ⟨_, rfl, Or.inl ⟨hmulti, current, hcurrent, hlen, rfl⟩⟩
      · cases h
  · rename_i hmulti
    cases h
    exact ⟨_, rfl, Or.inr ⟨by simpa using hmulti, rfl⟩⟩

theorem saveChanges_eq_none {spool : Spool} {prevEvent : Option Nat}
    (h : spool.saveChanges w prevEvent = none) {m : Message}
    (hm : spool.messages w.queueId = some m) (hhash : m.blobHash = w.message.blobHash)
    (hlen : m.recipients.length = w.message.recipients.length) : False := by
  have hmerge : Spool.mergeable m (releaseQuota w.message).1 = true := by
    rw [releaseQuota_eq]
    exact decide_eq_true ⟨hhash, hlen⟩
  unfold Spool.saveChanges at h
  simp only [hm, hmerge, if_true] at h
  split at h
  · cases h
  · cases h

theorem saveRegistryChanges_cases {spool spool' : Spool} {prevEvents : List (QueueName × Nat)}
    {modifiedRcpts : List Nat}
    (h : spool.saveRegistryChanges w prevEvents modifiedRcpts = some spool') :
    ∃ current, spool.messages w.queueId = some current ∧
      current.recipients.length = w.message.recipients.length ∧
      spool' = (spool.reschedule w prevEvents).setMessage w.queueId (some { current with
        priority := (releaseQuota w.message).1.priority
        envId := (releaseQuota w.message).1.envId
        recipients := Spool.mergeRecipients (fun idx _ => decide (idx ∈ modifiedRcpts))
          current.recipients w.message.recipients }) := by
  unfold Spool.saveRegistryChanges at h
  dsimp only at h
  split at h
  · cases h
  · rename_i current hcurrent
    split at h
    · rename_i hmerge
      cases h
      have hlen := (of_decide_eq_true hmerge).2
      rw [releaseQuota_recipients] at hlen ⊢
      exact ⟨current, hcurrent, hlen, rfl⟩
    · cases h

end Bearmail.Queue
