import Bearmail.Queue.Delivery
import Bearmail.Lib.Runs
import Mathlib.Data.Finset.Insert

/-!
# The queue at work

The spool together with those who work on it: delivery workers, at most one for each message and
queue, and administrators (`jmap/src/registry/mapping/queued_message.rs`). Each reads a copy of a
message and later writes one batch. Between reading and writing anything else may happen.

An event of a message that is no longer stored is dropped in one step. A batch that fails leaves
everything as it was; its worker is done all the same.
-/

namespace Bearmail.Queue

open Option Function

structure Worker where
  due : Nat
  read : Message
  /-- when it was read, in commits -/
  readAt : Nat

structure Admin where
  queueId : QueueId
  read : Message

/-- The last committed change of each recipient, and when it was committed. -/
structure History where
  clock : Nat
  last : QueueId → Nat → Option Recipient
  stamp : QueueId → Nat → Nat

def History.commit (history : History) (id : QueueId) (changed : Nat → Option Recipient) : History where
  clock := history.clock + 1
  last := fun id' idx =>
    if id' = id ∧ (changed idx).isSome then changed idx else history.last id' idx
  stamp := fun id' idx =>
    if id' = id ∧ (changed idx).isSome then history.clock + 1 else history.stamp id' idx

structure System where
  spool : Spool
  /-- the queue ids that have been given out -/
  ids : Finset QueueId
  workers : QueueId → QueueName → Option Worker
  admins : Nat → Option Admin
  /-- the recipients that were reported -/
  dsns : List (QueueId × Nat × DsnKind)
  history : History

def System.empty : System where
  spool := ⟨fun _ => none, fun _ => false, fun _ => 0, fun _ => 0⟩
  ids := ∅
  workers := fun _ _ => none
  admins := fun _ => none
  dsns := []
  history := ⟨0, fun _ _ => none, fun _ _ => 0⟩

inductive Label where
  | queue (id : QueueId) (message : Message)
  | start (event : Event)
  | drop (event : Event)
  | finish (id : QueueId) (queueName : QueueName) (attempt : Attempt)
  | adminRead (session : Nat) (id : QueueId)
  /-- an update, with the recipients it modifies -/
  | adminUpdate (session : Nat) (recipients : List Recipient) (envId : Option String)
      (priority : Int) (modifiedRcpts : List Nat)
  | adminDestroy (session : Nat)

/-- The recipients that differ from those that were read. -/
def changedRcpts (read done : List Recipient) (idx : Nat) : Option Recipient :=
  if read[idx]? = done[idx]? then none else done[idx]?

def Worker.wrapper (w : Worker) (id : QueueId) (queueName : QueueName) (attempt : Attempt) :
    MessageWrapper :=
  { MessageWrapper.new w.read id queueName with
    message := (deliverTask queueName attempt w.read).1 }

namespace System

def setWorker (s : System) (id : QueueId) (queueName : QueueName) (w : Option Worker) : System :=
  { s with workers := fun id' queueName' =>
      if id' = id ∧ queueName' = queueName then w else s.workers id' queueName' }

def setAdmin (s : System) (session : Nat) (admin : Option Admin) : System :=
  { s with admins := Function.update s.admins session admin }

def finish (s : System) (w : Worker) (id : QueueId) (queueName : QueueName) (attempt : Attempt) :
    System :=
  let task := deliverTask queueName attempt w.read
  let reported := { s.setWorker id queueName none with
    dsns := s.dsns ++ task.2.2.map fun report => (id, report) }
  if task.2.1 then
    match s.spool.saveChanges (w.wrapper id queueName attempt) (some w.due) with
    | some spool =>
      { reported with
        spool
        history := s.history.commit id (changedRcpts w.read.recipients task.1.recipients) }
    | none => reported
  else { reported with spool := s.spool.remove (w.wrapper id queueName attempt) (some w.due) }

/-- An update of an administrator; a message without pending recipients is removed. -/
def adminUpdate (s : System) (admin : Admin) (session : Nat) (edited : Message)
    (modifiedRcpts : List Nat) : System :=
  let done := s.setAdmin session none
  let wrapper := MessageWrapper.new edited admin.queueId "default"
  if edited.hasPending then
    match s.spool.saveRegistryChanges wrapper admin.read.nextEvents modifiedRcpts with
    | some spool =>
      { done with
        spool
        history := s.history.commit admin.queueId fun idx =>
          if idx ∈ modifiedRcpts then edited.recipients[idx]? else none }
    | none => done
  else { done with spool := s.spool.removeRegistry wrapper admin.read.nextEvents }

def step (s : System) : Label → Option System
  | .queue id message =>
    if id ∈ s.ids then none
    else
      some { s with
        spool := s.spool.queue id message
        ids := insert id s.ids
        history := s.history.commit id fun idx => message.recipients[idx]? }
  | .start event =>
    match s.workers event.queueId event.queueName, s.spool.messages event.queueId with
    | none, some message =>
      if s.spool.events event then
        some (s.setWorker event.queueId event.queueName (some ⟨event.due, message, s.history.clock⟩))
      else none
    | _, _ => none
  | .drop event =>
    if s.spool.events event = true ∧ s.spool.messages event.queueId = none then
      some { s with
        spool := s.spool.clearEvents event.queueId [(event.queueName, event.due)] }
    else none
  | .finish id queueName attempt =>
    (s.workers id queueName).map fun w => s.finish w id queueName attempt
  | .adminRead session id =>
    (s.spool.messages id).map fun message => s.setAdmin session (some ⟨id, message⟩)
  | .adminUpdate session recipients envId priority modifiedRcpts =>
    (s.admins session).bind fun admin =>
      if recipients.length = admin.read.recipients.length then
        some (s.adminUpdate admin session { admin.read with recipients, envId, priority } modifiedRcpts)
      else none
  | .adminDestroy session =>
    (s.admins session).map fun admin =>
      { s.setAdmin session none with
        spool := s.spool.remove (MessageWrapper.new admin.read admin.queueId "default") none }

abbrev run (labels : List Label) : Option System := Runs.run step empty labels

end System

/-- The steps of workers, without those of administrators. -/
def Label.byWorker : Label → Prop
  | .queue _ _ => True
  | .start _ => True
  | .drop _ => True
  | .finish _ _ _ => True
  | .adminRead _ _ => False
  | .adminUpdate _ _ _ _ _ => False
  | .adminDestroy _ => False

/-! ## What a finished task leaves -/

variable {queueName' : QueueName} {session : Nat} {rcpt rcpt' : Recipient} {m : Message} {spool : Spool}

section Finish

variable {s s' : System} {w : Worker} {id : QueueId} {queueName : QueueName} {attempt : Attempt}

theorem finish_cases (s : System) (w : Worker) (id : QueueId) (queueName : QueueName)
    (attempt : Attempt) :
    ((deliverTask queueName attempt w.read).2.1 = false ∧ (s.finish w id queueName attempt).spool =
        s.spool.remove (w.wrapper id queueName attempt) (some w.due) ∧
      (s.finish w id queueName attempt).history = s.history) ∨
    ((deliverTask queueName attempt w.read).2.1 = true ∧
      s.spool.saveChanges (w.wrapper id queueName attempt) (some w.due) = none ∧
      (s.finish w id queueName attempt).spool = s.spool ∧
      (s.finish w id queueName attempt).history = s.history) ∨
    ((deliverTask queueName attempt w.read).2.1 = true ∧
      s.spool.saveChanges (w.wrapper id queueName attempt) (some w.due) =
        some (s.finish w id queueName attempt).spool ∧
      (s.finish w id queueName attempt).history = s.history.commit id
        (changedRcpts w.read.recipients (deliverTask queueName attempt w.read).1.recipients)) := by
  unfold System.finish
  dsimp only
  split
  · rename_i hsaves
    cases hsaved : s.spool.saveChanges (w.wrapper id queueName attempt) (some w.due) with
    | none => exact Or.inr (Or.inl ⟨hsaves, rfl, rfl, rfl⟩)
    | some spool => exact Or.inr (Or.inr ⟨hsaves, rfl, rfl⟩)
  · rename_i hsaves
    exact Or.inl ⟨Bool.eq_false_iff.mpr hsaves, rfl, rfl⟩

theorem finish_workers (s : System) (w : Worker) (id : QueueId) (queueName : QueueName)
    (attempt : Attempt) :
    (s.finish w id queueName attempt).workers = (s.setWorker id queueName none).workers := by
  unfold System.finish
  dsimp only
  split
  · split
    · rfl
    · rfl
  · rfl

theorem finish_ids (s : System) (w : Worker) (id : QueueId) (queueName : QueueName)
    (attempt : Attempt) : (s.finish w id queueName attempt).ids = s.ids := by
  unfold System.finish
  dsimp only
  split
  · split
    · rfl
    · rfl
  · rfl

theorem finish_admins (s : System) (w : Worker) (id : QueueId) (queueName : QueueName)
    (attempt : Attempt) : (s.finish w id queueName attempt).admins = s.admins := by
  unfold System.finish
  dsimp only
  split
  · split
    · rfl
    · rfl
  · rfl

theorem finish_dsns (s : System) (w : Worker) (id : QueueId) (queueName : QueueName)
    (attempt : Attempt) : (s.finish w id queueName attempt).dsns =
      s.dsns ++ (deliverTask queueName attempt w.read).2.2.map fun report => (id, report) := by
  unfold System.finish
  dsimp only
  split
  · split
    · rfl
    · rfl
  · rfl

theorem setWorker_workers {s : System} {id id' : QueueId} {queueName : QueueName}
    {w : Option Worker} {w' : Worker}
    (h : (s.setWorker id queueName w).workers id' queueName' = some w') :
    (id' = id ∧ queueName' = queueName ∧ w = some w') ∨ s.workers id' queueName' = some w' := by
  simp only [System.setWorker] at h
  split at h
  · rename_i heq
    exact Or.inl ⟨heq.1, heq.2, h⟩
  · exact Or.inr h

theorem finish_worker_other {id' : QueueId} {w' : Worker}
    (h : (s.finish w id queueName attempt).workers id' queueName' = some w') :
    ¬ (id' = id ∧ queueName' = queueName) ∧ s.workers id' queueName' = some w' := by
  rw [finish_workers] at h
  simp only [System.setWorker] at h
  split at h
  · cases h
  · rename_i hne
    exact ⟨hne, h⟩

end Finish

/-! ## Steps -/

section Steps

variable {s s' : System}

theorem step_queue {id : QueueId} {message : Message} (h : s.step (.queue id message) = some s') :
    id ∉ s.ids ∧ s' = { s with
      spool := s.spool.queue id message
      ids := insert id s.ids
      history := s.history.commit id fun idx => message.recipients[idx]? } := by
  unfold System.step at h
  dsimp only at h
  split at h
  · cases h
  · rename_i hfresh
    cases h
    exact ⟨hfresh, rfl⟩

theorem step_start {event : Event} (h : s.step (.start event) = some s') :
    ∃ message, s.workers event.queueId event.queueName = none ∧
      s.spool.messages event.queueId = some message ∧ s.spool.events event = true ∧
      s' = s.setWorker event.queueId event.queueName (some ⟨event.due, message, s.history.clock⟩) := by
  unfold System.step at h
  dsimp only at h
  split at h
  · rename_i message hnone hsome
    split at h
    · rename_i hevent
      cases h
      exact ⟨message, hnone, hsome, hevent, rfl⟩
    · cases h
  · cases h

theorem step_drop {event : Event} (h : s.step (.drop event) = some s') :
    s.spool.messages event.queueId = none ∧ s' = { s with
      spool := s.spool.clearEvents event.queueId [(event.queueName, event.due)] } := by
  unfold System.step at h
  dsimp only at h
  split at h
  · rename_i hgone
    cases h
    exact ⟨hgone.2, rfl⟩
  · cases h

theorem step_finish {id : QueueId} {queueName : QueueName} {attempt : Attempt}
    (h : s.step (.finish id queueName attempt) = some s') :
    ∃ w, s.workers id queueName = some w ∧ s' = s.finish w id queueName attempt := by
  obtain ⟨w, hw, heq⟩ := map_eq_some_iff.mp h
  exact ⟨w, hw, heq.symm⟩

theorem step_adminRead {id : QueueId} (h : s.step (.adminRead session id) = some s') :
    ∃ message, s.spool.messages id = some message ∧ s' = s.setAdmin session (some ⟨id, message⟩) := by
  obtain ⟨message, hmessage, heq⟩ := map_eq_some_iff.mp h
  exact ⟨message, hmessage, heq.symm⟩

theorem step_adminUpdate {recipients : List Recipient} {envId : Option String} {priority : Int}
    {modifiedRcpts : List Nat}
    (h : s.step (.adminUpdate session recipients envId priority modifiedRcpts) = some s') :
    ∃ admin, s.admins session = some admin ∧ recipients.length = admin.read.recipients.length ∧
      s' = s.adminUpdate admin session { admin.read with recipients, envId, priority }
        modifiedRcpts := by
  obtain ⟨admin, hadmin, heq⟩ := bind_eq_some_iff.mp h
  split at heq
  · rename_i hlen
    cases heq
    exact ⟨admin, hadmin, hlen, rfl⟩
  · cases heq

theorem step_adminDestroy (h : s.step (.adminDestroy session) = some s') :
    ∃ admin, s.admins session = some admin ∧ s' = { s.setAdmin session none with
      spool := s.spool.remove (MessageWrapper.new admin.read admin.queueId "default") none } := by
  obtain ⟨admin, hadmin, heq⟩ := map_eq_some_iff.mp h
  exact ⟨admin, hadmin, heq.symm⟩

/-- The three ways an update ends: the message is removed, the save fails, or it is saved. -/
theorem adminUpdate_cases (s : System) (admin : Admin) (session : Nat) (edited : Message)
    (modifiedRcpts : List Nat) :
    (edited.hasPending = false ∧ s.adminUpdate admin session edited modifiedRcpts =
      { s.setAdmin session none with
        spool := s.spool.removeRegistry (MessageWrapper.new edited admin.queueId "default")
          admin.read.nextEvents }) ∨
    (edited.hasPending = true ∧
      s.adminUpdate admin session edited modifiedRcpts = s.setAdmin session none) ∨
    (edited.hasPending = true ∧ ∃ spool,
      s.spool.saveRegistryChanges (MessageWrapper.new edited admin.queueId "default")
        admin.read.nextEvents modifiedRcpts = some spool ∧
      s.adminUpdate admin session edited modifiedRcpts = { s.setAdmin session none with
        spool
        history := s.history.commit admin.queueId fun idx =>
          if idx ∈ modifiedRcpts then edited.recipients[idx]? else none }) := by
  unfold System.adminUpdate
  dsimp only
  split
  · rename_i hpending
    cases hsaved : s.spool.saveRegistryChanges (MessageWrapper.new edited admin.queueId "default")
      admin.read.nextEvents modifiedRcpts with
    | none => exact Or.inr (Or.inl ⟨hpending, rfl⟩)
    | some spool => exact Or.inr (Or.inr ⟨hpending, spool, rfl, rfl⟩)
  · rename_i hpending
    exact Or.inl ⟨Bool.eq_false_iff.mpr hpending, rfl⟩

theorem setAdmin_admins {session' : Nat} {admin : Option Admin} {admin' : Admin}
    (h : (s.setAdmin session admin).admins session' = some admin') :
    admin = some admin' ∨ s.admins session' = some admin' := by
  simp only [System.setAdmin, update_apply] at h
  split at h
  · exact Or.inl h
  · exact Or.inr h

end Steps

/-! ## Ownership -/

section Ownership

/-- A recipient that a worker of the queue may rely on: no one else changes its status. -/
def Recipient.Settled (queueName : QueueName) (rcpt : Recipient) : Prop :=
  rcpt.queue = queueName ∨ rcpt.status.pending = false

theorem Recipient.Same.symm (h : rcpt.Same rcpt') : rcpt'.Same rcpt :=
  ⟨h.1.symm, h.2.symm⟩

theorem Recipient.Same.trans {rcpt'' : Recipient} (h : rcpt.Same rcpt') (h' : rcpt'.Same rcpt'') :
    rcpt.Same rcpt'' :=
  ⟨h'.1.trans h.1, h'.2.trans h.2⟩

/-- Two copies agree where both sides may rely on them. -/
def Agree (rely rely' : Recipient → Prop) (rcpts rcpts' : List Recipient) : Prop :=
  rcpts'.length = rcpts.length ∧ ∀ (idx : Nat) (rcpt rcpt' : Recipient),
    rcpts[idx]? = some rcpt → rcpts'[idx]? = some rcpt' → rely rcpt → rely' rcpt' → rcpt.Same rcpt'

theorem Agree.refl (rely rely' : Recipient → Prop) (rcpts : List Recipient) :
    Agree rely rely' rcpts rcpts := by
  refine ⟨rfl, fun idx rcpt rcpt' h h' _ _ => ?_⟩
  rw [h] at h'
  cases h'
  exact ⟨rfl, rfl⟩

/-- What workers rely on is in the store, and in the copies of other workers. -/
structure Owned (s : System) : Prop where
  stored : ∀ id queueName w m, s.workers id queueName = some w → s.spool.messages id = some m →
    Agree (Recipient.Settled queueName) (fun _ => True) w.read.recipients m.recipients
  others : ∀ id queueName queueName' w w', queueName ≠ queueName' →
    s.workers id queueName = some w → s.workers id queueName' = some w' →
    Agree (Recipient.Settled queueName) (Recipient.Settled queueName') w.read.recipients
      w'.read.recipients
  fresh : ∀ id, id ∉ s.ids → s.spool.messages id = none ∧ ∀ queueName, s.workers id queueName = none

theorem owned_empty : Owned System.empty where
  stored _ _ _ _ h := by cases h
  others _ _ _ _ _ _ h := by cases h
  fresh _ _ := ⟨rfl, fun _ => rfl⟩

variable {s s' : System} {w : Worker} {id : QueueId} {queueName : QueueName} {attempt : Attempt}

theorem Handled.same {reports : Nat} (h : Handled queueName attempt m rcpt rcpt' reports)
    (hdone : rcpt.status.pending = false) : rcpt.Same rcpt' := by
  have hown := h.own
  rw [expire_of_done hdone] at hown
  rcases hown with hsame | ⟨hpending, -⟩
  · exact hsame
  · rw [hdone] at hpending
    cases hpending

theorem Handled.queue_eq {reports : Nat} (h : Handled queueName attempt m rcpt rcpt' reports)
    (hqueue : rcpt'.queue = queueName) : rcpt.queue = queueName := by
  have hexpire : (rcpt.expire m.created (attempt.now 0)).queue = rcpt.queue := expire_queue
  rw [← hexpire]
  rcases h.own with hsame | ⟨-, hown⟩
  · rw [← hsame.2]
    exact hqueue
  · exact hown

theorem getElem?_of_length {rcpts rcpts' : List Recipient} (hlen : rcpts'.length = rcpts.length)
    {idx : Nat} (h : rcpts[idx]? = some rcpt) : ∃ rcpt', rcpts'[idx]? = some rcpt' := by
  have hlt := (List.getElem?_eq_some_iff.mp h).1
  exact ⟨_, List.getElem?_eq_getElem (by omega)⟩

theorem queue_of_single (hsingle : (w.wrapper id queueName attempt).isMultiQueue = false)
    {idx : Nat} (hget : w.read.recipients[idx]? = some rcpt)
    (hpending : rcpt.status.pending = true) :
    rcpt.queue = queueName := by
  simp only [Worker.wrapper, MessageWrapper.new, List.any_eq_false] at hsingle
  have h := hsingle rcpt (List.mem_of_getElem? hget)
  simpa [hpending] using h

theorem worker_save_cases
    (h : s.spool.saveChanges (w.wrapper id queueName attempt) (some w.due) = some spool) :
    ((w.wrapper id queueName attempt).isMultiQueue = true ∧ ∃ current,
      s.spool.messages id = some current ∧
      current.recipients.length = w.read.recipients.length ∧
      spool.messages = Function.update s.spool.messages id (some { current with
        recipients := Spool.mergeRecipients (fun _ rcpt => decide (rcpt.queue = queueName))
          current.recipients (deliverTask queueName attempt w.read).1.recipients })) ∨
    ((w.wrapper id queueName attempt).isMultiQueue = false ∧
      spool.messages = Function.update s.spool.messages id
        (some (releaseQuota (deliverTask queueName attempt w.read).1).1)) := by
  obtain ⟨message, rfl, ⟨hmulti, current, hcurrent, hlen, rfl⟩ | ⟨hsingle, rfl⟩⟩ :=
    saveChanges_cases h
  · exact Or.inl ⟨hmulti, current, hcurrent,
      hlen.trans (deliverTask_rcpts queueName attempt w.read).1.2, rfl⟩
  · exact Or.inr ⟨hsingle, rfl⟩

def Worker.writes (w : Worker) (id : QueueId) (queueName : QueueName) (attempt : Attempt)
    (rcpt : Recipient) : Prop :=
  (w.wrapper id queueName attempt).isMultiQueue = false ∨ rcpt.queue = queueName

variable (hsaved : s.spool.saveChanges (w.wrapper id queueName attempt) (some w.due) = some spool)
include hsaved

theorem saved_rcpt (hm : spool.messages id = some m) {idx : Nat}
    (hget : (deliverTask queueName attempt w.read).1.recipients[idx]? = some rcpt) :
    (w.writes id queueName attempt rcpt ∧ m.recipients[idx]? = some rcpt) ∨
      ¬ w.writes id queueName attempt rcpt ∧ ∃ current, s.spool.messages id = some current ∧
        m.recipients[idx]? = current.recipients[idx]? := by
  have hlen := (deliverTask_rcpts queueName attempt w.read).1.2
  rcases worker_save_cases hsaved with
    ⟨hmulti, current, hcurrent, hlen', hmessages⟩ | ⟨hsingle, hmessages⟩
  · rw [hmessages, update_self] at hm
    cases hm
    obtain ⟨kept, hkept⟩ := getElem?_of_length (hlen'.trans hlen.symm) hget
    rw [getElem?_mergeRecipients hkept hget]
    by_cases hqueue : rcpt.queue = queueName
    · left
      exact ⟨Or.inr hqueue, by simp [decide_eq_true hqueue]⟩
    · right
      refine ⟨?_, current, hcurrent, by rw [hkept, if_neg (by simpa using hqueue)]⟩
      rw [Worker.writes, hmulti]
      simpa using hqueue
  · left
    rw [hmessages, update_self] at hm
    cases hm
    rw [releaseQuota_recipients]
    exact ⟨Or.inl hsingle, hget⟩

theorem saved_length (hm : spool.messages id = some m) : m.recipients.length = w.read.recipients.length := by
  have hlen := (deliverTask_rcpts queueName attempt w.read).1.2
  rcases worker_save_cases hsaved with
    ⟨-, current, -, hlen', hmessages⟩ | ⟨-, hmessages⟩
  · rw [hmessages, update_self] at hm
    cases hm
    rw [mergeRecipients_length, hlen']
  · rw [hmessages, update_self] at hm
    cases hm
    rw [releaseQuota_recipients, hlen]

omit hsaved

theorem saved_agree (howned : Owned s) (hw : s.workers id queueName = some w)
    (hsaved : s.spool.saveChanges (w.wrapper id queueName attempt) (some w.due) = some spool)
    {w' : Worker} (hne : queueName' ≠ queueName) (hw' : s.workers id queueName' = some w')
    (hm : spool.messages id = some m) :
    Agree (Recipient.Settled queueName') (fun _ => True) w'.read.recipients m.recipients := by
  obtain ⟨hsame, htask⟩ := deliverTask_rcpts queueName attempt w.read
  have hothers := howned.others id queueName' queueName w' w hne hw' hw
  rcases worker_save_cases hsaved with
    ⟨-, current, hcurrent, hlen, hmessages⟩ | ⟨hsingle, hmessages⟩
  · -- a merge writes only recipients of the worker's queue
    rw [hmessages, update_self] at hm
    cases hm
    have hstored := howned.stored id queueName w current hw hcurrent
    have hstored' := howned.stored id queueName' w' current hw' hcurrent
    refine ⟨by rw [mergeRecipients_length, hstored'.1], ?_⟩
    intro idx rcpt' merged hget' hmerged hsettled' _
    obtain ⟨rcpt, hget⟩ := getElem?_of_length hothers.1 hget'
    obtain ⟨kept, hkept⟩ := getElem?_of_length hstored'.1 hget'
    obtain ⟨done, hdone, hhandled⟩ := htask idx rcpt hget
    rw [getElem?_mergeRecipients hkept hdone] at hmerged
    cases hmerged
    have hagree := hstored'.2 idx rcpt' kept hget' hkept hsettled' trivial
    split
    · rename_i hwritten
      have hqueue := hhandled.queue_eq (of_decide_eq_true hwritten)
      have hmine := hstored.2 idx rcpt kept hget hkept (Or.inl hqueue) trivial
      rcases hsettled' with hqueue' | hdone'
      · have : queueName' = queueName := by rw [← hqueue', ← hagree.2, hmine.2, hqueue]
        exact absurd this hne
      · have hfinal : rcpt.status.pending = false := by rw [← hmine.1, hagree.1]; exact hdone'
        exact (hagree.trans hmine.symm).trans (hhandled.same hfinal)
    · exact hagree
  · -- a plain write finds only recipients that are done outside of the worker's queue
    rw [hmessages, update_self] at hm
    cases hm
    rw [releaseQuota_recipients]
    refine ⟨hsame.2.trans hothers.1, ?_⟩
    intro idx rcpt' done hget' hdone hsettled' _
    obtain ⟨rcpt, hget⟩ := getElem?_of_length hothers.1 hget'
    obtain ⟨_, hdone', hhandled⟩ := htask idx rcpt hget
    cases hdone.symm.trans hdone'
    cases hpending : rcpt.status.pending with
    | false =>
      have hagree := hothers.2 idx rcpt' rcpt hget' hget hsettled' (Or.inr hpending)
      exact hagree.trans (hhandled.same hpending)
    | true =>
      have hqueue := queue_of_single hsingle hget hpending
      have hagree := hothers.2 idx rcpt' rcpt hget' hget hsettled' (Or.inl hqueue)
      rcases hsettled' with hqueue' | hdone'
      · exact absurd (by rw [← hqueue', ← hagree.2, hqueue]) hne
      · rw [hagree.1, hdone'] at hpending
        cases hpending

theorem owned_queue {message : Message} (howned : Owned s)
    (h : s.step (.queue id message) = some s') : Owned s' := by
  obtain ⟨hfresh, rfl⟩ := step_queue h
  obtain ⟨-, hnobody⟩ := howned.fresh id hfresh
  refine ⟨fun id' queueName w m hw hm => ?_, howned.others, fun id' hid' => ?_⟩
  · by_cases heq : id' = id
    · subst heq
      rw [hnobody] at hw
      cases hw
    · refine howned.stored id' queueName w m hw ?_
      rw [← hm]
      exact (update_of_ne heq _ _).symm
  · rw [Finset.mem_insert, not_or] at hid'
    have hold := howned.fresh id' hid'.2
    exact ⟨(update_of_ne hid'.1 _ _).trans hold.1, hold.2⟩

theorem owned_start {event : Event} (howned : Owned s) (h : s.step (.start event) = some s') :
    Owned s' := by
  obtain ⟨message, -, hmessage, -, rfl⟩ := step_start h
  refine ⟨fun id queueName w m hw hm => ?_, fun id queueName queueName' w w' hne hw hw' => ?_,
    fun id hid => ⟨(howned.fresh id hid).1, fun queueName => ?_⟩⟩
  · rcases setWorker_workers hw with ⟨rfl, rfl, heq⟩ | hw
    · cases heq
      cases hmessage.symm.trans hm
      exact Agree.refl _ _ _
    · exact howned.stored id queueName w m hw hm
  · rcases setWorker_workers hw with ⟨rfl, rfl, heq⟩ | hw
    · rcases setWorker_workers hw' with ⟨-, rfl, -⟩ | hw'
      · exact absurd rfl hne
      · cases heq
        have hstored := howned.stored _ queueName' w' message hw' hmessage
        exact ⟨hstored.1.symm, fun idx rcpt rcpt' hget hget' _ hsettled =>
          (hstored.2 idx rcpt' rcpt hget' hget hsettled trivial).symm⟩
    · rcases setWorker_workers hw' with ⟨rfl, rfl, heq⟩ | hw'
      · cases heq
        have hstored := howned.stored _ queueName w message hw hmessage
        exact ⟨hstored.1, fun idx rcpt rcpt' hget hget' hsettled _ =>
          hstored.2 idx rcpt rcpt' hget hget' hsettled trivial⟩
      · exact howned.others id queueName queueName' w w' hne hw hw'
  · by_contra hsome
    obtain ⟨w, hw⟩ := ne_none_iff_exists'.mp hsome
    rcases setWorker_workers hw with ⟨rfl, -, -⟩ | hw
    · rw [(howned.fresh _ hid).1] at hmessage
      cases hmessage
    · rw [(howned.fresh id hid).2] at hw
      cases hw

theorem owned_finish (howned : Owned s) (hw : s.workers id queueName = some w) :
    Owned (s.finish w id queueName attempt) := by
  have hid : id ∈ s.ids := by
    by_contra hid
    rw [(howned.fresh id hid).2] at hw
    cases hw
  have hother : ∀ id', id' ≠ id →
      (s.finish w id queueName attempt).spool.messages id' = s.spool.messages id' := by
    intro id' hne
    rcases finish_cases s w id queueName attempt with
      ⟨-, hspool, -⟩ | ⟨-, -, hspool, -⟩ | ⟨-, hsaved, -⟩
    · rw [hspool]
      exact update_of_ne hne _ _
    · rw [hspool]
    · rcases worker_save_cases hsaved with ⟨-, current, -, -, hmessages⟩ | ⟨-, hmessages⟩
      all_goals rw [hmessages, update_of_ne hne]
  refine ⟨fun id' queueName' w' m hw' hm => ?_, fun id' queueName' queueName'' w' w'' hne hw' hw'' =>
    howned.others id' queueName' queueName'' w' w'' hne (finish_worker_other hw').2
      (finish_worker_other hw'').2, fun id' hid' => ?_⟩
  · obtain ⟨hne, hstays⟩ := finish_worker_other hw'
    by_cases heq : id' = id
    · subst heq
      have hne' : queueName' ≠ queueName := fun h => hne ⟨rfl, h⟩
      rcases finish_cases s w id' queueName attempt with
        ⟨-, hspool, -⟩ | ⟨-, -, hspool, -⟩ | ⟨-, hsaved, -⟩
      · rw [hspool] at hm
        cases (update_self _ _ _).symm.trans hm
      · rw [hspool] at hm
        exact howned.stored id' queueName' w' m hstays hm
      · exact saved_agree howned hw hsaved hne' hstays hm
    · rw [hother id' heq] at hm
      exact howned.stored id' queueName' w' m hstays hm
  · rw [finish_ids] at hid'
    have hne : id' ≠ id := fun h => hid' (h ▸ hid)
    refine ⟨(hother id' hne).trans (howned.fresh id' hid').1, fun queueName' => ?_⟩
    by_contra hsome
    obtain ⟨w', hw'⟩ := ne_none_iff_exists'.mp hsome
    cases (finish_worker_other hw').2.symm.trans ((howned.fresh id' hid').2 queueName')

theorem owned_step {label : Label} (howned : Owned s) (hlabel : label.byWorker)
    (h : s.step label = some s') : Owned s' := by
  cases label with
  | queue id message => exact owned_queue howned h
  | start event => exact owned_start howned h
  | drop event =>
    obtain ⟨-, rfl⟩ := step_drop h
    exact ⟨howned.stored, howned.others, howned.fresh⟩
  | finish id queueName attempt =>
    obtain ⟨w, hw, rfl⟩ := step_finish h
    exact owned_finish howned hw
  | adminRead session id | adminUpdate session recipients envId priority modifiedRcpts
  | adminDestroy session => exact hlabel.elim

end Ownership

/-! ## Messages that were queued -/

section Known

variable {s s' : System}

/-- Everybody works on messages that were queued. -/
structure Known (s : System) : Prop where
  stored : ∀ id m, s.spool.messages id = some m → id ∈ s.ids
  workers : ∀ id queueName w, s.workers id queueName = some w → id ∈ s.ids
  admins : ∀ session admin, s.admins session = some admin → admin.queueId ∈ s.ids

theorem known_write (hknown : Known s) {id : QueueId} (hid : id ∈ s.ids) {m : Option Message}
    (hids : s'.ids = s.ids)
    (hmessages : s'.spool.messages = Function.update s.spool.messages id m)
    (hworkers : ∀ id queueName w, s'.workers id queueName = some w → s.workers id queueName = some w)
    (hadmins : ∀ session admin, s'.admins session = some admin →
      s.admins session = some admin) : Known s' := by
  refine ⟨fun id' m' hm' => ?_, fun id' queueName w hw => ?_, fun session admin hadmin => ?_⟩
  · rw [hids]
    by_cases heq : id' = id
    · exact heq ▸ hid
    · rw [hmessages, update_of_ne heq] at hm'
      exact hknown.stored id' m' hm'
  · rw [hids]
    exact hknown.workers id' queueName w (hworkers id' queueName w hw)
  · rw [hids]
    exact hknown.admins session admin (hadmins session admin hadmin)

theorem known_finish {id : QueueId} {queueName : QueueName} {attempt : Attempt} {w : Worker}
    (hknown : Known s) (hw : s.workers id queueName = some w) :
    Known (s.finish w id queueName attempt) := by
  have hid := hknown.workers id queueName w hw
  have hids := finish_ids s w id queueName attempt
  have hworkers : ∀ id' queueName' w', (s.finish w id queueName attempt).workers id' queueName' =
      some w' → s.workers id' queueName' = some w' := fun _ _ _ h => (finish_worker_other h).2
  have hadmins := finish_admins s w id queueName attempt
  rcases finish_cases s w id queueName attempt with
    ⟨-, hspool, -⟩ | ⟨-, -, hspool, -⟩ | ⟨-, hsaved, -⟩
  · exact known_write hknown hid hids (by rw [hspool]; rfl) hworkers
      (fun session admin h => by rwa [hadmins] at h)
  · refine ⟨fun id' m hm => ?_, fun id' queueName' w' h => ?_, fun session admin h => ?_⟩
    · rw [hids]
      rw [hspool] at hm
      exact hknown.stored id' m hm
    · rw [hids]
      exact hknown.workers id' queueName' w' (hworkers id' queueName' w' h)
    · rw [hids]
      rw [hadmins] at h
      exact hknown.admins session admin h
  · obtain ⟨message, heq, -⟩ := saveChanges_cases hsaved
    exact known_write hknown hid hids (by rw [heq]; rfl) hworkers
      (fun session admin h => by rwa [hadmins] at h)

theorem known_step {label : Label} (hknown : Known s) (h : s.step label = some s') : Known s' := by
  have hclear : ∀ {session : Nat} session' admin,
      (s.setAdmin session none).admins session' = some admin → s.admins session' = some admin := by
    intro session session' admin h
    rcases setAdmin_admins h with h | h
    · cases h
    · exact h
  cases label with
  | queue id message =>
    obtain ⟨-, rfl⟩ := step_queue h
    refine ⟨fun id' m hm => ?_, fun id' queueName w hw =>
      Finset.mem_insert_of_mem (hknown.workers id' queueName w hw), fun session admin hadmin =>
      Finset.mem_insert_of_mem (hknown.admins session admin hadmin)⟩
    by_cases heq : id' = id
    · subst heq
      exact Finset.mem_insert_self _ _
    · exact Finset.mem_insert_of_mem (hknown.stored id' m ((update_of_ne heq _ _).symm.trans hm))
  | start event =>
    obtain ⟨message, -, hmessage, -, rfl⟩ := step_start h
    refine ⟨hknown.stored, fun id queueName w hw => ?_, hknown.admins⟩
    rcases setWorker_workers hw with ⟨rfl, -, -⟩ | hw
    · exact hknown.stored _ message hmessage
    · exact hknown.workers id queueName w hw
  | drop event =>
    obtain ⟨-, rfl⟩ := step_drop h
    exact ⟨hknown.stored, hknown.workers, hknown.admins⟩
  | finish id queueName attempt =>
    obtain ⟨w, hw, rfl⟩ := step_finish h
    exact known_finish hknown hw
  | adminRead session id =>
    obtain ⟨message, hmessage, rfl⟩ := step_adminRead h
    refine ⟨hknown.stored, hknown.workers, fun session' admin hadmin => ?_⟩
    rcases setAdmin_admins hadmin with heq | hadmin
    · cases heq
      exact hknown.stored id message hmessage
    · exact hknown.admins session' admin hadmin
  | adminUpdate session recipients envId priority modifiedRcpts =>
    obtain ⟨admin, hadmin, -, rfl⟩ := step_adminUpdate h
    have hid := hknown.admins session admin hadmin
    rcases adminUpdate_cases s admin session { admin.read with recipients, envId, priority }
      modifiedRcpts with ⟨-, heq⟩ | ⟨-, heq⟩ | ⟨-, spool, hsaved, heq⟩
    · rw [heq]
      exact known_write hknown hid rfl rfl (fun _ _ _ h => h) hclear
    · rw [heq]
      exact ⟨hknown.stored, hknown.workers, fun session' admin' h =>
        hknown.admins session' admin' (hclear session' admin' h)⟩
    · obtain ⟨current, -, -, rfl⟩ := saveRegistryChanges_cases hsaved
      rw [heq]
      exact known_write hknown hid rfl rfl (fun _ _ _ h => h) hclear
  | adminDestroy session =>
    obtain ⟨admin, hadmin, rfl⟩ := step_adminDestroy h
    exact known_write hknown (hknown.admins session admin hadmin) rfl rfl (fun _ _ _ h => h) hclear

end Known

/-! ## Messages and attempts of examples -/

section Examples

def newRecipient (address : String) (queue : QueueName) : Recipient where
  address
  retry := ⟨0, 0⟩
  notify := ⟨1000, 0⟩
  expires := .ttl 5000
  queue
  status := .scheduled
  flags := ⟨false, false, true, true, true⟩
  orcpt := none

def newMessage (recipients : List Recipient) (metadata : List Metadata) : Message where
  created := 0
  blobHash := [1]
  returnPath := "sender@example.org"
  recipients
  envId := none
  priority := 0
  size := 10
  metadata

def delivered : Status := .completed ⟨"mx.example.org", ⟨250, "OK"⟩⟩

def greylisted : Status :=
  .temporaryFailure ⟨"mx.example.org", .unexpectedResponse "RCPT" ⟨450, "Try again"⟩⟩

def attemptAt (now : Nat) (results : List (Nat × Outcome)) : Attempt where
  now := fun _ => now
  notify := fun _ => []
  throttled := none
  results

def strategyOf (queue : QueueName) : QueueStrategy := ⟨[60], .ttl 5000, queue⟩

def attemptWith (now : Nat) (queue : QueueName) (idx : Nat) (status : Status) : Attempt :=
  attemptAt now [(idx, .status status now (strategyOf queue))]

end Examples

end Bearmail.Queue
