import Mathlib.Algebra.Group.Nat.Defs
import Bearmail.Queue.Spool

/-!
# Delivery attempts

`deliver_task` of `smtp/src/outbound/delivery.rs` and the notifications of
`smtp/src/queue/dsn.rs`, as far as they change a worker's copy of a message. What the clock, the
limits, the remote hosts and the queue expressions say is an `Attempt`. Of a notification only
the recipients it reports are kept; it is queued like any other message.
-/

namespace Bearmail.Queue

open List

def u64Max : Nat := 2 ^ 64 - 1

/-! ## Notifications -/

inductive DsnKind where
  | success
  | delay
  | failure
  deriving DecidableEq

def RcptFlags.silent (flags : RcptFlags) : Bool := flags.dsnSent || flags.notifyNever

def Recipient.markSent (rcpt : Recipient) : Recipient :=
  { rcpt with flags := { rcpt.flags with dsnSent := true } }

def Recipient.buildDsn (now : Nat) (rcpt : Recipient) : Recipient × Option DsnKind :=
  let delay := if rcpt.notify.due ≤ now ∧ rcpt.flags.notifyDelay then some .delay else none
  if rcpt.flags.silent then (rcpt, none)
  else
    match rcpt.status with
    | .completed _ =>
      (rcpt.markSent, if rcpt.flags.notifySuccess then some .success else none)
    | .temporaryFailure _ => (rcpt, delay)
    | .permanentFailure _ =>
      (rcpt.markSent, if rcpt.flags.notifyFailure then some .failure else none)
    | .scheduled => (rcpt, delay)

def Recipient.markBounced (rcpt : Recipient) : Recipient :=
  match rcpt.status with
  | .permanentFailure _ => if rcpt.flags.silent then rcpt else rcpt.markSent
  | _ => rcpt

/-- One turn of the loop of `handle_double_bounce`. -/
def Recipient.doubleBounce (created now : Nat) (rcpt : Recipient) : Recipient :=
  let marked := rcpt.markBounced
  if marked.notify.due ≤ now then
    { marked with notify := ⟨((marked.expirationTime created).map (· + 10)).getD u64Max,
        marked.notify.inner⟩ }
  else marked

/-- One turn of the loop of `update_next_dsn`. -/
def Recipient.nextNotify (notify : Recipient → List Nat) (now : Nat) (rcpt : Recipient) :
    Recipient :=
  if rcpt.status.pending = true ∧ rcpt.notify.due ≤ now then
    match (notify rcpt)[rcpt.notify.inner + 1]? with
    | some next => { rcpt with notify := ⟨now + next, rcpt.notify.inner + 1⟩ }
    | none => { rcpt with notify := ⟨u64Max, rcpt.notify.inner⟩ }
  else rcpt

structure QueueStrategy where
  retry : List Nat
  expiry : QueueExpiry
  virtualQueue : QueueName
  deriving DecidableEq

/-- What came of a recipient: a status, with the time and the queue found for it, or a limit. -/
inductive Outcome where
  | status (status : Status) (now : Nat) (strategy : QueueStrategy)
  | rateLimited (retryAt : Nat)
  deriving DecidableEq

/-- What a worker meets: the readings of the clock, the notification times of the queue of a
recipient, a limit of the sender, and the outcomes. -/
structure Attempt where
  now : Nat → Nat
  notify : Recipient → List Nat
  throttled : Option Nat
  results : List (Nat × Outcome)

def Recipient.sendDsn (attempt : Attempt) (returnPath : String) (created first second : Nat)
    (rcpt : Recipient) : Recipient × Option DsnKind :=
  let sent := if returnPath ≠ "" then rcpt.buildDsn first else (rcpt.doubleBounce created first, none)
  (sent.1.nextNotify attempt.notify second, sent.2)

/-- The recipients a notification reports, counted from a place on. -/
def reportsFrom (report : Recipient → Option DsnKind) (idx : Nat) : List Recipient → List (Nat × DsnKind)
  | [] => []
  | rcpt :: rcpts =>
    ((report rcpt).map fun kind => (idx, kind)).toList ++ reportsFrom report (idx + 1) rcpts

/-- `send_dsn`, with the clock read for the notification and for the next one. -/
def Message.sendDsn (attempt : Attempt) (first second : Nat) (m : Message) :
    Message × List (Nat × DsnKind) :=
  let send := Recipient.sendDsn attempt m.returnPath m.created first second
  ({ m with recipients := m.recipients.map fun rcpt => (send rcpt).1 },
    reportsFrom (fun rcpt => (send rcpt).2) 0 m.recipients)

/-! ## The task -/

inductive PendingDelivery where
  | yes (matchesQueue : Bool)
  | no
  deriving DecidableEq

def Recipient.expire (created now : Nat) (rcpt : Recipient) : Recipient :=
  if rcpt.isExpired created now then
    match rcpt.status with
    | .temporaryFailure error => { rcpt with status := .permanentFailure error }
    | .scheduled =>
      { rcpt with status := .permanentFailure ⟨domainPart rcpt.address,
          .io "Message expired without any delivery attempts made."⟩ }
    | _ => rcpt
  else rcpt

def Message.hasPendingDelivery (queueName : QueueName) (now : Nat) (m : Message) :
    Message × PendingDelivery :=
  let expired := { m with recipients := m.recipients.map (Recipient.expire m.created now) }
  (expired,
    if expired.hasPending then
      .yes (expired.recipients.any fun rcpt =>
        rcpt.status.pending && decide (rcpt.queue = queueName))
    else .no)

def Recipient.setOutcome (rcpt : Recipient) : Outcome → Recipient
  | .status status now strategy =>
    if status.pending then
      { rcpt with
        status
        retry := ⟨now + strategy.retry.getD (min rcpt.retry.inner (strategy.retry.length - 1)) 0,
          rcpt.retry.inner + 1⟩
        expires := strategy.expiry
        queue := strategy.virtualQueue }
    else { rcpt with status }
  | .rateLimited retryAt =>
    { rcpt with
      retry := ⟨retryAt, rcpt.retry.inner⟩
      status := .temporaryFailure ⟨"localhost", .rateLimited⟩ }

/-- The recipients of the worker's queue that are due. -/
def Recipient.attempted (queueName : QueueName) (now : Nat) (rcpt : Recipient) : Bool :=
  rcpt.status.pending && decide (rcpt.retry.due ≤ now) && decide (rcpt.queue = queueName)

def Recipient.setOutcomes (results : List (Nat × Outcome)) (idx : Nat) (rcpt : Recipient) :
    Recipient :=
  results.foldl (fun rcpt result => if result.1 = idx then rcpt.setOutcome result.2 else rcpt) rcpt

/-- The status changes of an attempt. Only recipients that are attempted have outcomes. -/
def Message.setOutcomes (queueName : QueueName) (now : Nat) (results : List (Nat × Outcome))
    (m : Message) : Message :=
  { m with recipients := m.recipients.mapIdx fun idx rcpt =>
      if rcpt.attempted queueName now then rcpt.setOutcomes results idx else rcpt }

/-- The sender is limited: all recipients that are due wait. -/
def Message.throttle (queueName : QueueName) (now retryAt : Nat) (m : Message) : Message :=
  { m with recipients := m.recipients.map fun rcpt =>
      if rcpt.attempted queueName now then rcpt.setOutcome (.rateLimited retryAt) else rcpt }

def Message.isDue (queueName : QueueName) (now : Nat) (m : Message) : Bool :=
  match m.nextDeliveryEvent (some queueName) with
  | some due => decide (due ≤ now)
  | none => false

/-- `deliver_task`: the copy at its end, whether it is saved (and else removed), and the
recipients that were reported. -/
def deliverTask (queueName : QueueName) (attempt : Attempt) (m : Message) :
    Message × Bool × List (Nat × DsnKind) :=
  let checked := m.hasPendingDelivery queueName (attempt.now 0)
  let sent := checked.1.sendDsn attempt (attempt.now 1) (attempt.now 2)
  match checked.2 with
  | .no => (sent.1, false, sent.2)
  | .yes matchesQueue =>
    if matchesQueue && sent.1.isDue queueName (attempt.now 3) then
      match attempt.throttled with
      | some retryAt => (sent.1.throttle queueName (attempt.now 4) retryAt, true, sent.2)
      | none =>
        let delivered := sent.1.setOutcomes queueName (attempt.now 5) attempt.results
        let done := delivered.sendDsn attempt (attempt.now 6) (attempt.now 7)
        (done.1, (done.1.nextEvent none).isSome, sent.2 ++ done.2)
    else (sent.1, true, sent.2)

/-! ## One recipient -/

section Recipients

def Recipient.Same (rcpt rcpt' : Recipient) : Prop :=
  rcpt'.status = rcpt.status ∧ rcpt'.queue = rcpt.queue

/-- Only a pending recipient of the queue may get another status or queue. -/
def Recipient.OwnOnly (queueName : QueueName) (rcpt rcpt' : Recipient) : Prop :=
  rcpt.Same rcpt' ∨ rcpt.status.pending = true ∧ rcpt.queue = queueName

def DsnKind.isFinal : Option DsnKind → Bool
  | some .success => true
  | some .failure => true
  | _ => false

variable {rcpt : Recipient} {created now first second : Nat} {attempt : Attempt}
  {returnPath : String} {queueName : QueueName}

theorem expire_of_done (h : rcpt.status.pending = false) : rcpt.expire created now = rcpt := by
  unfold Recipient.expire
  split
  · cases hstatus : rcpt.status with
    | scheduled => rw [hstatus] at h; cases h
    | completed response => rfl
    | temporaryFailure error => rw [hstatus] at h; cases h
    | permanentFailure error => rfl
  · rfl

theorem expire_of_valid (h : rcpt.isExpired created now = false) : rcpt.expire created now = rcpt := by
  rw [Recipient.expire, h]
  rfl

theorem expire_queue : (rcpt.expire created now).queue = rcpt.queue := by
  unfold Recipient.expire
  split
  · split
    · rfl
    · rfl
    · rfl
  · rfl

theorem expire_flags : (rcpt.expire created now).flags = rcpt.flags := by
  unfold Recipient.expire
  split
  · split
    · rfl
    · rfl
    · rfl
  · rfl

theorem nextNotify_same (notify : Recipient → List Nat) (now : Nat) (rcpt : Recipient) :
    rcpt.Same (rcpt.nextNotify notify now) ∧ (rcpt.nextNotify notify now).flags = rcpt.flags := by
  unfold Recipient.nextNotify
  split
  · split
    all_goals exact ⟨⟨rfl, rfl⟩, rfl⟩
  · exact ⟨⟨rfl, rfl⟩, rfl⟩

structure Recipient.Notified (returnPath : String) (rcpt rcpt' : Recipient)
    (report : Option DsnKind) : Prop where
  same : rcpt.Same rcpt'
  silent : rcpt.flags.silent = true → rcpt'.flags.silent = true ∧ DsnKind.isFinal report = false
  marked : returnPath ≠ "" → rcpt.status.pending = false → rcpt'.flags.silent = true
  reported : DsnKind.isFinal report = true → returnPath ≠ "" ∧ rcpt.status.pending = false

theorem buildDsn_notified (now : Nat) (rcpt : Recipient) (hpath : returnPath ≠ "") :
    rcpt.Notified returnPath (rcpt.buildDsn now).1 (rcpt.buildDsn now).2 := by
  unfold Recipient.buildDsn
  dsimp only
  split
  · rename_i hsilent
    exact ⟨⟨rfl, rfl⟩, fun _ => ⟨hsilent, rfl⟩, fun _ _ => hsilent, fun h => by cases h⟩
  · rename_i hsilent
    have hdelay : ∀ delays : Prop, [Decidable delays] →
        DsnKind.isFinal (if delays then some DsnKind.delay else none) = false := by
      intro delays _
      split
      · rfl
      · rfl
    cases hstatus : rcpt.status with
    | scheduled | temporaryFailure error =>
      refine ⟨⟨rfl, rfl⟩, fun h => absurd h hsilent, fun _ h => ?_, fun h => ?_⟩
      · rw [hstatus] at h; cases h
      · rw [hdelay] at h; cases h
    | completed response | permanentFailure error =>
      exact ⟨⟨rfl, rfl⟩, fun h => absurd h hsilent, fun _ _ => rfl,
        fun _ => ⟨hpath, by rw [hstatus]; rfl⟩⟩

theorem markBounced_same (rcpt : Recipient) : rcpt.Same rcpt.markBounced ∧
      (rcpt.flags.silent = true → rcpt.markBounced.flags.silent = true) := by
  unfold Recipient.markBounced
  split
  · split
    · exact ⟨⟨rfl, rfl⟩, id⟩
    · exact ⟨⟨rfl, rfl⟩, fun _ => rfl⟩
  · exact ⟨⟨rfl, rfl⟩, id⟩

theorem doubleBounce_same (created now : Nat) (rcpt : Recipient) :
    rcpt.Same (rcpt.doubleBounce created now) ∧
      (rcpt.flags.silent = true → (rcpt.doubleBounce created now).flags.silent = true) := by
  have hmarked := markBounced_same rcpt
  unfold Recipient.doubleBounce
  dsimp only
  split
  · exact hmarked
  · exact hmarked

theorem sendDsn_notified (attempt : Attempt) (returnPath : String) (created first second : Nat)
    (rcpt : Recipient) :
    rcpt.Notified returnPath (rcpt.sendDsn attempt returnPath created first second).1
      (rcpt.sendDsn attempt returnPath created first second).2 := by
  unfold Recipient.sendDsn
  by_cases hpath : returnPath ≠ ""
  · simp only [if_pos hpath]
    have hbuilt := buildDsn_notified first rcpt hpath
    have hnext := nextNotify_same attempt.notify second (rcpt.buildDsn first).1
    exact ⟨⟨hnext.1.1.trans hbuilt.same.1, hnext.1.2.trans hbuilt.same.2⟩,
      fun h => ⟨by rw [hnext.2]; exact (hbuilt.silent h).1, (hbuilt.silent h).2⟩,
      fun hp h => by rw [hnext.2]; exact hbuilt.marked hp h, hbuilt.reported⟩
  · simp only [if_neg hpath]
    have hbounced := doubleBounce_same created first rcpt
    have hnext := nextNotify_same attempt.notify second (rcpt.doubleBounce created first)
    exact ⟨⟨hnext.1.1.trans hbounced.1.1, hnext.1.2.trans hbounced.1.2⟩,
      fun h => ⟨by rw [hnext.2]; exact hbounced.2 h, rfl⟩, fun hp => absurd hp hpath,
      fun h => by cases h⟩

theorem attempted_own (h : rcpt.attempted queueName now = true) :
    rcpt.status.pending = true ∧ rcpt.queue = queueName := by
  unfold Recipient.attempted at h
  simp only [Bool.and_eq_true, decide_eq_true_eq] at h
  exact ⟨h.1.1, h.2⟩

theorem setOutcome_flags (rcpt : Recipient) (outcome : Outcome) :
    (rcpt.setOutcome outcome).flags = rcpt.flags := by
  cases outcome with
  | status status now strategy =>
    rw [Recipient.setOutcome]
    split
    · rfl
    · rfl
  | rateLimited retryAt => rfl

theorem setOutcomes_flags (results : List (Nat × Outcome)) (idx : Nat) (rcpt : Recipient) :
    (rcpt.setOutcomes results idx).flags = rcpt.flags := by
  unfold Recipient.setOutcomes
  induction results generalizing rcpt with
  | nil => rfl
  | cons result results ih =>
    rw [foldl_cons, ih]
    split
    · exact setOutcome_flags rcpt result.2
    · rfl

/-- The queue that an outcome gives to a recipient that has to be tried again. -/
def Outcome.KeepsQueue (queueName : QueueName) : Outcome → Prop
  | .status _ _ strategy => strategy.virtualQueue = queueName
  | .rateLimited _ => True

theorem setOutcomes_queue {results : List (Nat × Outcome)} {idx : Nat}
    (hkeeps : ∀ result ∈ results, result.2.KeepsQueue queueName) (hqueue : rcpt.queue = queueName) :
    (rcpt.setOutcomes results idx).queue = queueName := by
  unfold Recipient.setOutcomes
  induction results generalizing rcpt with
  | nil => exact hqueue
  | cons result results ih =>
    have hresult := hkeeps result mem_cons_self
    rw [foldl_cons]
    refine ih (fun r hr => hkeeps r (mem_cons_of_mem _ hr)) ?_
    split
    · cases hout : result.2 with
      | status status now strategy =>
        rw [hout] at hresult
        rw [Recipient.setOutcome]
        split
        · exact hresult
        · exact hqueue
      | rateLimited retryAt => exact hqueue
    · exact hqueue

end Recipients

/-! ## All recipients -/

variable (report : Recipient → Option DsnKind)

section Tasks

/-- How often a recipient is reported as delivered or as failed. -/
def finalReports (idx : Nat) (reports : List (Nat × DsnKind)) : Nat :=
  reports.countP fun report => decide (report.1 = idx) && DsnKind.isFinal (some report.2)

theorem finalReports_append (idx : Nat) (reports reports' : List (Nat × DsnKind)) :
    finalReports idx (reports ++ reports') =
      finalReports idx reports + finalReports idx reports' :=
  countP_append

theorem finalReports_toList (idx place : Nat) (kind : Option DsnKind) :
    finalReports idx (kind.map fun kind => (place, kind)).toList =
      if place = idx ∧ DsnKind.isFinal kind = true then 1 else 0 := by
  cases kind with
  | none => simp [finalReports, DsnKind.isFinal]
  | some kind => simp [finalReports, countP_cons]

attribute [local simp] reportsFrom

theorem finalReports_before (rcpts : List Recipient) {base idx : Nat} (h : idx < base) : finalReports idx (reportsFrom report base rcpts) = 0 := by
  induction rcpts generalizing base with
  | nil => rfl
  | cons rcpt rcpts ih =>
    rw [reportsFrom, finalReports_append, finalReports_toList, ih (by omega), if_neg (by omega)]

theorem finalReports_reportsFrom {rcpts : List Recipient} {base idx : Nat} {rcpt : Recipient}
    (h : rcpts[idx]? = some rcpt) :
    finalReports (base + idx) (reportsFrom report base rcpts) =
      if DsnKind.isFinal (report rcpt) = true then 1 else 0 := by
  induction rcpts generalizing base idx with
  | nil => cases h
  | cons first rcpts ih =>
    rw [reportsFrom, finalReports_append, finalReports_toList]
    cases idx with
    | zero =>
      cases h
      rw [finalReports_before _ _ (by omega)]
      simp
    | succ idx =>
      have hrest : finalReports (base + 1 + idx) (reportsFrom report (base + 1) rcpts) = _ := ih h
      rw [show base + 1 + idx = base + (idx + 1) by omega] at hrest
      rw [hrest, if_neg (by omega), Nat.zero_add]

theorem finalReports_beyond (rcpts : List Recipient) {base idx : Nat}
    (h : base + rcpts.length ≤ idx) : finalReports idx (reportsFrom report base rcpts) = 0 := by
  induction rcpts generalizing base with
  | nil => rfl
  | cons rcpt rcpts ih =>
    rw [length_cons] at h
    rw [reportsFrom, finalReports_append, finalReports_toList, ih (by omega), if_neg (by omega)]

/-- What a task does to a recipient, and how often it reports it. -/
structure Handled (queueName : QueueName) (attempt : Attempt) (m : Message)
    (rcpt rcpt' : Recipient) (reports : Nat) : Prop where
  own : (rcpt.expire m.created (attempt.now 0)).OwnOnly queueName rcpt'
  queue : (∀ result ∈ attempt.results, result.2.KeepsQueue queueName) → rcpt'.queue = rcpt.queue
  marked : m.returnPath ≠ "" → rcpt'.status.pending = false → rcpt'.flags.silent = true
  silent : rcpt.flags.silent = true → reports = 0
  once : reports ≤ 1
  reported : reports ≠ 0 → m.returnPath ≠ "" ∧ rcpt'.status.pending = false

variable {queueName : QueueName} {attempt : Attempt} {m : Message} {rcpt sent : Recipient}
  {kind : Option DsnKind}

theorem handled_sent (hsent : (rcpt.expire m.created (attempt.now 0)).Notified m.returnPath sent kind) :
    Handled queueName attempt m rcpt sent (if DsnKind.isFinal kind = true then 1 else 0) where
  own := Or.inl hsent.same
  queue _ := hsent.same.2.trans expire_queue
  marked hpath hdone := hsent.marked hpath (by rw [← hsent.same.1]; exact hdone)
  silent h := by rw [(hsent.silent (by rw [expire_flags]; exact h)).2]; rfl
  once := by split <;> omega
  reported h := by
    have hfinal : DsnKind.isFinal kind = true := by
      by_contra hfinal
      rw [if_neg hfinal] at h
      exact h rfl
    exact ⟨(hsent.reported hfinal).1, by rw [hsent.same.1]; exact (hsent.reported hfinal).2⟩

theorem handled_throttle (now retryAt : Nat)
    (hsent : (rcpt.expire m.created (attempt.now 0)).Notified m.returnPath sent kind) :
    Handled queueName attempt m rcpt
      (if sent.attempted queueName now then sent.setOutcome (.rateLimited retryAt) else sent)
      (if DsnKind.isFinal kind = true then 1 else 0) := by
  have hfirst : Handled queueName attempt m rcpt sent _ := handled_sent hsent
  split
  · rename_i hattempted
    obtain ⟨hpending, hown⟩ := attempted_own hattempted
    refine ⟨Or.inr ⟨?_, ?_⟩, hfirst.queue, fun _ h => (by cases h), hfirst.silent, hfirst.once,
      fun h => ?_⟩
    · rw [← hsent.same.1]
      exact hpending
    · rw [← hsent.same.2]
      exact hown
    · have hdone := (hfirst.reported h).2
      rw [hpending] at hdone
      cases hdone
  · exact hfirst

theorem handled_delivered {now idx : Nat} {done : Recipient} {kind' : Option DsnKind}
    (hsent : (rcpt.expire m.created (attempt.now 0)).Notified m.returnPath sent kind)
    (hdone : Recipient.Notified m.returnPath
      (if sent.attempted queueName now then sent.setOutcomes attempt.results idx else sent)
      done kind') :
    Handled queueName attempt m rcpt done
      ((if DsnKind.isFinal kind = true then 1 else 0) +
        if DsnKind.isFinal kind' = true then 1 else 0) := by
  have hfirst : Handled queueName attempt m rcpt sent _ := handled_sent hsent
  by_cases hattempted : sent.attempted queueName now = true
  · rw [if_pos hattempted] at hdone
    obtain ⟨hpending, hown⟩ := attempted_own hattempted
    -- what is attempted has not been reported
    have hnone : (if DsnKind.isFinal kind = true then 1 else 0) = 0 := by
      by_contra h
      have hfinal := (hfirst.reported h).2
      rw [hpending] at hfinal
      cases hfinal
    rw [hnone]
    refine ⟨Or.inr ⟨?_, ?_⟩, fun hkeeps => ?_, fun hpath h => ?_, fun h => ?_, ?_, fun h => ?_⟩
    · rw [← hsent.same.1]
      exact hpending
    · rw [← hsent.same.2]
      exact hown
    · rw [hdone.same.2, setOutcomes_queue hkeeps hown, ← hown]
      exact hfirst.queue hkeeps
    · exact hdone.marked hpath (by rw [← hdone.same.1]; exact h)
    · have hsilent := (hsent.silent (by rw [expire_flags]; exact h)).1
      rw [(hdone.silent (by rw [setOutcomes_flags]; exact hsilent)).2]
      rfl
    · split <;> omega
    · have hfinal : DsnKind.isFinal kind' = true := by
        by_contra hfinal
        rw [if_neg hfinal] at h
        exact h rfl
      exact ⟨(hdone.reported hfinal).1, by rw [hdone.same.1]; exact (hdone.reported hfinal).2⟩
  · rw [if_neg hattempted] at hdone
    have hsecond : DsnKind.isFinal kind' = true → DsnKind.isFinal kind = false := by
      intro hfinal
      by_contra h
      have hreport := hsent.reported (by simpa using h)
      have hmarked := hsent.marked hreport.1 hreport.2
      rw [(hdone.silent hmarked).2] at hfinal
      cases hfinal
    refine ⟨Or.inl ⟨?_, ?_⟩, fun hkeeps => ?_, fun hpath h => ?_, fun h => ?_, ?_, fun h => ?_⟩
    · rw [hdone.same.1, hsent.same.1]
    · rw [hdone.same.2, hsent.same.2]
    · rw [hdone.same.2]
      exact hfirst.queue hkeeps
    · exact hdone.marked hpath (by rw [← hdone.same.1]; exact h)
    · have hsilent := hsent.silent (by rw [expire_flags]; exact h)
      rw [hsilent.2, (hdone.silent hsilent.1).2]
      rfl
    · cases hkind' : DsnKind.isFinal kind' with
      | false => split <;> simp
      | true => rw [hsecond hkind']; simp
    · have hfinal : DsnKind.isFinal kind = true ∨ DsnKind.isFinal kind' = true := by
        by_contra hnone
        rw [not_or] at hnone
        rw [if_neg hnone.1, if_neg hnone.2] at h
        exact h rfl
      rcases hfinal with hfinal | hfinal
      · have hreport := hsent.reported hfinal
        exact ⟨hreport.1, by rw [hdone.same.1, hsent.same.1]; exact hreport.2⟩
      · have hreport := hdone.reported hfinal
        exact ⟨hreport.1, by rw [hdone.same.1]; exact hreport.2⟩

def Message.SameBut (m m' : Message) : Prop :=
  m' = { m with recipients := m'.recipients } ∧ m'.recipients.length = m.recipients.length

theorem sendDsn_rcpts (attempt : Attempt) (first second : Nat) (m : Message) :
    m.SameBut (m.sendDsn attempt first second).1 ∧
    ∀ idx rcpt, m.recipients[idx]? = some rcpt →
      ∃ rcpt' kind, (m.sendDsn attempt first second).1.recipients[idx]? = some rcpt' ∧
        finalReports idx (m.sendDsn attempt first second).2 =
          (if DsnKind.isFinal kind = true then 1 else 0) ∧
        rcpt.Notified m.returnPath rcpt' kind := by
  refine ⟨⟨rfl, by simp [Message.sendDsn]⟩, fun idx rcpt h => ?_⟩
  refine ⟨_, _, ?_, ?_, sendDsn_notified attempt m.returnPath m.created first second rcpt⟩
  · simp [Message.sendDsn, h]
  · have hcount : finalReports (0 + idx) (m.sendDsn attempt first second).2 = _ :=
      finalReports_reportsFrom
        (fun rcpt => (rcpt.sendDsn attempt m.returnPath m.created first second).2) h
    simp [← hcount]

theorem deliverTask_rcpts (queueName : QueueName) (attempt : Attempt) (m : Message) :
    m.SameBut (deliverTask queueName attempt m).1 ∧
    ∀ idx rcpt, m.recipients[idx]? = some rcpt →
      ∃ rcpt', (deliverTask queueName attempt m).1.recipients[idx]? = some rcpt' ∧
        Handled queueName attempt m rcpt rcpt'
          (finalReports idx (deliverTask queueName attempt m).2.2) := by
  obtain ⟨⟨hfields, hlength⟩, hrcpts⟩ := sendDsn_rcpts attempt (attempt.now 1) (attempt.now 2)
    (m.hasPendingDelivery queueName (attempt.now 0)).1
  have hsent : ∀ idx rcpt, m.recipients[idx]? = some rcpt → _ := fun idx rcpt h =>
    hrcpts idx (rcpt.expire m.created (attempt.now 0)) (by
      simp [Message.hasPendingDelivery, h])
  have hlength' : (m.hasPendingDelivery queueName (attempt.now 0)).1.recipients.length =
      m.recipients.length := by simp [Message.hasPendingDelivery]
  unfold deliverTask
  dsimp only
  generalize hchecked : m.hasPendingDelivery queueName (attempt.now 0) = checked at *
  have hm : checked.1 = { m with recipients := checked.1.recipients } := by rw [← hchecked]; rfl
  generalize checked.1.sendDsn attempt (attempt.now 1) (attempt.now 2) = sent at *
  have hpath : checked.1.returnPath = m.returnPath := by rw [hm]
  rw [hpath] at hsent
  have hsame : m.SameBut sent.1 := ⟨by rw [hfields, hm], hlength.trans hlength'⟩
  -- the tasks that end behind the first notifications
  have hplain : ∀ idx rcpt, m.recipients[idx]? = some rcpt → ∃ rcpt',
      sent.1.recipients[idx]? = some rcpt' ∧
        Handled queueName attempt m rcpt rcpt' (finalReports idx sent.2) := by
    intro idx rcpt h
    obtain ⟨rcpt', kind, hget, hcount, hnotified⟩ := hsent idx rcpt h
    rw [hcount]
    exact ⟨rcpt', hget, handled_sent hnotified⟩
  split
  · exact ⟨hsame, hplain⟩
  · split
    · split
      · rename_i retryAt _
        refine ⟨⟨by rw [Message.throttle, hsame.1], by simp [Message.throttle, hsame.2]⟩,
          fun idx rcpt h => ?_⟩
        obtain ⟨rcpt', kind, hget, hcount, hnotified⟩ := hsent idx rcpt h
        rw [hcount]
        exact ⟨_, by simp [Message.throttle, hget], handled_throttle (attempt.now 4) retryAt hnotified⟩
      · obtain ⟨⟨hfields', hlength''⟩, hrcpts'⟩ := sendDsn_rcpts attempt (attempt.now 6)
          (attempt.now 7) (sent.1.setOutcomes queueName (attempt.now 5) attempt.results)
        refine ⟨⟨?_, ?_⟩, fun idx rcpt h => ?_⟩
        · rw [hfields', Message.setOutcomes, hsame.1]
        · rw [hlength'']
          simp [Message.setOutcomes, hsame.2]
        · obtain ⟨rcpt', kind, hget, hcount, hnotified⟩ := hsent idx rcpt h
          have hdelivered : (sent.1.setOutcomes queueName (attempt.now 5)
              attempt.results).recipients[idx]? = some (if rcpt'.attempted queueName (attempt.now 5)
                then rcpt'.setOutcomes attempt.results idx else rcpt') := by
            simp [Message.setOutcomes, List.getElem?_mapIdx, hget]
          obtain ⟨done, kind', hget', hcount', hnotified'⟩ := hrcpts' idx _ hdelivered
          have hpath' : (sent.1.setOutcomes queueName (attempt.now 5) attempt.results).returnPath =
              m.returnPath := by
            rw [hsame.1]
            rfl
          rw [hpath'] at hnotified'
          rw [finalReports_append, hcount, hcount']
          exact ⟨done, hget', handled_delivered hnotified hnotified'⟩
    · exact ⟨hsame, hplain⟩

theorem deliverTask_beyond (queueName : QueueName) (attempt : Attempt) (m : Message) {idx : Nat}
    (h : m.recipients.length ≤ idx) :
    finalReports idx (deliverTask queueName attempt m).2.2 = 0 := by
  have hsend : ∀ (m : Message) (first second : Nat), m.recipients.length ≤ idx →
      finalReports idx (m.sendDsn attempt first second).2 = 0 := by
    intro m first second h
    exact finalReports_beyond _ _ (by omega)
  have hsent : finalReports idx ((m.hasPendingDelivery queueName (attempt.now 0)).1.sendDsn attempt
      (attempt.now 1) (attempt.now 2)).2 = 0 :=
    hsend _ _ _ (by simpa [Message.hasPendingDelivery] using h)
  have hlen : ((m.hasPendingDelivery queueName (attempt.now 0)).1.sendDsn attempt
      (attempt.now 1) (attempt.now 2)).1.recipients.length = m.recipients.length := by
    simp [Message.hasPendingDelivery, Message.sendDsn]
  unfold deliverTask
  dsimp only
  split
  · exact hsent
  · split
    · split
      · exact hsent
      · rw [finalReports_append, hsent, hsend]
        simpa [Message.setOutcomes, hlen] using h
    · exact hsent

theorem sendDsn_hasPending (attempt : Attempt) (first second : Nat) (m : Message) :
    (m.sendDsn attempt first second).1.hasPending = m.hasPending := by
  have hstatus : ∀ rcpt : Recipient,
      (rcpt.sendDsn attempt m.returnPath m.created first second).1.status = rcpt.status :=
    fun rcpt => (sendDsn_notified attempt m.returnPath m.created first second rcpt).same.1
  simp [Message.hasPending, Message.sendDsn, any_map, Function.comp_def, hstatus]

theorem deliverTask_saves (queueName : QueueName) (attempt : Attempt) (m : Message) :
    (deliverTask queueName attempt m).1.hasPending = (deliverTask queueName attempt m).2.1 := by
  have hsent : ((m.hasPendingDelivery queueName (attempt.now 0)).1.sendDsn attempt
      (attempt.now 1) (attempt.now 2)).1.hasPending =
      (m.hasPendingDelivery queueName (attempt.now 0)).1.hasPending :=
    sendDsn_hasPending _ _ _ _
  have hyes : ∀ matchesQueue, (m.hasPendingDelivery queueName (attempt.now 0)).2 =
      .yes matchesQueue → (m.hasPendingDelivery queueName (attempt.now 0)).1.hasPending = true := by
    intro matchesQueue h
    unfold Message.hasPendingDelivery at h
    dsimp only at h
    split at h
    · rename_i hpending
      exact hpending
    · cases h
  have hno : (m.hasPendingDelivery queueName (attempt.now 0)).2 = .no →
      (m.hasPendingDelivery queueName (attempt.now 0)).1.hasPending = false := by
    intro h
    unfold Message.hasPendingDelivery at h
    dsimp only at h
    split at h
    · cases h
    · rename_i hpending
      exact Bool.eq_false_iff.mpr hpending
  unfold deliverTask
  dsimp only
  generalize m.hasPendingDelivery queueName (attempt.now 0) = checked at *
  generalize checked.1.sendDsn attempt (attempt.now 1) (attempt.now 2) = sent at *
  split
  · rename_i hchecked
    exact hsent.trans (hno hchecked)
  · rename_i matchesQueue hchecked
    have hpending : sent.1.hasPending = true := hsent.trans (hyes _ hchecked)
    split
    · split
      · -- who waits for a limit is pending
        rw [Message.hasPending, any_eq_true] at hpending ⊢
        obtain ⟨rcpt, hmem, hrcpt⟩ := hpending
        refine ⟨_, mem_map_of_mem hmem, ?_⟩
        split
        · rfl
        · exact hrcpt
      · exact (nextEvent_isSome _).symm
    · exact hpending

end Tasks

end Bearmail.Queue
