import Mathlib.Data.List.Basic

/-!
# Queued messages

The data model of `smtp/src/queue/mod.rs`, the due times of `smtp/src/queue/manager.rs` and
`release_quota` of `smtp/src/queue/quota.rs`. What the SMTP peer said is carried along but not
read. The flags of a recipient are those of notifications. Times are seconds, unbounded.
-/

namespace Bearmail.Queue

abbrev QueueId := Nat

abbrev QueueName := String

structure Schedule where
  due : Nat
  inner : Nat
  deriving DecidableEq

inductive QueueExpiry where
  | ttl (time : Nat)
  | attempts (count : Nat)
  deriving DecidableEq

structure Response where
  code : Nat
  message : String
  deriving DecidableEq

structure HostResponse where
  hostname : String
  response : Response
  deriving DecidableEq

inductive Error where
  | dnsError (details : String)
  | unexpectedResponse (command : String) (response : Response)
  | connectionError (details : String)
  | tlsError (details : String)
  | daneError (details : String)
  | mtaStsError (details : String)
  | rateLimited
  | concurrencyLimited
  | io (details : String)
  deriving DecidableEq

structure ErrorDetails where
  entity : String
  details : Error
  deriving DecidableEq

inductive Status where
  | scheduled
  | completed (response : HostResponse)
  | temporaryFailure (error : ErrorDetails)
  | permanentFailure (error : ErrorDetails)
  deriving DecidableEq

def Status.pending : Status → Bool
  | .scheduled => true
  | .temporaryFailure _ => true
  | _ => false

/-- `RCPT_DSN_SENT` and the `NOTIFY` parameters of `RCPT TO`. -/
structure RcptFlags where
  dsnSent : Bool
  notifyNever : Bool
  notifySuccess : Bool
  notifyFailure : Bool
  notifyDelay : Bool
  deriving DecidableEq

structure Recipient where
  address : String
  retry : Schedule
  notify : Schedule
  expires : QueueExpiry
  queue : QueueName
  status : Status
  flags : RcptFlags
  orcpt : Option String
  deriving DecidableEq

inductive Metadata where
  | queueSize (key : List UInt8) (id : Nat)
  | queueCount (key : List UInt8) (id : Nat)
  | headers (value : List UInt8) (id : Nat)
  deriving DecidableEq

structure Message where
  created : Nat
  blobHash : List UInt8
  returnPath : String
  recipients : List Recipient
  envId : Option String
  priority : Int
  size : Nat
  metadata : List Metadata
  deriving DecidableEq

def domainPart (address : String) : String :=
  let chars := address.toList.reverse
  if '@' ∈ chars then String.ofList (chars.takeWhile (· ≠ '@')).reverse else ""

/-! ## Due times -/

def Recipient.expirationTime (rcpt : Recipient) (created : Nat) : Option Nat :=
  match rcpt.expires with
  | .ttl time => some (created + time)
  | .attempts _ => none

def Recipient.isExpired (rcpt : Recipient) (created now : Nat) : Bool :=
  match rcpt.expires with
  | .ttl time => decide (created + time ≤ now)
  | .attempts count => decide (count ≤ rcpt.retry.inner)

def Recipient.earlierEvent (rcpt : Recipient) (created : Nat) : Nat :=
  let earlier := min rcpt.retry.due rcpt.notify.due
  match rcpt.expirationTime created with
  | some expires => min earlier expires
  | none => earlier

def earliest (times : List Nat) : Option Nat :=
  times.foldl (fun earliest time =>
    match earliest with
    | none => some time
    | some best => some (if time < best then time else best)) none

namespace Message

def hasPending (m : Message) : Bool := m.recipients.any fun rcpt => rcpt.status.pending

def pendingOf (m : Message) (queue : Option QueueName) : List Recipient :=
  m.recipients.filter fun rcpt =>
    rcpt.status.pending && (match queue with
      | none => true
      | some name => decide (rcpt.queue = name))

def nextEvent (m : Message) (queue : Option QueueName) : Option Nat :=
  earliest ((m.pendingOf queue).map fun rcpt => rcpt.earlierEvent m.created)

def nextDeliveryEvent (m : Message) (queue : Option QueueName) : Option Nat :=
  earliest ((m.pendingOf queue).map fun rcpt => rcpt.retry.due)

/-- The entry of a map from queues to times, lowered to a time. -/
def lowerEvent (events : List (QueueName × Nat)) (queue : QueueName) (due : Nat) :
    List (QueueName × Nat) :=
  match events with
  | [] => [(queue, due)]
  | event :: events =>
    if event.1 = queue then (queue, if due < event.2 then due else event.2) :: events
    else event :: lowerEvent events queue due

def nextEvents (m : Message) : List (QueueName × Nat) :=
  m.recipients.foldl (fun events rcpt =>
    if rcpt.status.pending then lowerEvent events rcpt.queue (rcpt.earlierEvent m.created)
    else events) []

end Message

theorem lowerEvent_ne_nil (events : List (QueueName × Nat)) (queue : QueueName) (due : Nat) :
    Message.lowerEvent events queue due ≠ [] := by
  cases events with
  | nil => simp [Message.lowerEvent]
  | cons event events =>
    rw [Message.lowerEvent]
    split
    · simp
    · simp

theorem nextEvents_ne_nil {m : Message} (h : m.hasPending = true) : m.nextEvents ≠ [] := by
  have hgo : ∀ (rcpts : List Recipient) (events : List (QueueName × Nat)),
      (events ≠ [] ∨ rcpts.any (fun rcpt => rcpt.status.pending) = true) →
      rcpts.foldl (fun events rcpt =>
        if rcpt.status.pending then
          Message.lowerEvent events rcpt.queue (rcpt.earlierEvent m.created)
        else events) events ≠ [] := by
    intro rcpts
    induction rcpts with
    | nil =>
      rintro events (h | h)
      · exact h
      · cases h
    | cons rcpt rcpts ih =>
      intro events h
      rw [List.foldl_cons]
      by_cases hpending : rcpt.status.pending = true
      · rw [if_pos hpending]
        exact ih _ (Or.inl (lowerEvent_ne_nil _ _ _))
      · rw [if_neg hpending]
        refine ih _ (h.imp_right fun h => ?_)
        rcases Bool.or_eq_true_iff.mp h with h | h
        · exact absurd h hpending
        · exact h
  exact hgo m.recipients [] (Or.inr h)

theorem earliest_isSome (times : List Nat) : (earliest times).isSome = true ↔ times ≠ [] := by
  have hgo : ∀ (times : List Nat) (best : Option Nat), best.isSome = true →
      (times.foldl (fun earliest time =>
        match earliest with
        | none => some time
        | some best => some (if time < best then time else best)) best).isSome = true := by
    intro times
    induction times with
    | nil => exact fun best h => h
    | cons time times ih =>
      intro best h
      apply ih
      cases best with
      | none | some best => rfl
  cases times with
  | nil => simp [earliest]
  | cons time times =>
    refine iff_of_true ?_ (by simp)
    exact hgo times (some time) rfl

theorem nextEvent_isSome (m : Message) : (m.nextEvent none).isSome = m.hasPending := by
  have h : (m.nextEvent none).isSome = true ↔ m.hasPending = true := by
    rw [Message.nextEvent, earliest_isSome, Message.hasPending]
    simp [Message.pendingOf]
  exact Bool.eq_iff_iff.mpr h

/-! ## Quotas -/

def Metadata.isQuota : Metadata → Bool
  | .queueSize _ _ => true
  | .queueCount _ _ => true
  | .headers _ _ => false

/-- The quota ids of the recipients that are done: their places, and in the upper half the places
of the first of each domain. -/
def quotaIds (pos : Nat) (seenDomains : List String) : List Recipient → List Nat
  | [] => []
  | rcpt :: rcpts =>
    if rcpt.status.pending then quotaIds (pos + 1) seenDomains rcpts
    else
      let domain := domainPart rcpt.address
      (if domain ∈ seenDomains then [] else [(pos + 1) * 2 ^ 32]) ++
        (pos + 1) :: quotaIds (pos + 1) (domain :: seenDomains) rcpts

def Metadata.releasedBy (ids : List Nat) : Metadata → Bool
  | .queueSize _ id => decide (id ∈ ids)
  | .queueCount _ id => decide (id ∈ ids)
  | .headers _ _ => false

/-- `release_quota`: the message without the reservations of done recipients, and these. -/
def releaseQuota (m : Message) : Message × List Metadata :=
  if m.metadata.any Metadata.isQuota = false then (m, [])
  else
    let ids := quotaIds 0 [] m.recipients
    if ids = [] then (m, [])
    else
      ({ m with metadata := m.metadata.filter fun entry => !entry.releasedBy ids },
        m.metadata.filter fun entry => entry.releasedBy ids)

end Bearmail.Queue
