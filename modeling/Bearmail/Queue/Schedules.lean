import Mathlib.Algebra.Group.Int.Defs
import Bearmail.Queue.Delivery

/-!
# Notification schedules

`Schedule::now` and `Schedule::later` of `smtp/src/queue/mod.rs`, and the two places that add
recipients: `build_message` of `smtp/src/inbound/data.rs` and `add_expanded_recipient` of
`smtp/src/queue/spool.rs`. The lowercase form of an address and the queue that an expression
names for a recipient are a `Server`.
-/

namespace Bearmail.Queue

open List

def Schedule.at (now : Nat) : Schedule := ⟨now, 0⟩

def Schedule.later (now duration : Nat) : Schedule := ⟨now + duration, 0⟩

structure QueueConfig extends QueueStrategy where
  notify : List Nat

structure Server where
  toLowercaseAddress : String → String
  queue : Message → Recipient → QueueConfig

/-! ## `build_message` -/

structure SessionAddress where
  address : String
  addressLcase : String
  domain : String
  flags : RcptFlags
  byReturn : Bool
  dsnInfo : Option String

def SessionAddress.le (a b : SessionAddress) : Bool :=
  decide (a.domain < b.domain) || (a.domain == b.domain && decide (a.addressLcase ≤ b.addressLcase))

structure SessionData where
  priority : Int
  deliveryBy : Int
  futureRelease : Nat

def asU64 (n : Int) : Nat := (n % 2 ^ 64).toNat

def RcptFlags.orDefault (flags : RcptFlags) : RcptFlags :=
  if flags.notifyDelay || flags.notifyFailure || flags.notifySuccess || flags.notifyNever then flags
  else { flags with notifyDelay := true, notifyFailure := true }

def QueueConfig.nextNotify (queue : QueueConfig) : Nat := queue.notify.head?.getD 86400

/-- What a client that asks to be notified by a time waits for. -/
def SessionData.notifyAt (session : SessionData) (queue : QueueConfig) : Nat × QueueExpiry :=
  match queue.expiry with
  | .ttl expireSecs =>
    (if 0 < session.deliveryBy then
      let notifyAt := asU64 session.deliveryBy
      if notifyAt < expireSecs then notifyAt else queue.nextNotify
    else
      let notifyAt := asU64 (-session.deliveryBy)
      if notifyAt < expireSecs then expireSecs - notifyAt else queue.nextNotify,
      .ttl expireSecs)
  | .attempts _ => (queue.nextNotify, .ttl session.deliveryBy.natAbs)

def SessionData.notifyExpires (session : SessionData) (byReturn : Bool) (queue : QueueConfig)
    (now : Nat) : Schedule × QueueExpiry :=
  let numIntervals := max queue.notify.length 1
  let futureRelease := session.futureRelease
  if session.deliveryBy = 0 then
    (Schedule.later now (futureRelease + queue.nextNotify),
      match queue.expiry with
      | .ttl time => .ttl (futureRelease + time)
      | .attempts count => .attempts count)
  else if byReturn then
    (Schedule.later now (futureRelease + queue.nextNotify), .ttl (asU64 session.deliveryBy))
  else
    let (notify, expires) := session.notifyAt queue
    -- the place of the last interval: no further notification
    ({ Schedule.later now (futureRelease + notify) with inner := numIntervals - 1 }, expires)

def Server.newRecipient (server : Server) (address : String) (now : Nat) : Recipient where
  address := server.toLowercaseAddress address
  retry := Schedule.at now
  notify := Schedule.at now
  expires := .attempts 0
  queue := ""
  status := .scheduled
  flags := ⟨false, false, false, false, false⟩
  orcpt := none

def Message.push (m : Message) (rcpt : Recipient) : Message :=
  { m with recipients := m.recipients ++ [rcpt] }

def Server.envelopeRcpt (server : Server) (rcpt : SessionAddress) (now : Nat) : Recipient :=
  { server.newRecipient rcpt.address now with flags := rcpt.flags.orDefault, orcpt := rcpt.dsnInfo }

def Server.queueFor (server : Server) (m : Message) (rcpt : SessionAddress) (now : Nat) :
    QueueConfig :=
  let pushed := server.envelopeRcpt rcpt now
  server.queue (m.push pushed) pushed

/-- One turn of the loop of `build_message`, with the clock at its three readings. -/
def Server.buildRecipient (server : Server) (session : SessionData) (byReturn : Bool)
    (m : Message) (rcpt : SessionAddress) (clock : Nat → Nat) : Recipient :=
  let queue := server.queueFor m rcpt (clock 0)
  let (notify, expires) := session.notifyExpires byReturn queue (clock 2)
  { server.envelopeRcpt rcpt (clock 0) with
    retry :=
      if session.futureRelease = 0 then Schedule.at (clock 1)
      else Schedule.later (clock 1) session.futureRelease
    notify := notify
    expires := expires
    queue := queue.virtualQueue }

def Server.buildRecipients (server : Server) (session : SessionData) (byReturn : Bool)
    (clock : Nat → Nat → Nat) (m : Message) : List SessionAddress → Message
  | [] => m
  | rcpt :: rcpts =>
    let added := server.buildRecipient session byReturn m rcpt (clock m.recipients.length)
    server.buildRecipients session byReturn clock (m.push added) rcpts

def Server.buildMessage (server : Server) (session : SessionData) (mailFrom : SessionAddress)
    (rcptTo : List SessionAddress) (created : Nat) (clock : Nat → Nat → Nat) : Message :=
  server.buildRecipients session mailFrom.byReturn clock
    { created := created
      blobHash := []
      returnPath := server.toLowercaseAddress mailFrom.address
      recipients := []
      envId := mailFrom.dsnInfo
      priority := session.priority
      size := 0
      metadata := [] }
    (rcptTo.mergeSort SessionAddress.le)

/-! ## `add_expanded_recipient` -/

def Server.addExpandedRecipient (server : Server) (m : Message) (rcpt : String)
    (clock : Nat → Nat) : Message :=
  let pushed := server.newRecipient rcpt (clock 0)
  let queue := server.queue (m.push pushed) pushed
  let now := clock 1
  m.push { pushed with
    notify := Schedule.later (clock 2) (queue.nextNotify + now)
    expires := queue.expiry
    queue := queue.virtualQueue }

variable (server : Server)

theorem addExpandedRecipient_due (m : Message) (rcpt : String) (clock : Nat → Nat) :
    ∃ added, (server.addExpandedRecipient m rcpt clock).recipients = m.recipients ++ [added] ∧
      added.notify.inner = 0 ∧
      added.notify.due = clock 2 + ((server.queue (m.push (server.newRecipient rcpt (clock 0)))
        (server.newRecipient rcpt (clock 0))).nextNotify + clock 1) :=
  ⟨_, rfl, rfl, rfl⟩

/-! ## The recipients of a built message -/

theorem buildRecipients_take (session : SessionData) (byReturn : Bool) (clock : Nat → Nat → Nat)
    (rcpts : List SessionAddress) (m : Message) :
    ∃ added, server.buildRecipients session byReturn clock m rcpts =
        { m with recipients := m.recipients ++ added } ∧ added.length = rcpts.length ∧
      ∀ idx rcpt, added[idx]? = some rcpt → ∃ address, rcpts[idx]? = some address ∧
        rcpt = server.buildRecipient session byReturn
          { m with recipients := m.recipients ++ added.take idx } address
          (clock (m.recipients.length + idx)) := by
  induction rcpts generalizing m with
  | nil => exact ⟨[], by simp [Server.buildRecipients], rfl, fun idx rcpt h => by simp at h⟩
  | cons first rcpts ih =>
    obtain ⟨added, hbuilt, hlength, hadded⟩ :=
      ih (m.push (server.buildRecipient session byReturn m first (clock m.recipients.length)))
    refine ⟨server.buildRecipient session byReturn m first (clock m.recipients.length) :: added,
      ?_, ?_, fun idx rcpt h => ?_⟩
    · rw [Server.buildRecipients, hbuilt]
      simp [Message.push]
    · rw [length_cons, length_cons, hlength]
    · cases idx with
      | zero =>
        cases h
        exact ⟨first, rfl, by simp⟩
      | succ idx =>
        obtain ⟨address, haddress, hrcpt⟩ := hadded idx rcpt h
        refine ⟨address, haddress, ?_⟩
        rw [hrcpt]
        simp [Message.push, Nat.add_assoc, Nat.add_comm 1 idx]

/-- What a recipient of a built message was built from: its address, and the recipients before. -/
theorem buildMessage_rcpt (session : SessionData) (mailFrom : SessionAddress)
    (rcptTo : List SessionAddress) (created : Nat) (clock : Nat → Nat → Nat) {idx : Nat}
    {rcpt : Recipient}
    (h : (server.buildMessage session mailFrom rcptTo created clock).recipients[idx]? = some rcpt) :
    ∃ address ∈ rcptTo, rcpt = server.buildRecipient session mailFrom.byReturn
      { server.buildMessage session mailFrom rcptTo created clock with
        recipients := (server.buildMessage session mailFrom rcptTo created
          clock).recipients.take idx } address (clock idx) := by
  unfold Server.buildMessage at h ⊢
  obtain ⟨added, hbuilt, -, hadded⟩ := buildRecipients_take server session mailFrom.byReturn clock
    (rcptTo.mergeSort SessionAddress.le)
    { created := created
      blobHash := []
      returnPath := server.toLowercaseAddress mailFrom.address
      recipients := []
      envId := mailFrom.dsnInfo
      priority := session.priority
      size := 0
      metadata := [] }
  rw [hbuilt] at h ⊢
  obtain ⟨address, haddress, hrcpt⟩ := hadded idx rcpt (by simpa using h)
  refine ⟨address, mem_mergeSort.mp (mem_of_getElem? haddress), ?_⟩
  rw [hrcpt]
  simp

def SessionData.NotifyMode (session : SessionData) (byReturn : Bool) : Prop :=
  session.deliveryBy ≠ 0 ∧ byReturn = false

theorem notifyExpires_first {session : SessionData} {byReturn : Bool} (queue : QueueConfig)
    (now : Nat) (h : ¬session.NotifyMode byReturn) :
    (session.notifyExpires byReturn queue now).1 =
      ⟨now + (session.futureRelease + queue.nextNotify), 0⟩ := by
  unfold SessionData.notifyExpires
  split
  · rfl
  · rename_i hby
    split
    · rfl
    · rename_i hreturn
      exact absurd ⟨hby, Bool.eq_false_iff.mpr hreturn⟩ h

theorem notifyExpires_notifyMode {session : SessionData} {byReturn : Bool} (queue : QueueConfig)
    (now : Nat) (h : session.NotifyMode byReturn) :
    (session.notifyExpires byReturn queue now).1 =
      ⟨now + (session.futureRelease + (session.notifyAt queue).1), max queue.notify.length 1 - 1⟩ := by
  unfold SessionData.notifyExpires
  rw [if_neg h.1, h.2]
  rfl

/-! ## Runs of `update_next_dsn` -/

/-- A call of `update_next_dsn`, for a recipient as the deliveries left it: the intervals of the
queue found for it, and a clock that has not come to its end. -/
structure Round where
  rcpt : Recipient
  notify : Recipient → List Nat
  now : Nat
  inTime : now < u64Max

variable {round : Round} {s : Schedule}

namespace Round

def envelope (round : Round) (s : Schedule) : Recipient := { round.rcpt with notify := s }

def update (s : Schedule) (round : Round) : Schedule :=
  ((round.envelope s).nextNotify round.notify round.now).notify

def Due (round : Round) (s : Schedule) : Prop :=
  round.rcpt.status.pending = true ∧ s.due ≤ round.now

instance (round : Round) (s : Schedule) : Decidable (round.Due s) :=
  inferInstanceAs (Decidable (_ ∧ _))

theorem update_due (h : round.Due s) :
    round.update s = match (round.notify (round.envelope s))[s.inner + 1]? with
      | some next => ⟨round.now + next, s.inner + 1⟩
      | none => ⟨u64Max, s.inner⟩ := by
  have hdue : (round.envelope s).status.pending = true ∧ (round.envelope s).notify.due ≤ round.now :=
    h
  rw [update, Recipient.nextNotify, if_pos hdue]
  change Recipient.notify (match (round.notify (round.envelope s))[s.inner + 1]? with
    | some next => _
    | none => _) = _
  cases (round.notify (round.envelope s))[s.inner + 1]? with
  | none | some next => rfl

theorem update_not_due (h : ¬round.Due s) : round.update s = s := by
  have hdue : ¬((round.envelope s).status.pending = true ∧
      (round.envelope s).notify.due ≤ round.now) := h
  rw [update, Recipient.nextNotify, if_neg hdue]
  rfl

theorem not_due_exhausted (h : s.due = u64Max) : ¬round.Due s := by
  rintro ⟨-, hdue⟩
  have hnow := round.inTime
  omega

end Round

def updates (s : Schedule) (rounds : List Round) : Schedule :=
  rounds.foldl (fun s round => round.update s) s

def dueRounds (s : Schedule) : List Round → Nat
  | [] => 0
  | round :: rounds => (if round.Due s then 1 else 0) + dueRounds (round.update s) rounds

theorem updates_exhausted (h : s.due = u64Max) (rounds : List Round) : updates s rounds = s := by
  induction rounds with
  | nil => rfl
  | cons round rounds ih =>
    rw [updates, foldl_cons, Round.update_not_due (Round.not_due_exhausted h)]
    exact ih

theorem updates_inner (s : Schedule) (rounds : List Round) :
    (updates s rounds).inner = s.inner + dueRounds s rounds ∨ (updates s rounds).due = u64Max := by
  induction rounds generalizing s with
  | nil => exact Or.inl rfl
  | cons round rounds ih =>
    have hcons : updates s (round :: rounds) = updates (round.update s) rounds := rfl
    rw [hcons, dueRounds]
    by_cases hdue : round.Due s
    · rw [if_pos hdue]
      have hupdate := Round.update_due hdue
      cases hnext : (round.notify (round.envelope s))[s.inner + 1]? with
      | none =>
        rw [hnext] at hupdate
        refine Or.inr ?_
        rw [updates_exhausted (by rw [hupdate]), hupdate]
      | some next =>
        rw [hnext] at hupdate
        rcases ih (round.update s) with hinner | hexhausted
        · left
          rw [hinner, hupdate]
          dsimp only
          omega
        · exact Or.inr hexhausted
    · rw [if_neg hdue, Round.update_not_due hdue, Nat.zero_add]
      exact ih s

theorem updates_due {rounds : List Round} (h : round.Due (updates s rounds)) :
    updates s (rounds ++ [round]) =
      match (round.notify (round.envelope (updates s rounds)))[s.inner + dueRounds s rounds + 1]? with
      | some next => ⟨round.now + next, s.inner + dueRounds s rounds + 1⟩
      | none => ⟨u64Max, s.inner + dueRounds s rounds⟩ := by
  have hinner : (updates s rounds).inner = s.inner + dueRounds s rounds := by
    rcases updates_inner s rounds with hinner | hexhausted
    · exact hinner
    · exact absurd h (Round.not_due_exhausted hexhausted)
  rw [updates, foldl_append]
  change round.update (updates s rounds) = _
  rw [Round.update_due h, hinner]

theorem sendDsn_delay {attempt : Attempt} {returnPath : String} {created first second : Nat}
    {rcpt : Recipient} (hclock : first ≤ second)
    (h : (rcpt.sendDsn attempt returnPath created first second).2 = some .delay) :
    rcpt.status.pending = true ∧ rcpt.notify.due ≤ second ∧
      (rcpt.sendDsn attempt returnPath created first second).1 =
        rcpt.nextNotify attempt.notify second := by
  unfold Recipient.sendDsn at h ⊢
  by_cases hpath : returnPath = ""
  · simp [hpath] at h
  · rw [if_pos hpath] at h ⊢
    unfold Recipient.buildDsn at h ⊢
    by_cases hsilent : rcpt.flags.silent = true
    · simp [hsilent] at h
    · rw [if_neg hsilent] at h ⊢
      cases hstatus : rcpt.status with
      | scheduled | temporaryFailure error =>
        rw [hstatus] at h
        dsimp only at h
        split at h
        · rename_i hdue
          exact ⟨rfl, Nat.le_trans hdue.1 hclock, rfl⟩
        · cases h
      | completed response | permanentFailure error =>
        rw [hstatus] at h
        dsimp only at h
        split at h <;> cases h

/-- When the notifications of a recipient are due: the first one, as a message is built, and the
next ones, call after call. -/
theorem recipient_schedules (server : Server) :
    (∀ session mailFrom rcptTo created clock idx rcpt,
      (server.buildMessage session mailFrom rcptTo created clock).recipients[idx]? = some rcpt →
      ∃ address ∈ rcptTo, ∃ queue, queue = server.queueFor
          { server.buildMessage session mailFrom rcptTo created clock with
            recipients := (server.buildMessage session mailFrom rcptTo created
              clock).recipients.take idx } address (clock idx 0) ∧
        (¬session.NotifyMode mailFrom.byReturn → rcpt.notify =
          ⟨clock idx 2 + (session.futureRelease + queue.notify.head?.getD 86400), 0⟩) ∧
        (session.NotifyMode mailFrom.byReturn → rcpt.notify =
          ⟨clock idx 2 + (session.futureRelease + (session.notifyAt queue).1),
            max queue.notify.length 1 - 1⟩)) ∧
    (∀ m rcpt clock, ∃ added, (server.addExpandedRecipient m rcpt clock).recipients =
      m.recipients ++ [added] ∧ added.notify.inner = 0) ∧
    (∀ s rounds round, round.Due (updates s rounds) →
      match (round.notify (round.envelope (updates s rounds)))[s.inner + dueRounds s rounds + 1]? with
      | some next =>
        updates s (rounds ++ [round]) = ⟨round.now + next, s.inner + dueRounds s rounds + 1⟩ ∧
        (0 < next → round.now < (updates s (rounds ++ [round])).due)
      | none => ∀ more, (updates s (rounds ++ round :: more)).due = u64Max ∧
          dueRounds (updates s (rounds ++ [round])) more = 0) ∧
    (∀ s rounds round, ¬round.Due (updates s rounds) →
      updates s (rounds ++ [round]) = updates s rounds) ∧
    (∀ (attempt : Attempt) (returnPath : String) (created first second : Nat) (rcpt : Recipient),
      first ≤ second →
      (rcpt.sendDsn attempt returnPath created first second).2 = some .delay →
      rcpt.status.pending = true ∧ rcpt.notify.due ≤ second ∧
        (rcpt.sendDsn attempt returnPath created first second).1 =
          rcpt.nextNotify attempt.notify second) := by
  refine ⟨?_, ?_, ?_, ?_, fun _ _ _ _ _ _ => sendDsn_delay⟩
  · intro session mailFrom rcptTo created clock idx rcpt h
    obtain ⟨address, haddress, hrcpt⟩ :=
      buildMessage_rcpt server session mailFrom rcptTo created clock h
    refine ⟨address, haddress, _, rfl, fun hmode => ?_, fun hmode => ?_⟩
    · rw [hrcpt]
      exact notifyExpires_first _ _ hmode
    · rw [hrcpt]
      exact notifyExpires_notifyMode _ _ hmode
  · intro m rcpt clock
    obtain ⟨added, hadded, hinner, -⟩ := addExpandedRecipient_due server m rcpt clock
    exact ⟨added, hadded, hinner⟩
  · intro s rounds round hdue
    have hround := updates_due hdue
    split
    · rename_i next hnext
      rw [hnext] at hround
      refine ⟨hround, fun hpositive => ?_⟩
      rw [hround]
      dsimp only
      omega
    · rename_i hnone
      rw [hnone] at hround
      intro more
      have hlast : (updates s (rounds ++ [round])).due = u64Max := by rw [hround]
      constructor
      · have hsplit : updates s (rounds ++ round :: more) =
            updates (updates s (rounds ++ [round])) more := by
          simp [updates]
        rw [hsplit, updates_exhausted hlast, hlast]
      · induction more with
        | nil => rfl
        | cons next more ih =>
          have hnot : ¬next.Due (updates s (rounds ++ [round])) := Round.not_due_exhausted hlast
          simp [dueRounds, hnot, Round.update_not_due hnot, ih]
  · intro s rounds round hdue
    rw [updates, foldl_append]
    exact Round.update_not_due hdue

/-- A client that asks to be notified after an hour is notified then, not after a day. -/
theorem notifyMode_not_first :
    let queue : QueueConfig := ⟨⟨[120], .ttl 432000, "default"⟩, [86400, 259200]⟩
    let server : Server := ⟨id, fun _ _ => queue⟩
    let flags : RcptFlags := ⟨false, false, false, false, false⟩
    let built := server.buildMessage ⟨0, 3600, 0⟩ ⟨"a@x", "a@x", "x", flags, false, none⟩
      [⟨"b@y", "b@y", "y", flags, false, none⟩] 1000 (fun _ _ => 1000)
    ¬∀ rcpt ∈ built.recipients,
      rcpt.notify.due = 1000 + (0 + queue.notify.head?.getD 86400) := by
  simp [Server.buildMessage, Server.buildRecipients, Server.buildRecipient, Server.queueFor,
    SessionData.notifyExpires, SessionData.notifyAt, Schedule.later, asU64, Message.push]

end Bearmail.Queue
