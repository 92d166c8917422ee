import Bearmail.Queue.Spool
import Bearmail.Lib.Runs
import Mathlib.Data.List.Count
import Mathlib.Data.List.Nodup
import Mathlib.Data.List.Perm.Basic

/-!
# The queue manager

`Queue::start` and `handle_event` of `smtp/src/queue/manager.rs`, and `next_event` of
`smtp/src/queue/spool.rs`: the manager looks for due events, locks each message and queue in a
table of its own, and starts workers as far as the limits of the queues allow. A worker reports
once when it is done.

The manager may refresh at any time; what makes it do so is left out. The events of the store are
given with each refresh. Paused queues do not refresh.
-/

namespace Bearmail.Queue

open List Option Function

abbrev LockKey := QueueId × QueueName

structure QueueStats where
  inFlight : Int
  maxInFlight : Nat
  deriving DecidableEq

def QueueStats.new (maxInFlight : Nat) : QueueStats := ⟨0, maxInFlight⟩

def QueueStats.hasCapacity (stats : QueueStats) : Bool := decide (stats.inFlight < stats.maxInFlight)

structure LockedMessage where
  expires : Nat
  revision : Nat
  deriving DecidableEq

def infiniteLock : Nat := 60 * 60 * 24 * 365

def lockExpiry : Nat := 10 * 60

def Event.key (event : Event) : LockKey := (event.queueId, event.queueName)

structure Manager where
  locked : LockKey → Option LockedMessage
  lockedRevision : Nat
  stats : QueueName → Option QueueStats
  /-- the workers that have been started and have not reported -/
  outstanding : List LockKey

def Manager.new : Manager := ⟨fun _ => none, 0, fun _ => none, []⟩

inductive QueueEventStatus where
  | completed
  | locked
  | deferred
  deriving DecidableEq

inductive ManagerLabel where
  /-- the time of `next_event`, the time after it, the events in the order of their keys, and
  the order of dispatch -/
  | refresh (now later : Nat) (events order : List Event)
  | workerDone (queueId : QueueId) (queueName : QueueName) (status : QueueEventStatus) (now jitter : Nat)
  | reloadSettings (virtualQueues : List (QueueName × Nat))

namespace Manager

def setLock (q : Manager) (key : LockKey) (lock : Option LockedMessage) : Manager :=
  { q with locked := Function.update q.locked key lock }

def setStats (q : Manager) (queueName : QueueName) (stats : QueueStats) : Manager :=
  { q with stats := Function.update q.stats queueName (some stats) }

/-- What `next_event` does with a due event, and whether it is to be dispatched. -/
def lockEvent (q : Manager) (now : Nat) (event : Event) : Manager × Bool :=
  let capacity :=
    match q.stats event.queueName with
    | some stats => stats.hasCapacity
    | none => true
  let acquired := q.setLock event.key (some ⟨now + infiniteLock, q.lockedRevision⟩)
  if capacity then
    match q.locked event.key with
    | some lock =>
      if lock.expires ≤ now then (acquired, true)
      else (q.setLock event.key (some ⟨lock.expires, q.lockedRevision⟩), false)
    | none => (acquired, true)
  else (q, false)

def lockEvents (now : Nat) : Manager → List Event → Manager × List Event
  | q, [] => (q, [])
  | q, event :: events =>
    let first := q.lockEvent now event
    let rest := lockEvents now first.1 events
    (rest.1, if first.2 then event :: rest.2 else rest.2)

/-- The events that are due; the iteration stops at the first that is not. -/
def dueEvents (now : Nat) (events : List Event) : List Event :=
  events.takeWhile fun event => decide (event.due ≤ now)

def nextEvent (q : Manager) (now : Nat) (events : List Event) : Manager × List Event :=
  lockEvents now { q with lockedRevision := q.lockedRevision + 1 } (dueEvents now events)

def dispatch (threads : QueueName → Nat) (q : Manager) (event : Event) : Manager :=
  let stats := (q.stats event.queueName).getD (QueueStats.new (threads event.queueName))
  if stats.hasCapacity then
    { q.setStats event.queueName ⟨stats.inFlight + 1, stats.maxInFlight⟩ with
      outstanding := event.key :: q.outstanding }
  else (q.setStats event.queueName stats).setLock event.key none

/-- Remove expired locks, and those that have not been looked at. -/
def retainLocks (q : Manager) (now : Nat) : Manager :=
  { q with locked := fun key => (q.locked key).filter fun lock =>
      decide (now < lock.expires) && decide (lock.revision = q.lockedRevision) }

/-- The part of `start` that delivers scheduled messages. -/
def refresh (threads : QueueName → Nat) (q : Manager) (now later : Nat) (events order : List Event) :
    Option Manager :=
  let found := q.nextEvent now events
  if order.isPerm found.2 then
    some ((order.foldl (dispatch threads) found.1).retainLocks later)
  else none

def workerDone (q : Manager) (key : LockKey) (status : QueueEventStatus) (now jitter : Nat) :
    Option Manager :=
  (q.stats key.2).map fun stats =>
    let done := { q.setStats key.2 ⟨stats.inFlight - 1, stats.maxInFlight⟩ with
      outstanding := q.outstanding.erase key }
    match status with
    | .completed => done.setLock key none
    | .locked => done.setLock key (some ⟨now + (lockExpiry + jitter), q.lockedRevision⟩)
    | .deferred => done.setLock key none

def reloadSettings (q : Manager) (virtualQueues : List (QueueName × Nat)) : Manager :=
  { q with stats := virtualQueues.foldl (fun stats queue =>
      Function.update stats queue.1 (some
        (match stats queue.1 with
        | some old => { old with maxInFlight := queue.2 }
        | none => QueueStats.new queue.2))) q.stats }

/-- One turn; a report comes from a worker that was started. -/
def step (threads : QueueName → Nat) (q : Manager) : ManagerLabel → Option Manager
  | .refresh now later events order => q.refresh threads now later events order
  | .workerDone queueId queueName status now jitter =>
    if (queueId, queueName) ∈ q.outstanding then
      q.workerDone (queueId, queueName) status now jitter
    else none
  | .reloadSettings virtualQueues => some (q.reloadSettings virtualQueues)

end Manager

/-! ## Counters -/

variable {q' : Manager} {threads : QueueName → Nat} {order : List Event} {key : LockKey}
  {status : QueueEventStatus}

section Counters

variable {q : Manager}

def Manager.workersOf (q : Manager) (queueName : QueueName) : Nat :=
  q.outstanding.countP fun key => decide (key.2 = queueName)

/-- The counter of a queue is the number of its workers, within the limit. -/
def CountedAt (q : Manager) (queueName : QueueName) : Prop :=
  match q.stats queueName with
  | none => q.workersOf queueName = 0
  | some stats => stats.inFlight = q.workersOf queueName ∧ stats.inFlight ≤ stats.maxInFlight

def Counted (q : Manager) : Prop := ∀ queueName, CountedAt q queueName

theorem CountedAt.congr {queueName : QueueName} (h : CountedAt q queueName)
    (hstats : q'.stats queueName = q.stats queueName)
    (hworkers : q'.workersOf queueName = q.workersOf queueName) : CountedAt q' queueName := by
  rw [CountedAt, hstats, hworkers]
  exact h

def Manager.SameWork (q q' : Manager) : Prop :=
  q'.stats = q.stats ∧ q'.outstanding = q.outstanding

theorem Counted.congr (h : Counted q) (hsame : q.SameWork q') : Counted q' := by
  intro queueName
  refine (h queueName).congr (by rw [hsame.1]) ?_
  rw [Manager.workersOf, hsame.2, Manager.workersOf]

/-- What becomes of a due event: its queue is full, its lock is taken, or its lock is held. -/
theorem lockEvent_cases (q : Manager) (now : Nat) (event : Event) :
    ((∃ stats, q.stats event.queueName = some stats ∧ stats.hasCapacity = false) ∧
      q.lockEvent now event = (q, false)) ∨
    ((∀ lock, q.locked event.key = some lock → lock.expires ≤ now) ∧ q.lockEvent now event =
        (q.setLock event.key (some ⟨now + infiniteLock, q.lockedRevision⟩), true)) ∨
    ∃ lock, q.locked event.key = some lock ∧ now < lock.expires ∧ q.lockEvent now event =
        (q.setLock event.key (some ⟨lock.expires, q.lockedRevision⟩), false) := by
  by_cases hfull : ∃ stats, q.stats event.queueName = some stats ∧ stats.hasCapacity = false
  · obtain ⟨stats, hstats, hcapacity⟩ := hfull
    exact Or.inl ⟨⟨stats, hstats, hcapacity⟩, by simp [Manager.lockEvent, hstats, hcapacity]⟩
  have hcapacity : (match q.stats event.queueName with
      | some stats => stats.hasCapacity
      | none => true) = true := by
    cases hstats : q.stats event.queueName with
    | none => rfl
    | some stats => exact Bool.of_not_eq_false fun hno => hfull ⟨stats, hstats, hno⟩
  right
  cases hlock : q.locked event.key with
  | none => exact Or.inl ⟨fun lock h => (by cases h), by simp [Manager.lockEvent, hcapacity, hlock]⟩
  | some lock =>
    by_cases hexpired : lock.expires ≤ now
    · left
      refine ⟨fun lock' h => ?_, by simp [Manager.lockEvent, hcapacity, hlock, hexpired]⟩
      cases h
      exact hexpired
    · right
      exact ⟨lock, rfl, by omega, by simp [Manager.lockEvent, hcapacity, hlock, hexpired]⟩

theorem lockEvent_same (q : Manager) (now : Nat) (event : Event) : q.SameWork (q.lockEvent now event).1 ∧
      (q.lockEvent now event).1.lockedRevision = q.lockedRevision := by
  rcases lockEvent_cases q now event with ⟨-, heq⟩ | ⟨-, heq⟩ | ⟨lock, -, -, heq⟩
  all_goals
    rw [heq]
    exact ⟨⟨rfl, rfl⟩, rfl⟩

theorem lockEvents_same (now : Nat) (q : Manager) (events : List Event) :
    q.SameWork (q.lockEvents now events).1 ∧
      (q.lockEvents now events).1.lockedRevision = q.lockedRevision := by
  induction events generalizing q with
  | nil => exact ⟨⟨rfl, rfl⟩, rfl⟩
  | cons event events ih =>
    have hfirst := lockEvent_same q now event
    have hrest := ih (q.lockEvent now event).1
    exact ⟨⟨hrest.1.1.trans hfirst.1.1, hrest.1.2.trans hfirst.1.2⟩, hrest.2.trans hfirst.2⟩

theorem counted_dispatch (threads : QueueName → Nat) (h : Counted q) (event : Event) :
    Counted (q.dispatch threads event) := by
  have hstats : ((q.stats event.queueName).getD
      (QueueStats.new (threads event.queueName))).inFlight = q.workersOf event.queueName ∧
      ((q.stats event.queueName).getD (QueueStats.new (threads event.queueName))).inFlight ≤
        ((q.stats event.queueName).getD (QueueStats.new (threads event.queueName))).maxInFlight := by
    have hname := h event.queueName
    unfold CountedAt at hname
    cases heq : q.stats event.queueName with
    | none =>
      rw [heq] at hname
      rw [hname]
      exact ⟨rfl, Int.natCast_nonneg _⟩
    | some stats =>
      rw [heq] at hname
      exact hname
  intro queueName
  unfold Manager.dispatch
  dsimp only
  generalize (q.stats event.queueName).getD (QueueStats.new (threads event.queueName)) = stats
    at hstats ⊢
  by_cases hname : queueName = event.queueName
  · subst hname
    by_cases hcapacity : stats.hasCapacity = true
    · rw [if_pos hcapacity, CountedAt]
      have hlt := of_decide_eq_true hcapacity
      simp only [Manager.setStats, update_self, Manager.workersOf, countP_cons,
        Event.key, decide_true, if_true]
      rw [Manager.workersOf] at hstats
      omega
    · rw [if_neg hcapacity, CountedAt]
      simp only [Manager.setStats, Manager.setLock, update_self]
      exact hstats
  · split
    · refine (h queueName).congr (update_of_ne hname _ _) ?_
      simp [Manager.workersOf, Event.key, Ne.symm hname]
    · exact (h queueName).congr (update_of_ne hname _ _) rfl

theorem counted_refresh {now later : Nat} {events : List Event} (h : Counted q)
    (hrefresh : q.refresh threads now later events order = some q') : Counted q' := by
  unfold Manager.refresh at hrefresh
  dsimp only at hrefresh
  split at hrefresh
  · cases hrefresh
    have hfound : Counted (q.nextEvent now events).1 :=
      Counted.congr (q := { q with lockedRevision := q.lockedRevision + 1 }) h
        (lockEvents_same now _ _).1
    have hfold : ∀ (order : List Event) (q : Manager), Counted q →
        Counted (order.foldl (Manager.dispatch threads) q) := by
      intro order
      induction order with
      | nil => exact fun q h => h
      | cons event order ih => exact fun q h => ih _ (counted_dispatch threads h event)
    exact Counted.congr (hfold order _ hfound) ⟨rfl, rfl⟩
  · cases hrefresh

theorem workerDone_eq {now jitter : Nat} (h : q.workerDone key status now jitter = some q') :
    ∃ stats lock, q.stats key.2 = some stats ∧ q' =
      { q.setStats key.2 ⟨stats.inFlight - 1, stats.maxInFlight⟩ with
        outstanding := q.outstanding.erase key
        locked := Function.update q.locked key lock } := by
  obtain ⟨stats, hstats, heq⟩ := map_eq_some_iff.mp h
  cases status with
  | completed | locked | deferred => exact ⟨stats, _, hstats, heq.symm⟩

theorem counted_workerDone {now jitter : Nat} (h : Counted q) (hmem : key ∈ q.outstanding)
    (hdone : q.workerDone key status now jitter = some q') : Counted q' := by
  obtain ⟨stats, lock, hstats, rfl⟩ := workerDone_eq hdone
  intro queueName
  by_cases hname : queueName = key.2
  · subst hname
    have hold := h key.2
    rw [CountedAt, hstats] at hold
    have hcount := countP_erase (fun k : LockKey => decide (k.2 = key.2)) q.outstanding key
    have hpos : 0 < q.workersOf key.2 :=
      countP_pos_iff.mpr ⟨key, hmem, decide_eq_true rfl⟩
    rw [if_pos ⟨hmem, decide_eq_true rfl⟩] at hcount
    rw [Manager.workersOf] at hold hpos
    simp only [CountedAt, Manager.setStats, update_self, Manager.workersOf, hcount]
    omega
  · refine (h queueName).congr (update_of_ne hname _ _) ?_
    have hcount := countP_erase (fun k : LockKey => decide (k.2 = queueName)) q.outstanding key
    rw [if_neg (by simp [Ne.symm hname])] at hcount
    exact hcount

end Counters

/-! ## Locks -/

section Locks

variable {q : Manager} {now : Nat}

def Manager.Held (q : Manager) (now : Nat) (key : LockKey) : Prop :=
  ∃ lock, q.locked key = some lock ∧ now < lock.expires

def Manager.HeldUntil (q : Manager) (until_ : Nat) (key : LockKey) : Prop :=
  ∃ lock, q.locked key = some lock ∧ until_ ≤ lock.expires ∧ lock.revision = q.lockedRevision

theorem setLock_self (q : Manager) (key : LockKey) (lock : Option LockedMessage) :
    (q.setLock key lock).locked key = lock :=
  update_self _ _ _

theorem setLock_other (q : Manager) {key' : LockKey} (hne : key' ≠ key)
    (lock : Option LockedMessage) : (q.setLock key lock).locked key' = q.locked key' :=
  update_of_ne hne _ _

def Manager.Examines (q : Manager) (events : List Event) (key : LockKey) : Prop :=
  (∀ stats, q.stats key.2 = some stats → stats.hasCapacity = true) ∧ ∃ event ∈ events, event.key = key

/-- What the loop over due events does to the locks that are held, and which it takes. -/
structure LocksAfter (now : Nat) (q q' : Manager) (events found : List Event) : Prop where
  kept : ∀ key lock, q.locked key = some lock → now < lock.expires →
    ∃ revision, q'.locked key = some ⟨lock.expires, revision⟩ ∧
      (lock.revision = q.lockedRevision ∨ q.Examines events key → revision = q.lockedRevision)
  nodup : (found.map Event.key).Nodup
  taken : ∀ event ∈ found, ¬ q.Held now event.key ∧
    q'.locked event.key = some ⟨now + infiniteLock, q.lockedRevision⟩

theorem lockEvents_locks (now : Nat) (q : Manager) (events : List Event) :
    LocksAfter now q (q.lockEvents now events).1 events (q.lockEvents now events).2 := by
  have hpos : 0 < infiniteLock := by decide
  induction events generalizing q with
  | nil =>
    refine ⟨fun key lock hlock _ => ⟨lock.revision, hlock, ?_⟩, nodup_nil, fun event h => by cases h⟩
    rintro (h | ⟨-, event, hmem, -⟩)
    · exact h
    · cases hmem
  | cons event events ih =>
    obtain ⟨hkept, hnodup, htaken⟩ := ih (q.lockEvent now event).1
    -- behind the first event only other keys can still be found
    have hlater : ∀ {key : LockKey}, key ≠ event.key → q.Examines (event :: events) key →
        (∀ stats, q.stats key.2 = some stats → stats.hasCapacity = true) ∧
          ∃ event ∈ events, event.key = key := by
      rintro key hne ⟨hcapacity, event', hmem, hkey⟩
      rcases mem_cons.mp hmem with rfl | hmem
      · exact absurd hkey.symm hne
      · exact ⟨hcapacity, event', hmem, hkey⟩
    simp only [Manager.lockEvents]
    rcases lockEvent_cases q now event with
      ⟨⟨stats, hstats, hfull⟩, heq⟩ | ⟨hfree, heq⟩ | ⟨held, hheld, hlive, heq⟩
    · -- the queue is full
      rw [heq] at hkept hnodup htaken ⊢
      refine ⟨fun key lock hlock hlt => ?_, hnodup, htaken⟩
      obtain ⟨revision, hlock', hrevision⟩ := hkept key lock hlock hlt
      refine ⟨revision, hlock', fun h => hrevision (h.imp_right fun hexamines => ?_)⟩
      refine hlater (fun hkey => ?_) hexamines
      subst hkey
      rw [hexamines.1 stats hstats] at hfull
      cases hfull
    · -- the lock is taken
      rw [heq] at hkept hnodup htaken ⊢
      have htook := hkept event.key _ (setLock_self _ _ _) (by simpa using hpos)
      obtain ⟨revision, hlock, hrevision⟩ := htook
      rw [hrevision (Or.inl rfl)] at hlock
      have hother : ∀ {key : LockKey}, q.Held now key → key ≠ event.key := by
        rintro key ⟨lock, hlock, hlt⟩ rfl
        have := hfree lock hlock
        omega
      have hrest : ∀ event' ∈ ((q.setLock event.key
          (some ⟨now + infiniteLock, q.lockedRevision⟩)).lockEvents now events).2,
          event'.key ≠ event.key := by
        intro event' hmem hkey
        refine (htaken event' hmem).1 ?_
        rw [hkey]
        exact ⟨_, setLock_self _ _ _, by simpa using hpos⟩
      refine ⟨fun key lock hlock' hlt => ?_, ?_, fun event' hmem => ?_⟩
      · have hne := hother ⟨lock, hlock', hlt⟩
        obtain ⟨revision', hlock'', hrevision'⟩ :=
          hkept key lock ((setLock_other _ hne _).trans hlock') hlt
        exact ⟨revision', hlock'', fun h => hrevision' (h.imp_right (hlater hne))⟩
      · rw [if_pos rfl, map_cons, nodup_cons]
        refine ⟨fun hmem => ?_, hnodup⟩
        obtain ⟨event', hmem, hkey⟩ := List.mem_map.mp hmem
        exact hrest event' hmem hkey
      · rw [if_pos rfl] at hmem
        rcases mem_cons.mp hmem with rfl | hmem
        · exact ⟨fun hheld => hother hheld rfl, hlock⟩
        · refine ⟨fun hheld => (htaken event' hmem).1 ?_, (htaken event' hmem).2⟩
          obtain ⟨lock, hlock', hlt⟩ := hheld
          exact ⟨lock, (setLock_other _ (hrest event' hmem) _).trans hlock', hlt⟩
    · -- somebody holds the lock
      rw [heq] at hkept hnodup htaken ⊢
      refine ⟨fun key lock hlock hlt => ?_, hnodup, fun event' hmem => ?_⟩
      · by_cases hkey : key = event.key
        · subst hkey
          cases hheld.symm.trans hlock
          obtain ⟨revision, hlock', hrevision⟩ := hkept event.key _ (setLock_self _ _ _) hlive
          exact ⟨revision, hlock', fun _ => hrevision (Or.inl rfl)⟩
        · obtain ⟨revision, hlock', hrevision⟩ :=
            hkept key lock ((setLock_other _ hkey _).trans hlock) hlt
          exact ⟨revision, hlock', fun h => hrevision (h.imp_right (hlater hkey))⟩
      · obtain ⟨hfree, hlock⟩ := htaken event' hmem
        refine ⟨fun hheld' => hfree ?_, hlock⟩
        by_cases hkey : event'.key = event.key
        · rw [hkey]
          exact ⟨_, setLock_self _ _ _, hlive⟩
        · obtain ⟨lock, hlock', hlt⟩ := hheld'
          exact ⟨lock, (setLock_other _ hkey _).trans hlock', hlt⟩

/-- The keys have one worker or one event each, and their locks outlast the next clean-up. -/
def Guarded (expires : Nat) (q : Manager) (order : List Event) : Prop :=
  (order.map Event.key ++ q.outstanding).Nodup ∧
    ∀ key ∈ order.map Event.key ++ q.outstanding, q.HeldUntil expires key

variable {expires : Nat}

theorem guarded_dispatch (threads : QueueName → Nat) {event : Event}
    (h : Guarded expires q (event :: order)) :
    Guarded expires (q.dispatch threads event) order := by
  obtain ⟨hnodup, hheld⟩ := h
  have hperm : (order.map Event.key ++ event.key :: q.outstanding).Perm
      (event.key :: (order.map Event.key ++ q.outstanding)) :=
    perm_middle
  unfold Manager.dispatch
  dsimp only
  split
  · exact ⟨hperm.nodup_iff.mpr hnodup, fun key hmem => hheld key (hperm.mem_iff.mp hmem)⟩
  · refine ⟨hnodup.of_cons, fun key hmem => ?_⟩
    have hne : key ≠ event.key := by
      rintro rfl
      exact (nodup_cons.mp hnodup).1 hmem
    obtain ⟨lock, hlock, hrest⟩ := hheld key (mem_cons_of_mem _ hmem)
    exact ⟨lock, (setLock_other _ hne _).trans hlock, hrest⟩

theorem guarded_foldl (threads : QueueName → Nat) (h : Guarded expires q order) :
    Guarded expires (order.foldl (Manager.dispatch threads) q) [] := by
  induction order generalizing q with
  | nil => exact h
  | cons event order ih => exact ih (guarded_dispatch threads h)

theorem guarded_refresh {origin later : Nat} {events : List Event}
    (h : Guarded (origin + infiniteLock) q []) (hnow : origin ≤ now) (hlater : now ≤ later)
    (hend : later < origin + infiniteLock)
    (hexamined : ∀ key ∈ q.outstanding, q.Examines (Manager.dueEvents now events) key)
    (hrefresh : q.refresh threads now later events order = some q') :
    Guarded (origin + infiniteLock) q' [] := by
  unfold Manager.refresh at hrefresh
  dsimp only at hrefresh
  split at hrefresh
  case isFalse => cases hrefresh
  case isTrue hperm =>
    cases hrefresh
    have hperm := (isPerm_iff.mp hperm).map Event.key
    obtain ⟨hnodup, hheld⟩ := h
    obtain ⟨hkept, hfound, htaken⟩ := lockEvents_locks now
      { q with lockedRevision := q.lockedRevision + 1 } (Manager.dueEvents now events)
    have hsame := lockEvents_same now { q with lockedRevision := q.lockedRevision + 1 }
      (Manager.dueEvents now events)
    have hready : Guarded (origin + infiniteLock) (q.nextEvent now events).1 order := by
      have hworkers : (q.nextEvent now events).1.outstanding = q.outstanding := hsame.1.2
      refine ⟨?_, fun key hmem => ?_⟩
      · rw [hworkers]
        refine List.Nodup.append (hperm.nodup_iff.mpr hfound) hnodup fun key horder hworker => ?_
        obtain ⟨event, hmem, rfl⟩ := List.mem_map.mp (hperm.mem_iff.mp horder)
        obtain ⟨lock, hlock, hlong, -⟩ := hheld event.key hworker
        exact (htaken event hmem).1 ⟨lock, hlock, by omega⟩
      · rcases mem_append.mp hmem with horder | hworker
        · obtain ⟨event, hevent, rfl⟩ := List.mem_map.mp (hperm.mem_iff.mp horder)
          exact ⟨_, (htaken event hevent).2, by simpa using hnow, hsame.2.symm⟩
        · rw [hworkers] at hworker
          obtain ⟨lock, hlock, hlong, -⟩ := hheld key hworker
          obtain ⟨revision, hlock', hrevision⟩ := hkept key lock hlock (by omega)
          exact ⟨_, hlock', hlong, (hrevision (Or.inr (hexamined key hworker))).trans hsame.2.symm⟩
    obtain ⟨hnodup', hheld'⟩ := guarded_foldl threads hready
    refine ⟨hnodup', fun key hmem => ?_⟩
    obtain ⟨lock, hlock, hlong, hrevision⟩ := hheld' key hmem
    refine ⟨lock, ?_, hlong, hrevision⟩
    rw [Manager.retainLocks]
    dsimp only
    rw [hlock]
    simpa using ⟨by omega, hrevision⟩

theorem guarded_workerDone {jitter : Nat} (h : Guarded expires q [])
    (hdone : q.workerDone key status now jitter = some q') : Guarded expires q' [] := by
  obtain ⟨stats, lock, -, rfl⟩ := workerDone_eq hdone
  obtain ⟨hnodup, hheld⟩ := h
  refine ⟨hnodup.erase key, fun key' hmem => ?_⟩
  obtain ⟨hne, hmem⟩ := hnodup.mem_erase_iff.mp hmem
  obtain ⟨lock', hlock, hrest⟩ := hheld key' hmem
  exact ⟨lock', (update_of_ne hne _ _).trans hlock, hrest⟩

end Locks

/-! ## Runs -/

/-- The clock stays within the time of one lock, and the settings are not reloaded. -/
def ManagerLabel.Timely (origin : Nat) : ManagerLabel → Prop
  | .refresh now later _ _ => origin ≤ now ∧ now ≤ later ∧ later < origin + infiniteLock
  | .workerDone _ _ _ _ _ => True
  | .reloadSettings _ => False

/-- A refresh looks at the lock of every worker: its queue is not full and its event is due. -/
def Attended (q : Manager) : ManagerLabel → Prop
  | .refresh now _ events _ =>
    ∀ key ∈ q.outstanding, q.Examines (Manager.dueEvents now events) key
  | .workerDone _ _ _ _ _ => True
  | .reloadSettings _ => True

theorem counted_step {origin : Nat} {q : Manager} {label : ManagerLabel} (h : Counted q)
    (htimely : label.Timely origin) (hstep : q.step threads label = some q') : Counted q' := by
  cases label with
  | refresh now later events order => exact counted_refresh h hstep
  | workerDone queueId queueName status now jitter =>
    simp only [Manager.step] at hstep
    split at hstep
    · exact counted_workerDone h ‹_› hstep
    · cases hstep
  | reloadSettings virtualQueues => cases htimely

theorem guarded_step {origin : Nat} {q : Manager} {label : ManagerLabel}
    (h : Guarded (origin + infiniteLock) q []) (hcond : label.Timely origin ∧ Attended q label)
    (hstep : q.step threads label = some q') : Guarded (origin + infiniteLock) q' [] := by
  obtain ⟨htimely, hattended⟩ := hcond
  cases label with
  | refresh now later events order =>
    obtain ⟨hnow, hlater, hend⟩ := htimely
    exact guarded_refresh h hnow hlater hend hattended hstep
  | workerDone queueId queueName status now jitter =>
    simp only [Manager.step] at hstep
    split at hstep
    · exact guarded_workerDone h hstep
    · cases hstep
  | reloadSettings virtualQueues => cases htimely

theorem Counted.positive {q : Manager} (h : Counted q) (hmem : key ∈ q.outstanding) :
    ∃ stats, q.stats key.2 = some stats ∧ 0 < stats.inFlight := by
  have hname := h key.2
  have hpos : 0 < q.workersOf key.2 := countP_pos_iff.mpr ⟨key, hmem, decide_eq_true rfl⟩
  unfold CountedAt at hname
  cases heq : q.stats key.2 with
  | none =>
    rw [heq] at hname
    omega
  | some stats =>
    rw [heq] at hname
    exact ⟨stats, rfl, by omega⟩

/-- In every run the counters are right, and every report finds one to take from; and where each
refresh looks at the lock of every worker, no message and queue has two. -/
theorem dispatch_sound (threads : QueueName → Nat) (origin : Nat) (labels : List ManagerLabel)
    (htimely : ∀ label ∈ labels, label.Timely origin) (q : Manager)
    (hrun : Runs.run (Manager.step threads) Manager.new labels = some q) :
    Counted q ∧
      (∀ key ∈ q.outstanding, ∃ stats, q.stats key.2 = some stats ∧ 0 < stats.inFlight) ∧
      (Runs.Along (Manager.step threads) Attended Manager.new labels → q.outstanding.Nodup) := by
  have halong : Runs.Along (Manager.step threads) (fun _ label => label.Timely origin) Manager.new
      labels :=
    Runs.along_of_forall htimely Manager.new
  have hcounted : Counted q :=
    Runs.run_invariant Counted (fun _ _ _ h hcond hstep => counted_step h hcond hstep) halong
      (fun _ => rfl) hrun
  refine ⟨hcounted, fun key hmem => hcounted.positive hmem, fun hattended => ?_⟩
  have hguarded : Guarded (origin + infiniteLock) q [] :=
    Runs.run_invariant (fun q => Guarded (origin + infiniteLock) q [])
      (fun _ _ _ h hcond hstep => guarded_step h hcond hstep) (halong.and hattended)
      ⟨nodup_nil, fun _ h => by cases h⟩ hrun
  exact hguarded.1

def localEvent (id : QueueId) : Event := ⟨0, id, "local"⟩

/-- Three messages for a queue with two threads, the third when the first is done. -/
def attendedRun : List ManagerLabel :=
  [.refresh 10 10 [localEvent 1] [localEvent 1],
    .refresh 20 20 [localEvent 1, localEvent 2] [localEvent 2],
    .workerDone 1 "local" .completed 30 0,
    .refresh 40 40 [localEvent 2, localEvent 3] [localEvent 3]]

theorem dispatch_sound_attendedRun :
    (∀ label ∈ attendedRun, label.Timely 0) ∧
      Runs.Along (Manager.step fun _ => 2) Attended Manager.new attendedRun ∧
      ∃ q, Runs.run (Manager.step fun _ => 2) Manager.new attendedRun = some q ∧
        q.outstanding.length = 2 ∧ Counted q ∧ q.outstanding.Nodup := by
  have htimely : ∀ label ∈ attendedRun, label.Timely 0 := by
    simp [attendedRun, ManagerLabel.Timely, infiniteLock]
  have hattended : Runs.Along (Manager.step fun _ => 2) Attended Manager.new attendedRun := by
    refine ⟨fun key h => ?_, fun q₁ h₁ => ⟨fun key h => ?_, fun q₂ h₂ => ⟨trivial, fun q₃ h₃ =>
      ⟨fun key h => ?_, fun _ _ => trivial⟩⟩⟩⟩
    · cases h
    · cases h₁
      have hkey : key = (localEvent 1).key := mem_singleton.mp h
      subst hkey
      refine ⟨fun stats hstats => ?_, localEvent 1, by decide, rfl⟩
      cases hstats
      decide
    · cases h₁
      cases h₂
      cases h₃
      have hkey : key = (localEvent 2).key := mem_singleton.mp h
      subst hkey
      refine ⟨fun stats hstats => ?_, localEvent 2, by decide, rfl⟩
      cases hstats
      decide
  have hlength : ((Runs.run (Manager.step fun _ => 2) Manager.new attendedRun).map fun q =>
      q.outstanding.length) = some 2 := by
    decide
  obtain ⟨q, hrun, hlength⟩ := map_eq_some_iff.mp hlength
  have hsound := dispatch_sound (fun _ => 2) 0 attendedRun htimely q hrun
  exact ⟨htimely, hattended, q, hrun, hlength, hsound.1, hsound.2.2 hattended⟩

/-- A queue with two threads is full when the manager refreshes: it looks at no lock of the queue
and forgets them all. When one worker is done the message of the other gets a second worker. -/
theorem dispatched_twice :
    ((Runs.run (Manager.step fun _ => 2) Manager.new
      [.refresh 10 10 [localEvent 1, localEvent 2] [localEvent 1, localEvent 2],
        .refresh 20 20 [localEvent 1, localEvent 2] [],
        .workerDone 2 "local" .completed 30 0,
        .refresh 40 40 [localEvent 1] [localEvent 1]]).map fun q => q.outstanding) =
      some [(1, "local"), (1, "local")] := by
  decide

end Bearmail.Queue
