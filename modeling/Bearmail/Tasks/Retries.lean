import Mathlib.Algebra.Group.Nat.Defs
import Bearmail.Lib.Runs
import Bearmail.Tasks.Queue

/-!
# Failures of one task

What the failures of a task make of it, one after another. Other tasks may be recorded in the same batches.
-/

namespace Bearmail.Tasks

open List Option Function

variable {D : Type} {objectType : D → UInt16} {manager : TaskManager} {id : UInt64}

/-! ## Frames -/

def SameAt (id : UInt64) (store store' : Store D) : Prop := ∀ key, key.id = id → store' key = store key

variable {store store' : Store D} {turn : Turn D} {ops : List (Op D)} {task : Task D}
  {typ : TaskFailureType} {maxAttempts : Option UInt64} {turns : List (Turn D)}

theorem SameAt.trans {store'' : Store D} (h : SameAt id store store')
    (h' : SameAt id store' store'') : SameAt id store store'' :=
  fun key hkey => (h' key hkey).trans (h key hkey)

/-- A turn that does not name any key of a task. -/
def Turn.Spares (turn : Turn D) (id : UInt64) : Prop :=
  turn.info.id ≠ id ∧
    match turn.result with
    | .success tasks => ∀ scheduled ∈ tasks, scheduled.1 ≠ id
    | .update first second => first.key.id ≠ id ∧ second.key.id ≠ id
    | _ => True

theorem key_ne_of_spares (h : turn.Spares id) : ∀ op ∈ turn.ops objectType manager, op.key.id ≠ id := by
  obtain ⟨hid, hresult⟩ := h
  intro op hop
  rw [Turn.ops, mem_cons] at hop
  rcases hop with rfl | hop
  · exact hid
  · cases hr : turn.result with
    | success tasks =>
      simp only [hr] at hop hresult
      rcases mem_append.mp hop with hscheduled | hclear
      · obtain ⟨scheduled, hmem, hops⟩ := mem_flatMap.mp hscheduled
        have hne := hresult scheduled hmem
        simp only [scheduleTask, mem_cons, not_mem_nil, or_false] at hops
        rcases hops with rfl | rfl <;> exact hne
      · rw [mem_singleton.mp hclear]
        exact hid
    | update first second =>
      simp only [hr, mem_cons, not_mem_nil, or_false] at hop hresult
      rcases hop with rfl | rfl
      · exact hresult.1
      · exact hresult.2
    | failure typ message maxAttempts =>
      simp only [hr, mem_cons, not_mem_nil, or_false] at hop
      rcases hop with rfl | rfl | rfl <;> exact hid
    | ignored =>
      simp only [hr, mem_singleton] at hop
      rw [hop]
      exact hid

theorem apply_same {op : Op D} (hop : op.key.id ≠ id) (h : op.apply store = some store') :
    SameAt id store store' := by
  intro key hkey
  have hne : key ≠ op.key := fun heq => hop (heq ▸ hkey)
  cases op with
  | clear cleared =>
    cases h
    exact update_of_ne hne ..
  | assertSome asserted =>
    rw [Op.apply] at h
    split at h
    · cases h
      rfl
    · cases h
  | set written value =>
    cases h
    exact update_of_ne hne ..

theorem write_same (hops : ∀ op ∈ ops, op.key.id ≠ id) (h : write store ops = some store') :
    SameAt id store store' := by
  induction ops generalizing store with
  | nil =>
    cases h
    exact fun _ _ => rfl
  | cons op ops ih =>
    obtain ⟨next, hnext, hrest⟩ := bind_eq_some_iff.mp h
    exact (apply_same (hops op mem_cons_self) hnext).trans
      (ih (fun op hmem => hops op (mem_cons_of_mem _ hmem)) hrest)

theorem write_append {ops' : List (Op D)} :
    write store (ops ++ ops') = (write store ops).bind fun store => write store ops' := by
  induction ops generalizing store with
  | nil => rfl
  | cons op ops ih => simp [write, ih, bind_assoc]

/-! ## One failure -/

def Stored (store : Store D) (id : UInt64) (task : Task D) : Prop :=
  store (.task id) = some (.task task) ∧
    ∀ due, (store (.due due id)).isSome = true ↔ due = task.dueTimestamp

theorem Stored.congr (h : Stored store id task) (hsame : SameAt id store store') :
    Stored store' id task :=
  ⟨(hsame _ rfl).trans h.1, fun due => by rw [hsame (.due due id) rfl]; exact h.2 due⟩

@[simp] theorem dueTimestamp_failureStatus (manager : TaskManager) (task : Task D) (typ : TaskFailureType)
    (message : String) (maxAttempts : Option UInt64) (reading : Reading) :
    (task.setStatus (failureStatus manager typ message maxAttempts task.status reading).1).dueTimestamp =
      (failureStatus manager typ message maxAttempts task.status reading).2 := by
  rw [failureStatus]
  cases retryAt manager typ maxAttempts task.status reading with
  | none => rfl
  | some retryAt => exact UInt64.toUInt64_toInt64 retryAt

/-- The window in which `process_tasks` looks for due keys. -/
def Scanned (now due : UInt64) : Prop := 1 ≤ due ∧ due ≤ now ∧ now.toNat + 300 < 2 ^ 64

instance (now due : UInt64) : Decidable (Scanned now due) := inferInstanceAs (Decidable (_ ∧ _))

/-- A turn in which a task fails that was due and that the worker has read from the store. -/
structure Turn.Fails (turn : Turn D) (store : Store D) : Prop where
  result : ∃ typ message maxAttempts, turn.result = .failure typ message maxAttempts
  task : store (.task turn.info.id) = some (.task turn.task)
  due : (store (.due turn.info.due turn.info.id)).isSome = true
  scanned : ∃ now, Scanned now turn.info.due

theorem stored_of_fails {message : String} (hstored : Stored store turn.info.id task)
    (hresult : turn.result = .failure typ message maxAttempts) (htask : turn.task = task)
    (hdue : turn.info.due = task.dueTimestamp)
    (h : write store (turn.ops objectType manager) = some store') :
    Stored store' turn.info.id
      (task.setStatus (failureStatus manager typ message maxAttempts task.status turn.reading).1) := by
  subst htask
  have hassert : (Function.update store (.due turn.info.due turn.info.id) none (.task turn.info.id)).isSome =
      true := by
    rw [update_of_ne (by simp), hstored.1]
    rfl
  simp only [Turn.ops, hresult, write, Op.apply, bind_some, if_pos hassert, Option.some.injEq] at h
  subst h
  refine ⟨update_self .., fun due => ?_⟩
  rw [update_of_ne (by simp)]
  by_cases hnew : due = (failureStatus manager typ message maxAttempts turn.task.status turn.reading).2
  · subst hnew
    simp
  · rw [update_of_ne (by simp [hnew])]
    by_cases hold : due = turn.info.due
    · subst hold
      simp [hnew]
    · rw [update_of_ne (by simp [hold]), hstored.2, ← hdue]
      simp [hnew, hold]

/-! ## Batches -/

def Apart (turns : List (Turn D)) : Prop :=
  turns.Pairwise fun turn turn' => turn.Spares turn'.info.id ∧ turn'.Spares turn.info.id

/-- No assertion of a turn fails: a failed task is still there. -/
def Turn.Kept (turn : Turn D) (store : Store D) : Prop :=
  match turn.result with
  | .failure .. => (store (.task turn.info.id)).isSome = true
  | .update first second => (∀ key, first ≠ .assertSome key) ∧ ∀ key, second ≠ .assertSome key
  | _ => True

theorem exists_write_of_no_assert (h : ∀ op ∈ ops, ∀ key, op ≠ .assertSome key) (store : Store D) :
    ∃ store', write store ops = some store' := by
  induction ops generalizing store with
  | nil => exact ⟨store, rfl⟩
  | cons op ops ih =>
    have hrest := ih fun op hmem => h op (mem_cons_of_mem _ hmem)
    cases op with
    | clear key | set key value => exact hrest _
    | assertSome key => exact absurd rfl (h _ mem_cons_self key)

theorem exists_write_turn (objectType : D → UInt16) (manager : TaskManager) (h : turn.Kept store) :
    ∃ store', write store (turn.ops objectType manager) = some store' := by
  cases hr : turn.result with
  | success tasks =>
    refine exists_write_of_no_assert (fun op hop key hassert => ?_) store
    subst hassert
    simp [Turn.ops, hr, scheduleTask] at hop
  | ignored =>
    refine exists_write_of_no_assert (fun op hop key hassert => ?_) store
    subst hassert
    simp [Turn.ops, hr] at hop
  | update first second =>
    simp only [Turn.Kept, hr] at h
    refine exists_write_of_no_assert (fun op hop key hassert => ?_) store
    subst hassert
    simp only [Turn.ops, hr, mem_cons, not_mem_nil, or_false, reduceCtorEq, false_or] at hop
    rcases hop with hfirst | hsecond
    · exact h.1 key hfirst.symm
    · exact h.2 key hsecond.symm
  | failure typ message maxAttempts =>
    simp only [Turn.Kept, hr] at h
    have hassert : (Function.update store (.due turn.info.due turn.info.id) none
        (.task turn.info.id)).isSome = true := by
      rwa [update_of_ne (by simp)]
    simp only [Turn.ops, hr, write, Op.apply, bind_some, if_pos hassert]
    exact ⟨_, rfl⟩

theorem Turn.Kept.congr (h : turn.Kept store) (hsame : SameAt turn.info.id store store') :
    turn.Kept store' := by
  rw [Turn.Kept] at h ⊢
  cases hr : turn.result with
  | failure typ message maxAttempts =>
    simp only [hr] at h ⊢
    rwa [hsame (.task turn.info.id) rfl]
  | update first second => simpa only [hr] using h
  | success tasks | ignored => trivial

theorem exists_write (objectType : D → UInt16) (manager : TaskManager) (hapart : Apart turns)
    (hkept : ∀ turn ∈ turns, turn.Kept store) :
    ∃ store', write store (turns.flatMap (Turn.ops objectType manager)) = some store' := by
  induction turns generalizing store with
  | nil => exact ⟨store, rfl⟩
  | cons turn turns ih =>
    obtain ⟨hspares, hrest⟩ := pairwise_cons.mp hapart
    obtain ⟨next, hnext⟩ := exists_write_turn objectType manager (hkept turn mem_cons_self)
    rw [flatMap_cons, write_append, hnext]
    exact ih hrest fun other hmem => (hkept other (mem_cons_of_mem _ hmem)).congr
      (write_same (key_ne_of_spares (hspares other hmem).1) hnext)

theorem updateTasks_same (objectType : D → UInt16) (manager : TaskManager)
    (hspares : ∀ turn ∈ turns, turn.Spares id) (store : Store D) :
    SameAt id store (updateTasks objectType manager store turns) := by
  rw [updateTasks]
  cases hwrite : write store (turns.flatMap (Turn.ops objectType manager)) with
  | none => exact fun _ _ => rfl
  | some store' =>
    refine write_same (fun op hop => ?_) hwrite
    obtain ⟨turn, hturn, hmem⟩ := mem_flatMap.mp hop
    exact key_ne_of_spares (hspares turn hturn) op hmem

theorem updateTasks_fails (objectType : D → UInt16) (manager : TaskManager) {message : String}
    (hapart : Apart turns) (hkept : ∀ turn ∈ turns, turn.Kept store) (hturn : turn ∈ turns)
    (hstored : Stored store turn.info.id task) (hfails : turn.Fails store)
    (hresult : turn.result = .failure typ message maxAttempts) :
    Stored (updateTasks objectType manager store turns) turn.info.id
      (task.setStatus (failureStatus manager typ message maxAttempts task.status turn.reading).1) := by
  have htask : turn.task = task := by
    have hsame := hfails.task.symm.trans hstored.1
    cases hsame
    rfl
  have hdue : turn.info.due = task.dueTimestamp := (hstored.2 _).mp hfails.due
  obtain ⟨store', hwrite⟩ := exists_write objectType manager hapart hkept
  have hafter : updateTasks objectType manager store turns = store' := by
    rw [updateTasks, hwrite]
    rfl
  rw [hafter]
  -- the turns before and after it keep away from its keys
  obtain ⟨before, after, rfl⟩ := append_of_mem hturn
  obtain ⟨-, hcons, hbefore⟩ := pairwise_append.mp hapart
  obtain ⟨hspares, -⟩ := pairwise_cons.mp hcons
  rw [flatMap_append, flatMap_cons, write_append] at hwrite
  obtain ⟨first, hfirst, hrest⟩ := bind_eq_some_iff.mp hwrite
  rw [write_append] at hrest
  obtain ⟨second, hsecond, hthird⟩ := bind_eq_some_iff.mp hrest
  have hsameFirst : SameAt turn.info.id store first := by
    refine write_same (fun op hop => ?_) hfirst
    obtain ⟨other, hother, hmem⟩ := mem_flatMap.mp hop
    exact key_ne_of_spares (hbefore other hother turn mem_cons_self).1 op hmem
  have hsameThird : SameAt turn.info.id second store' := by
    refine write_same (fun op hop => ?_) hthird
    obtain ⟨other, hother, hmem⟩ := mem_flatMap.mp hop
    exact key_ne_of_spares (hspares other hother).2 op hmem
  exact (stored_of_fails (hstored.congr hsameFirst) hresult htask hdue hsecond).congr hsameThird

/-! ## The deadline -/

def Status.createdAt : Status → Int64
  | .pending createdAt _ => createdAt
  | .retry createdAt _ _ _ => createdAt
  | .failed createdAt _ _ _ => createdAt

/-- The end of the time in which a task may be retried. -/
def Status.deadline (manager : TaskManager) (status : Status) : Int :=
  status.createdAt.toInt + (manager.totalDeadline.toNat : Int)

/-- A failure after which the task is not retried, or not later than its deadline. -/
def Timely (manager : TaskManager) (typ : TaskFailureType) (maxAttempts : Option UInt64) (status : Status)
    (reading : Reading) : Prop :=
  maxAttempts.getD manager.maxAttempts ≤ status.attempt.1 ∨
    match typ with
    | .retry retryAt =>
      saturatingAdd retryAt manager.totalDeadline ≤ retryAt ∨ (retryAt.toNat : Int) ≤ status.deadline manager
    | .temporary =>
      0 ≤ status.createdAt.toInt ∨ saturatingAdd status.createdAt.toUInt64 manager.totalDeadline <
          saturatingAdd reading.now reading.delaySecs ∨
        ((saturatingAdd reading.now reading.delaySecs).toNat : Int) ≤ status.deadline manager
    | .permanent => True

theorem toNat_saturatingAdd_le (a b : UInt64) : (saturatingAdd a b).toNat ≤ a.toNat + b.toNat := by
  exact Nat.le_trans (Nat.mod_le ..) (Nat.min_le_left ..)

theorem retryAt_timely_iff {status : Status} {reading : Reading}
    (hcreated : status.attempt.2 = status.createdAt) :
    (∀ t, retryAt manager typ maxAttempts status reading = some t → (t.toNat : Int) ≤ status.deadline manager) ↔
      Timely manager typ maxAttempts status reading := by
  unfold Timely
  by_cases hlimit : maxAttempts.getD manager.maxAttempts ≤ status.attempt.1
  · have hnot : ¬status.attempt.1 < maxAttempts.getD manager.maxAttempts := UInt64.not_lt.mpr hlimit
    cases typ <;> simp [retryAt, nextRetryTime, hlimit, hnot]
  · have hlt : status.attempt.1 < maxAttempts.getD manager.maxAttempts := UInt64.not_le.mp hlimit
    cases typ with
    | retry asked =>
      by_cases hgrant : asked < saturatingAdd asked manager.totalDeadline
      · simp [retryAt, hlimit, hlt, hgrant, UInt64.not_le.mpr hgrant]
      · simp [retryAt, hgrant, UInt64.not_lt.mp hgrant]
    | temporary =>
      by_cases hafter : saturatingAdd status.createdAt.toUInt64 manager.totalDeadline <
          saturatingAdd reading.now reading.delaySecs
      · simp [retryAt, nextRetryTime, hcreated, hafter]
      · simp only [retryAt, nextRetryTime, hcreated, hlimit, hafter, if_false, Option.some.injEq, forall_eq',
          false_or]
        refine ⟨.inr, ?_⟩
        rintro (hepoch | hwithin)
        · have hle := UInt64.le_iff_toNat_le.mp (UInt64.not_lt.mp hafter)
          have hsat := toNat_saturatingAdd_le status.createdAt.toUInt64 manager.totalDeadline
          have hnat : status.createdAt.toUInt64.toNat = status.createdAt.toInt.toNat :=
            Int64.toNat_toUInt64_of_le (Int64.le_iff_toInt_le.mpr hepoch)
          rw [Status.deadline]
          omega
        · exact hwithin
    | permanent => simp [retryAt]

/-! ## Runs -/

/-- A batch in which a task fails, or which leaves it alone. -/
def Fails (id : UInt64) (store : Store D) (turns : List (Turn D)) : Prop :=
  Apart turns ∧ ∀ turn ∈ turns, turn.Spares id ∨ turn.info.id = id ∧ turn.Fails store

/-- A batch that is written and retries no task later than its deadline. -/
def Meets (manager : TaskManager) (id : UInt64) (store : Store D) (turns : List (Turn D)) : Prop :=
  ∀ turn ∈ turns, turn.Kept store ∧
    ∀ typ message maxAttempts, turn.info.id = id → turn.result = .failure typ message maxAttempts →
      Timely manager typ maxAttempts turn.task.status turn.reading

def step (objectType : D → UInt16) (manager : TaskManager) (store : Store D) (turns : List (Turn D)) :
    Option (Store D) :=
  some (updateTasks objectType manager store turns)

def Status.isRetry : Status → Bool
  | .retry .. => true
  | _ => false

/-- The batch has stored a task anew, to be retried. -/
def rescheduled [DecidableEq D] (id : UInt64) (store store' : Store D) : Bool :=
  match store' (.task id) with
  | some (.task task) => task.status.isRetry && decide (store (.task id) ≠ some (.task task))
  | _ => false

def reschedules [DecidableEq D] (objectType : D → UInt16) (manager : TaskManager) (id : UInt64) :
    Store D → List (List (Turn D)) → Nat
  | _, [] => 0
  | store, turns :: rest =>
    let next := updateTasks objectType manager store turns
    (if rescheduled id store next then 1 else 0) + reschedules objectType manager id next rest

inductive Outcome (manager : TaskManager) (turns : List (Turn D)) (id : UInt64) (deadline : Int)
    (task task' : Task D) (count : Nat) : Prop
  | none (absent : ∀ turn ∈ turns, turn.info.id ≠ id) (same : task' = task)
  | rescheduled (turn : Turn D) (mem : turn ∈ turns) (self : turn.info.id = id) (typ : TaskFailureType)
      (message : String) (maxAttempts : Option UInt64) (result : turn.result = .failure typ message maxAttempts)
      (retry : task'.status.isRetry = true) (attempts : count < (maxAttempts.getD manager.maxAttempts).toNat)
      (inTime : (task'.dueTimestamp.toNat : Int) ≤ deadline)
  | failed (turn : Turn D) (mem : turn ∈ turns) (self : turn.info.id = id)
      (failed : ∃ createdAt failedAt attempt reason, task'.status = .failed createdAt failedAt attempt reason)
      (never : task'.dueTimestamp = Task.u64Max)

theorem Turn.Fails.not_failed (h : turn.Fails store) (hstored : Stored store turn.info.id task) :
    task.dueTimestamp ≠ Task.u64Max := by
  obtain ⟨now, -, hnow, hlt⟩ := h.scanned
  have hdue : turn.info.due = task.dueTimestamp := (hstored.2 _).mp h.due
  intro hmax
  rw [hdue, hmax, UInt64.le_iff_toNat_le] at hnow
  have hvalue : Task.u64Max.toNat = 2 ^ 64 - 1 := rfl
  omega

theorem attempt_createdAt (h : task.dueTimestamp ≠ Task.u64Max) :
    task.status.attempt.2 = task.status.createdAt := by
  cases hs : task.status with
  | pending createdAt due | retry createdAt due attemptNumber reason => rfl
  | failed createdAt failedAt attemptNumber reason =>
    exact absurd (by rw [Task.dueTimestamp, hs]) h

/-- What a run keeps of a task: its creation, and the number of the attempt as the count of retries. -/
structure Keeps (task₀ : Task D) (store : Store D) (id : UInt64) (count : Nat) (task : Task D) : Prop where
  stored : Stored store id task
  created : task.status.createdAt = task₀.status.createdAt
  attempt : task.status.attempt.1.toNat = count

theorem attempt_lt_of_retryAt {status : Status} {reading : Reading} {t : UInt64}
    (h : retryAt manager typ maxAttempts status reading = some t) :
    status.attempt.1.toNat < (maxAttempts.getD manager.maxAttempts).toNat := by
  rw [← UInt64.lt_iff_toNat_lt]
  by_contra hlimit
  have hle := UInt64.not_lt.mp hlimit
  cases typ <;> simp [retryAt, nextRetryTime, hlimit, hle] at h

theorem toNat_attempt_succ {attempt limit : UInt64} (h : attempt.toNat < limit.toNat) :
    (attempt + 1).toNat = attempt.toNat + 1 := by
  have hlimit := limit.toNat_lt
  rw [UInt64.toNat_add, UInt64.toNat_one]
  omega

theorem rescheduled_setStatus [DecidableEq D] {createdAt due : Int64} {reason : String}
    (h : store (.task id) = some (.task task)) (h' : store' (.task id) =
      some (.task (task.setStatus (.retry createdAt due (task.status.attempt.1 + 1) reason)))) :
    rescheduled id store store' = true := by
  have hne : task ≠ task.setStatus (.retry createdAt due (task.status.attempt.1 + 1) reason) := by
    intro heq
    have hattempt : task.status.attempt.1 = task.status.attempt.1 + 1 := congrArg (·.status.attempt.1) heq
    simp at hattempt
  rw [rescheduled, h', h]
  simpa [Task.setStatus, Status.isRetry] using hne

theorem outcome_of_step [DecidableEq D] (objectType : D → UInt16) {task₀ : Task D} {count : Nat}
    (h : Keeps task₀ store id count task) (hfails : Fails id store turns)
    (hmeets : Meets manager id store turns) :
    ∃ task', Keeps task₀ (updateTasks objectType manager store turns) id
        (count + if rescheduled id store (updateTasks objectType manager store turns) then 1 else 0) task' ∧
      Outcome manager turns id (task₀.status.deadline manager) task task' count := by
  obtain ⟨hapart, hturns⟩ := hfails
  by_cases habsent : ∀ turn ∈ turns, turn.info.id ≠ id
  · have hspares : ∀ turn ∈ turns, turn.Spares id := fun turn hmem =>
      (hturns turn hmem).resolve_right fun hself => habsent turn hmem hself.1
    have hsame := updateTasks_same objectType manager hspares store
    have hnone : rescheduled id store (updateTasks objectType manager store turns) = false := by
      rw [rescheduled, hsame (.task id) rfl, h.stored.1]
      simp
    rw [hnone]
    exact ⟨task, ⟨h.stored.congr hsame, h.created, h.attempt⟩, .none habsent rfl⟩
  · simp only [not_forall, not_not] at habsent
    obtain ⟨turn, hmem, rfl⟩ := habsent
    obtain hspares | ⟨-, hturn⟩ := hturns turn hmem
    · exact absurd rfl hspares.1
    obtain ⟨typ, message, maxAttempts, hresult⟩ := hturn.result
    have htask : turn.task = task := by
      cases hturn.task.symm.trans h.stored.1
      rfl
    have hcreated := attempt_createdAt (hturn.not_failed h.stored)
    have htimely := (hmeets turn hmem).2 typ message maxAttempts rfl hresult
    rw [htask, ← retryAt_timely_iff hcreated] at htimely
    have hafter := updateTasks_fails objectType manager hapart
      (fun other hother => (hmeets other hother).1) hmem h.stored hturn hresult
    have hdue := dueTimestamp_failureStatus manager task typ message maxAttempts turn.reading
    rw [failureStatus] at hafter hdue
    cases hretry : retryAt manager typ maxAttempts task.status turn.reading with
    | none =>
      simp only [hretry] at hafter hdue
      have hnone : rescheduled turn.info.id store (updateTasks objectType manager store turns) = false := by
        rw [rescheduled, hafter.1]
        rfl
      rw [hnone]
      exact ⟨_, ⟨hafter, hcreated.trans h.created, h.attempt⟩,
        .failed turn hmem rfl ⟨_, _, _, _, rfl⟩ hdue⟩
    | some t =>
      simp only [hretry] at hafter hdue
      have hlt := attempt_lt_of_retryAt hretry
      rw [if_pos (rescheduled_setStatus h.stored.1 hafter.1)]
      refine ⟨_, ⟨hafter, hcreated.trans h.created, ?_⟩,
        .rescheduled turn hmem rfl typ message maxAttempts hresult rfl (h.attempt ▸ hlt) ?_⟩
      · exact (toNat_attempt_succ hlt).trans (congrArg (· + 1) h.attempt)
      · rw [Status.deadline, ← h.created]
        exact htimely t hretry

theorem keeps_of_run [DecidableEq D] {store₀ : Store D} {task₀ : Task D}
    {batches : List (List (Turn D))} {count : Nat} (h : Keeps task₀ store₀ id count task)
    (hbatches : Runs.Along (step objectType manager)
      (fun store turns => Fails id store turns ∧ Meets manager id store turns) store₀ batches)
    (hrun : Runs.run (step objectType manager) store₀ batches = some store) :
    ∃ task', Keeps task₀ store id (count + reschedules objectType manager id store₀ batches) task' := by
  induction batches generalizing store₀ count task with
  | nil =>
    cases hrun
    exact ⟨task, h⟩
  | cons turns rest ih =>
    obtain ⟨⟨hfails, hmeets⟩, halong⟩ := hbatches
    obtain ⟨task', hkeeps, -⟩ := outcome_of_step objectType h hfails hmeets
    rw [reschedules, ← Nat.add_assoc]
    exact ih hkeeps (halong _ rfl) hrun

/-- A task that fails again and again is retried as often as the limit of each failure allows and no later than
its deadline, or it has failed for good, and it always has one due key. -/
theorem retries_bounded [DecidableEq D] {store₀ store : Store D} {task₀ : Task D}
    {batches : List (List (Turn D))} {turns : List (Turn D)} (h : Stored store₀ id task₀)
    (hbatches : Runs.Along (step objectType manager)
      (fun store turns => Fails id store turns ∧ Meets manager id store turns) store₀ (batches ++ [turns]))
    (hrun : Runs.run (step objectType manager) store₀ batches = some store) :
    ∃ task task', Stored store id task ∧ Stored (updateTasks objectType manager store turns) id task' ∧
      Outcome manager turns id (task₀.status.deadline manager) task task'
        (task₀.status.attempt.1.toNat + reschedules objectType manager id store₀ batches) := by
  obtain ⟨hbefore, hlast, -⟩ := hbatches.of_append hrun
  obtain ⟨task, hkeeps⟩ := keeps_of_run ⟨h, rfl, rfl⟩ hbefore hrun
  obtain ⟨task', hkeeps', houtcome⟩ := outcome_of_step objectType hkeeps hlast.1 hlast.2
  exact ⟨task, task', hkeeps.stored, hkeeps'.stored, houtcome⟩

/-! A task of 1970 that may be retried three times in a thousand seconds. -/

def patient : TaskManager := ⟨3, 1000⟩

def queued : Task Unit := ⟨(), .pending 100 100⟩

def queue : Store Unit
  | .task 7 => some (.task queued)
  | .due 100 7 => some (.taskType 0)
  | _ => none

def failing (task : Task Unit) (due : UInt64) (typ : TaskFailureType) : Turn Unit :=
  ⟨task, ⟨7, due, 0⟩, .failure typ "busy" none, ⟨due, 60, due.toInt64⟩⟩

def retried : Task Unit := ⟨(), .retry 100 160 1 "busy"⟩

theorem stored_queue : Stored queue 7 queued := by
  refine ⟨rfl, fun due => ?_⟩
  by_cases hdue : due = 100
  · subst hdue
    decide
  · have htime : queued.dueTimestamp = 100 := rfl
    simp [queue, hdue, htime]

theorem fails_singleton {store : Store Unit} {task : Task Unit} {due : UInt64}
    (htask : store (.task 7) = some (.task task)) (hdue : (store (.due due 7)).isSome = true)
    (hscanned : Scanned due due) : Fails 7 store [failing task due typ] :=
  ⟨pairwise_singleton .., fun _ hmem =>
    .inr (mem_singleton.mp hmem ▸ ⟨rfl, ⟨⟨_, _, _, rfl⟩, htask, hdue, ⟨_, hscanned⟩⟩⟩)⟩

theorem meets_singleton {store : Store Unit} {task : Task Unit} {due : UInt64}
    (htask : (store (.task 7)).isSome = true)
    (htimely : Timely patient typ none task.status ⟨due, 60, due.toInt64⟩) :
    Meets patient 7 store [failing task due typ] := by
  intro turn hmem
  obtain rfl := mem_singleton.mp hmem
  refine ⟨htask, fun typ' message maxAttempts _ hresult => ?_⟩
  cases hresult
  exact htimely

/-- A failure that may pass is retried a minute later, and one that will not is the last. -/
theorem retries_bounded_queue : ∃ task task',
    Stored (updateTasks (fun _ => 0) patient queue [failing queued 100 .temporary]) 7 task ∧
      Stored (updateTasks (fun _ => 0) patient
        (updateTasks (fun _ => 0) patient queue [failing queued 100 .temporary])
        [failing retried 160 .permanent]) 7 task' ∧
      Outcome patient [failing retried 160 .permanent] 7 (queued.status.deadline patient) task task'
        (queued.status.attempt.1.toNat +
          reschedules (fun _ => 0) patient 7 queue [[failing queued 100 .temporary]]) := by
  have halong : Runs.Along (step (fun _ => 0) patient)
      (fun store turns => Fails 7 store turns ∧ Meets patient 7 store turns) queue
      ([[failing queued 100 .temporary]] ++ [[failing retried 160 .permanent]]) := by
    refine ⟨⟨fails_singleton rfl rfl (by decide), meets_singleton rfl (.inr (.inl (by decide)))⟩, ?_⟩
    intro store hstore
    cases hstore
    exact ⟨⟨fails_singleton rfl rfl (by decide), meets_singleton rfl (.inr trivial)⟩, fun _ _ => trivial⟩
  exact retries_bounded stored_queue halong rfl

/-- A failure that names the time of its retry is granted one later than the deadline. -/
theorem late_retry :
    Stored queue 7 queued ∧ Fails 7 queue [failing queued 100 (.retry 5000)] ∧
      (∀ turn ∈ [failing queued 100 (.retry 5000)], turn.Kept queue) ∧
      ∃ task', (updateTasks (fun _ => 0) patient queue [failing queued 100 (.retry 5000)]) (.task 7) =
          some (.task task') ∧
        task'.status.isRetry = true ∧ queued.status.deadline patient < task'.dueTimestamp.toNat := by
  refine ⟨stored_queue, fails_singleton rfl rfl (by decide), ?_, ⟨(), .retry 100 5000 1 "busy"⟩, rfl, rfl,
    by decide⟩
  intro turn hmem
  rw [mem_singleton.mp hmem]
  rfl

end Bearmail.Tasks
