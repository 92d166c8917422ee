import Mathlib.Data.List.Basic

/-!
# The task queue

`TaskStatus` of `registry/src/schema/structs.rs`, the keys of a queued task, and `update_tasks` and
`next_retry_time` of `services/src/task_manager/manager.rs`. What a kind of task carries besides its status is
a type `D`.
-/

namespace Bearmail.Tasks

/-! ## Tasks -/

/-- The times are a `UTCDateTime`, seconds in an `i64`. -/
inductive Status where
  | pending (createdAt due : Int64)
  | retry (createdAt due : Int64) (attemptNumber : UInt64) (failureReason : String)
  | failed (createdAt failedAt : Int64) (failedAttemptNumber : UInt64) (failureReason : String)
  deriving DecidableEq

structure Task (D : Type) where
  details : D
  status : Status
  deriving DecidableEq

variable {D : Type}

namespace Task

def setStatus (task : Task D) (status : Status) : Task D := { task with status := status }

def u64Max : UInt64 := 18446744073709551615

def dueTimestamp (task : Task D) : UInt64 :=
  match task.status with
  | .pending _ due => due.toUInt64
  | .retry _ due _ _ => due.toUInt64
  | .failed .. => u64Max

end Task

/-! ## The store -/

inductive Key where
  | due (due id : UInt64)
  | task (id : UInt64)
  deriving DecidableEq

def Key.id : Key → UInt64
  | .due _ id => id
  | .task id => id

inductive Value (D : Type) where
  | taskType (typ : UInt16)
  | task (task : Task D)
  deriving DecidableEq

abbrev Store (D : Type) := Key → Option (Value D)

inductive Op (D : Type) where
  | clear (key : Key)
  /-- `AssertValue::Some` -/
  | assertSome (key : Key)
  | set (key : Key) (value : Value D)

namespace Op

def key : Op D → Key
  | .clear key => key
  | .assertSome key => key
  | .set key _ => key

def apply (store : Store D) : Op D → Option (Store D)
  | .clear key => some (Function.update store key none)
  | .assertSome key => if (store key).isSome then some store else none
  | .set key value => some (Function.update store key (some value))

end Op

/-- A batch is written as a whole, or `none` with `AssertValueFailed`. -/
def write : Store D → List (Op D) → Option (Store D)
  | store, [] => some store
  | store, op :: ops => (op.apply store).bind fun store => write store ops

/-! ## Retries -/

structure TaskManager where
  maxAttempts : UInt64
  /-- in seconds -/
  totalDeadline : UInt64

def saturatingAdd (a b : UInt64) : UInt64 := UInt64.ofNat (min (a.toNat + b.toNat) Task.u64Max.toNat)

/-- `delaySecs` is what the strategy yields. -/
def nextRetryTime (manager : TaskManager) (maxAttemptsOverride : Option UInt64)
    (createTime attempt now delaySecs : UInt64) : Option UInt64 :=
  if maxAttemptsOverride.getD manager.maxAttempts ≤ attempt then none
  else
    let nextTime := saturatingAdd now delaySecs
    let deadline := saturatingAdd createTime manager.totalDeadline
    if deadline < nextTime then none else some nextTime

/-! ## The results of a batch -/

structure TaskJob where
  id : UInt64
  due : UInt64
  typ : UInt16

inductive TaskFailureType where
  | retry (retryAt : UInt64)
  | temporary
  | permanent
  deriving DecidableEq

inductive TaskResult (D : Type) where
  /-- new tasks with the ids that the generator gives them -/
  | success (tasks : List (UInt64 × Task D))
  | update (first second : Op D)
  | failure (typ : TaskFailureType) (message : String) (maxAttempts : Option UInt64)
  | ignored

/-- What the clocks and the strategy yield while a failure is recorded. -/
structure Reading where
  now : UInt64
  delaySecs : UInt64
  utcNow : Int64

/-- A task with its job, its result, and the readings. -/
structure Turn (D : Type) where
  task : Task D
  info : TaskJob
  result : TaskResult D
  reading : Reading

section

variable (objectType : D → UInt16) (manager : TaskManager)

def scheduleTask (id : UInt64) (task : Task D) : List (Op D) :=
  [.set (.task id) (.task task), .set (.due task.dueTimestamp id) (.taskType (objectType task.details))]

/-- The number of the attempt and the time of the creation, as `update_tasks` reads them. -/
def Status.attempt : Status → UInt64 × Int64
  | .pending createdAt _ => (0, createdAt)
  | .retry createdAt _ attemptNumber _ => (attemptNumber, createdAt)
  | .failed _ failedAt failedAttemptNumber _ => (failedAttemptNumber, failedAt)

def retryAt (typ : TaskFailureType) (maxAttempts : Option UInt64) (status : Status) (reading : Reading) :
    Option UInt64 :=
  let (attemptNumber, createdAt) := status.attempt
  match typ with
  | .retry retryAt =>
    if attemptNumber < maxAttempts.getD manager.maxAttempts ∧
        retryAt < saturatingAdd retryAt manager.totalDeadline then
      some retryAt
    else none
  | .temporary =>
    nextRetryTime manager maxAttempts createdAt.toUInt64 attemptNumber reading.now reading.delaySecs
  | .permanent => none

def failureStatus (typ : TaskFailureType) (message : String) (maxAttempts : Option UInt64) (status : Status)
    (reading : Reading) : Status × UInt64 :=
  let (attemptNumber, createdAt) := status.attempt
  match retryAt manager typ maxAttempts status reading with
  | some retryAt => (.retry createdAt retryAt.toInt64 (attemptNumber + 1) message, retryAt)
  | none => (.failed createdAt reading.utcNow attemptNumber message, Task.u64Max)

def Turn.ops (turn : Turn D) : List (Op D) :=
  .clear (.due turn.info.due turn.info.id) ::
    match turn.result with
    | .success tasks =>
      tasks.flatMap (fun (id, task) => scheduleTask objectType id task) ++ [.clear (.task turn.info.id)]
    | .ignored => [.clear (.task turn.info.id)]
    | .update first second => [first, second]
    | .failure typ message maxAttempts =>
      let (status, due) := failureStatus manager typ message maxAttempts turn.task.status turn.reading
      [.assertSome (.task turn.info.id), .set (.due due turn.info.id) (.taskType turn.info.typ),
        .set (.task turn.info.id) (.task (turn.task.setStatus status))]

/-- The store after `update_tasks`; a batch that is refused leaves it as it was. -/
def updateTasks (store : Store D) (turns : List (Turn D)) : Store D :=
  (write store (turns.flatMap (Turn.ops objectType manager))).getD store

end

end Bearmail.Tasks
