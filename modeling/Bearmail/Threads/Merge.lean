import Mathlib.Algebra.Group.Nat.Defs
import Mathlib.Data.List.AList
import Mathlib.Data.List.Sort
import Bearmail.Lib.Batch

/-!
# Threads

How messages of one account come into threads: `email_ingest` and `find_thread_id` of
`email/src/message/ingest.rs`, and the MergeThreads task of
`services/src/task_manager/merge_threads.rs` with the part of the task queue that concerns it.

A new message takes the thread of the stored ones with the same subject and a common reference, as
they are when the message is received; its document id and the batch that stores it come later. A task
brings messages of several threads together. It looks for them, reads them one by one and writes them
in one batch, which fails when one of them is not as it was read; other steps may come in between.

Subjects and references are hashes, which are compared as numbers. The order in which a scan goes
through the index, or a hash map through its groups, only orders the documents of a batch.
-/

namespace Bearmail.Threads

/-! ## Messages -/

abbrev CheekyHash := Nat

inductive IngestSource where
  | smtp
  | jmap
  | imap
  | restore
  deriving DecidableEq

/-- The mailboxes, the keywords and the size are one value here. -/
structure MessageData where
  threadId : Nat
  other : Nat
  deriving DecidableEq

structure ThreadInfo where
  threadId : Nat
  references : List CheekyHash
  deriving DecidableEq

/-- By the hash of the subject and the document. -/
abbrev Index := AList fun _ : CheekyHash × Nat => ThreadInfo

/-- Whether two sorted lists have an element in common. The second one is gone through up to the
first element that is not less than that of the first one. -/
def hasMessageId : List CheekyHash → List CheekyHash → Bool
  | [], _ => false
  | a :: as, bs =>
    match bs.dropWhile fun b => decide (b < a) with
    | [] => false
    | b :: rest => if a = b then true else hasMessageId as (b :: rest)

/-! ## Groups -/

abbrev ThreadMerge := AList fun _ : Nat => List Nat

def ThreadMerge.add (merge : ThreadMerge) (threadId documentId : Nat) : ThreadMerge :=
  merge.insert threadId ((merge.lookup threadId).getD [] ++ [documentId])

/-- The thread with the most documents, and of those the one with the lowest id. -/
def ThreadMerge.mergeThreadId (merge : ThreadMerge) : Nat :=
  (merge.entries.foldl (fun (best : Nat × Nat) group =>
    if best.2 < group.2.length then (group.1, group.2.length)
    else if group.2.length = best.2 ∧ group.1 < best.1 then (group.1, best.2)
    else best) (2 ^ 32 - 1, 0)).1

def ThreadMerge.addAll (merge : ThreadMerge)
    (found : List (Sigma fun _ : CheekyHash × Nat => ThreadInfo)) : ThreadMerge :=
  found.foldl (fun merge entry => merge.add entry.2.threadId entry.1.2) merge

/-- The messages with a subject that have one of the references, and the others. -/
def Index.matching (index : Index) (threadName : CheekyHash) (messageIds : List CheekyHash) :
    List (Sigma fun _ : CheekyHash × Nat => ThreadInfo) :=
  index.entries.filter fun entry =>
    decide (entry.1.1 = threadName) && hasMessageId messageIds entry.2.references

def Index.sameSubject (index : Index) (threadName : CheekyHash) (messageIds : List CheekyHash) :
    List (Sigma fun _ : CheekyHash × Nat => ThreadInfo) :=
  index.entries.filter fun entry =>
    decide (entry.1.1 = threadName) && !hasMessageId messageIds entry.2.references

structure ThreadResult where
  threadId : Option Nat
  mergeIds : List Nat
  duplicateIds : List Nat

def findThreadId (index : Index) (threadName : CheekyHash) (messageIds : List CheekyHash) :
    ThreadResult :=
  let found := index.matching threadName messageIds
  let merge := ThreadMerge.addAll ∅ found
  let duplicateIds := (found.filter fun entry => decide (entry.2.references = messageIds)).map
    fun entry => entry.1.2
  if messageIds = [] then ⟨none, [], []⟩
  else
    match merge.keys with
    | [] => ⟨none, [], duplicateIds⟩
    | [threadId] => ⟨some threadId, [], duplicateIds⟩
    | _ => ⟨some merge.mergeThreadId, merge.keys, duplicateIds⟩

/-! ## The account -/

/-- A message that has been received and is not yet stored. -/
structure Arrival where
  source : IngestSource
  threadName : CheekyHash
  messageIds : List CheekyHash
  threadId : Option Nat
  mergeIds : List Nat
  other : Nat
  documentId : Option Nat

/-- `TaskMergeThreads`. A task that has failed for good stays in the queue, but is never due. -/
structure MergeTask where
  threadName : CheekyHash
  messageIds : List CheekyHash
  failed : Bool
  deriving DecidableEq

structure Move where
  documentId : Nat
  group : Nat
  data : MessageData

inductive Phase where
  | scan
  | read (merge : ThreadMerge) (todo : List (Nat × Nat)) (moves : List Move)
  | done (success : Bool)

structure MergeRun where
  task : Nat
  threadName : CheekyHash
  messageIds : List CheekyHash
  tries : Nat
  phase : Phase

structure Account where
  data : AList fun _ : Nat => MessageData
  index : Index
  lastId : Nat
  arrivals : AList fun _ : Nat => Arrival
  tasks : AList fun _ : Nat => MergeTask
  lastTask : Nat
  runs : AList fun _ : Nat => MergeRun

/-! ## Ingestion -/

def sortIds (ids : List CheekyHash) : List CheekyHash := (ids.insertionSort (· ≤ ·)).dedup

/-- The message with these references is received. A copy by SMTP of a message in the same mailbox, or
in Junk, is dropped. -/
def receive (account : Account) (arrival : Nat) (source : IngestSource) (threadName : CheekyHash)
    (ids : List CheekyHash) (other : Nat) (inMailbox : Nat → Bool) : Option Account :=
  let messageIds := sortIds ids
  let result := findThreadId account.index threadName messageIds
  if (account.arrivals.lookup arrival).isSome then none
  else if source = .smtp ∧ result.duplicateIds.any inMailbox then some account
  else
    some { account with
      arrivals := account.arrivals.insert arrival
        ⟨source, threadName, messageIds, result.threadId, result.mergeIds, other, none⟩ }

def assign (account : Account) (arrival : Nat) : Option Account :=
  match account.arrivals.lookup arrival with
  | none => none
  | some message =>
    if message.documentId.isSome then none
    else
      some { account with
        lastId := account.lastId + 1
        arrivals := account.arrivals.insert arrival
          { message with documentId := some (account.lastId + 1) } }

def Arrival.schedules (message : Arrival) : Bool :=
  decide (message.mergeIds ≠ []) || decide (message.source = .jmap) || decide (message.source = .imap)

def ingest (account : Account) (arrival : Nat) : Option Account :=
  match account.arrivals.lookup arrival with
  | none => none
  | some message =>
    match message.documentId with
    | none => none
    | some documentId =>
      let threadId := message.threadId.getD documentId
      let stored := { account with
        data := account.data.insert documentId ⟨threadId, message.other⟩
        index := account.index.insert (message.threadName, documentId) ⟨threadId, message.messageIds⟩
        arrivals := account.arrivals.erase arrival }
      if message.schedules then
        some { stored with
          tasks := account.tasks.insert (account.lastTask + 1)
            ⟨message.threadName, message.messageIds, false⟩
          lastTask := account.lastTask + 1 }
      else some stored

def drop (account : Account) (arrival : Nat) : Option Account :=
  some { account with arrivals := account.arrivals.erase arrival }

/-! ## Other writes -/

/-- The mailboxes or the keywords of a message are changed. -/
def edit (account : Account) (documentId other : Nat) : Option Account :=
  (account.data.lookup documentId).map fun data =>
    { account with data := account.data.insert documentId { data with other } }

/-- `emails_delete`. The index is left to a later task. -/
def destroy (account : Account) (documentId : Nat) : Option Account :=
  if (account.data.lookup documentId).isSome then
    some { account with data := account.data.erase documentId }
  else none

def unindex (account : Account) (threadName : CheekyHash) (documentId : Nat) : Option Account :=
  if (account.data.lookup documentId).isSome then none
  else some { account with index := account.index.erase (threadName, documentId) }

/-! ## Merging -/

def maxRetries : Nat := 5

def Account.setRun (account : Account) (id : Nat) (run : MergeRun) : Account :=
  { account with runs := account.runs.insert id run }

/-- A worker takes a task that is due. Its lock can run out, so there may be another one on it. -/
def start (account : Account) (id task : Nat) : Option Account :=
  match account.tasks.lookup task with
  | none => none
  | some details =>
    if details.failed = true ∨ (account.runs.lookup id).isSome then none
    else
      some (account.setRun id ⟨task, details.threadName,
        details.messageIds.insertionSort (· ≤ ·), 0, .scan⟩)

/-- The groups with a common reference, with the other messages of their threads. -/
def scanThreads (index : Index) (run : MergeRun) : ThreadMerge :=
  let merge := ThreadMerge.addAll ∅ (index.matching run.threadName run.messageIds)
  merge.addAll ((index.sameSubject run.threadName run.messageIds).filter fun entry =>
    decide (entry.2.threadId ∈ merge.keys))

def toMove (merge : ThreadMerge) : List (Nat × Nat) :=
  (merge.entries.filter fun group => decide (group.1 ≠ merge.mergeThreadId)).flatMap
    fun group => group.2.map fun documentId => (group.1, documentId)

def scan (account : Account) (id : Nat) : Option Account :=
  match account.runs.lookup id with
  | none => none
  | some run =>
    match run.phase with
    | .scan =>
      if (ThreadMerge.addAll ∅ (account.index.matching run.threadName run.messageIds)).keys.length < 2
      then some (account.setRun id { run with phase := .done true })
      else
        let merge := scanThreads account.index run
        some (account.setRun id { run with phase := .read merge (toMove merge) [] })
    | _ => none

def read (account : Account) (id : Nat) : Option Account :=
  match account.runs.lookup id with
  | none => none
  | some run =>
    match run.phase with
    | .read merge ((group, documentId) :: todo) moves =>
      match account.data.lookup documentId with
      | none => some (account.setRun id { run with phase := .read merge todo moves })
      | some data =>
        if data.threadId ≠ group then
          some (account.setRun id { run with tries := run.tries + 1, phase := .scan })
        else
          some (account.setRun id
            { run with phase := .read merge todo (moves ++ [⟨documentId, group, data⟩]) })
    | _ => none

def Move.apply (threadName : CheekyHash) (threadId : Nat)
    (store : (AList fun _ : Nat => MessageData) × Index) (move : Move) :
    Option ((AList fun _ : Nat => MessageData) × Index) :=
  if store.1.lookup move.documentId ≠ some move.data then none
  else
    match store.2.lookup (threadName, move.documentId) with
    | none => none
    | some info =>
      if info.references = [] ∨ info.threadId ≠ move.group then none
      else
        some (store.1.insert move.documentId { move.data with threadId },
          store.2.insert (threadName, move.documentId) { info with threadId })

def commit (account : Account) (id : Nat) : Option Account :=
  match account.runs.lookup id with
  | none => none
  | some run =>
    match run.phase with
    | .read merge [] moves =>
      match Batch.transact (Move.apply run.threadName merge.mergeThreadId)
          (account.data, account.index) moves with
      | some store =>
        some { account.setRun id { run with phase := .done true } with
          data := store.1
          index := store.2 }
      | none =>
        if run.tries < maxRetries then
          some (account.setRun id { run with tries := run.tries + 1, phase := .scan })
        else some (account.setRun id { run with phase := .done false })
    | _ => none

def fail (account : Account) (id : Nat) : Option Account :=
  match account.runs.lookup id with
  | none => none
  | some run =>
    match run.phase with
    | .done _ => none
    | _ => some (account.setRun id { run with phase := .done false })

/-- `update_tasks`: a task that is done leaves the queue, and one that failed is due `again` or is
given up. -/
def update (account : Account) (id : Nat) (again : Bool) : Option Account :=
  match account.runs.lookup id with
  | none => none
  | some run =>
    match run.phase with
    | .done success =>
      let account := { account with runs := account.runs.erase id }
      if success then some { account with tasks := account.tasks.erase run.task }
      else
        match account.tasks.lookup run.task with
        | none => some account
        | some task =>
          some { account with tasks := account.tasks.insert run.task { task with failed := !again } }
    | _ => none

/-! ## Steps -/

inductive Step where
  | receive (arrival : Nat) (source : IngestSource) (threadName : CheekyHash)
    (ids : List CheekyHash) (other : Nat) (inMailbox : Nat → Bool)
  | assign (arrival : Nat)
  | ingest (arrival : Nat)
  | drop (arrival : Nat)
  | edit (documentId other : Nat)
  | destroy (documentId : Nat)
  | unindex (threadName : CheekyHash) (documentId : Nat)
  | start (run task : Nat)
  | scan (run : Nat)
  | read (run : Nat)
  | commit (run : Nat)
  | fail (run : Nat)
  | update (run : Nat) (again : Bool)

def step (account : Account) : Step → Option Account
  | .receive arrival source threadName ids other inMailbox =>
    receive account arrival source threadName ids other inMailbox
  | .assign arrival => assign account arrival
  | .ingest arrival => ingest account arrival
  | .drop arrival => drop account arrival
  | .edit documentId other => edit account documentId other
  | .destroy documentId => destroy account documentId
  | .unindex threadName documentId => unindex account threadName documentId
  | .start run task => start account run task
  | .scan run => scan account run
  | .read run => read account run
  | .commit run => commit account run
  | .fail run => fail account run
  | .update run again => update account run again

def emptyAccount : Account := ⟨∅, ∅, 0, ∅, ∅, 0, ∅⟩

end Bearmail.Threads
