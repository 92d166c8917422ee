import Bearmail.Threads.Scan

/-!
# Careful steps

A message is stored under a thread that was chosen before, and a merge moves what its scan has found. So
a message can be left outside: when a message with a common reference is stored in between, and neither
has a task of its own that waits. `Careful` rules out just this, and that a task is given up. Here is the
invariant that careful steps keep, and that everything but a merge keeps it.
-/

namespace Bearmail.Threads

open Option

/-! ## Careful steps -/

structure Live (account : Account) (threadName : CheekyHash) (documentId : Nat) (info : ThreadInfo) :
    Prop where
  indexed : account.index.lookup (threadName, documentId) = some info
  stored : account.data.lookup documentId ≠ none

structure Waiting (account : Account) (id : Nat) (task : MergeTask) : Prop where
  queued : account.tasks.lookup id = some task
  due : task.failed = false
  unfinished : ∀ worker run, account.runs.lookup worker = some run → run.task = id →
    run.phase ≠ .done true

/-- A task for just these references waits, other than the one named. -/
def HasOwnTask (account : Account) (except : Option Nat) (threadName : CheekyHash)
    (references : List CheekyHash) : Prop :=
  ∃ id task, except ≠ some id ∧ Waiting account id task ∧ task.threadName = threadName ∧
    task.messageIds = references

/-- A message is stored in the thread of those with a common reference, unless a task will bring them
together. -/
def CarefulIngest (account : Account) (message : Arrival) : Prop :=
  message.schedules = true ∨ ∀ documentId info, Live account message.threadName documentId info →
    Meet message.messageIds info.references → message.threadId = some info.threadId ∨
      HasOwnTask account none message.threadName info.references

/-- A merge has found, in the thread in which it is, every message that it is to bring together, unless
that has a task of its own. -/
def CarefulCommit (account : Account) (run : MergeRun) (merge : ThreadMerge) : Prop :=
  ∀ documentId info, Live account run.threadName documentId info →
    info.threadId ≠ merge.mergeThreadId →
    Meet run.messageIds info.references ∨ info.threadId ∈ merge.keys →
    merge.Has info.threadId documentId ∨
      HasOwnTask account (some run.task) run.threadName info.references

/-- No message is left outside of its thread, and no task is given up. -/
def Careful (account : Account) : Step → Prop
  | .ingest arrival => ∀ message ∈ account.arrivals.lookup arrival, CarefulIngest account message
  | .commit worker => ∀ run ∈ account.runs.lookup worker, ∀ merge moves,
    run.phase = .read merge [] moves → CarefulCommit account run merge
  | .update worker again => ∀ run ∈ account.runs.lookup worker, run.phase = .done false → again = true
  | _ => True

/-- Messages with the same subject and a common reference are in one thread. -/
def Converged (account : Account) : Prop :=
  ∀ threadName documentId documentId' info info', Live account threadName documentId info →
    Live account threadName documentId' info' → Meet info.references info'.references →
    info.threadId = info'.threadId

def Agrees (account : Account) : Prop :=
  ∀ documentId data, account.data.lookup documentId = some data →
    (∃ threadName info, account.index.lookup (threadName, documentId) = some info) ∧
    ∀ threadName info, account.index.lookup (threadName, documentId) = some info →
      info.threadId = data.threadId

def Idle (account : Account) : Prop :=
  ∀ id task, account.tasks.lookup id = some task → task.failed = true

/-! ## Deciding -/

instance (ids ids' : List CheekyHash) : Decidable (Meet ids ids') :=
  inferInstanceAs (Decidable (∃ id ∈ ids, id ∈ ids'))

instance (merge : ThreadMerge) (threadId documentId : Nat) :
    Decidable (merge.Has threadId documentId) :=
  decidable_of_iff (∃ documents ∈ merge.lookup threadId, documentId ∈ documents) Iff.rfl

instance (account : Account) (threadName : CheekyHash) (documentId : Nat) (info : ThreadInfo) :
    Decidable (Live account threadName documentId info) :=
  decidable_of_iff (account.index.lookup (threadName, documentId) = some info ∧
    account.data.lookup documentId ≠ none) ⟨fun h => ⟨h.1, h.2⟩, fun h => ⟨h.1, h.2⟩⟩

/-- A property of all messages of a subject. -/
instance decidableLive (account : Account) (threadName : CheekyHash) {p : Nat → ThreadInfo → Prop}
    [∀ documentId info, Decidable (p documentId info)] :
    Decidable (∀ documentId info, Live account threadName documentId info → p documentId info) :=
  decidable_of_iff (∀ key info, account.index.lookup key = some info → key.1 = threadName →
      account.data.lookup key.2 ≠ none → p key.2 info)
    ⟨fun h documentId info hlive => h (threadName, documentId) info hlive.1 rfl hlive.2,
      fun h key info hinfo hname hdata => h key.2 info ⟨hname ▸ hinfo, hdata⟩⟩

instance (success : Bool) : (phase : Phase) → Decidable (phase = .done success)
  | .scan => isFalse fun h => nomatch h
  | .read .. => isFalse fun h => nomatch h
  | .done success' => decidable_of_iff (success' = success) ⟨fun h => h ▸ rfl, fun h => Phase.done.inj h⟩

/-- A property of what a worker has read. -/
instance decidableRead {p : ThreadMerge → Prop} [DecidablePred p] :
    (phase : Phase) → Decidable (∀ merge moves, phase = .read merge [] moves → p merge)
  | .read merge [] moves => decidable_of_iff (p merge)
      ⟨fun h _ _ heq => (Phase.read.inj heq).1 ▸ h, fun h => h merge moves rfl⟩
  | .read _ (_ :: _) _ => isTrue fun _ _ heq => nomatch heq
  | .scan => isTrue fun _ _ heq => nomatch heq
  | .done _ => isTrue fun _ _ heq => nomatch heq

instance (account : Account) (id : Nat) (task : MergeTask) : Decidable (Waiting account id task) :=
  decidable_of_iff (account.tasks.lookup id = some task ∧ task.failed = false ∧
      ∀ worker run, account.runs.lookup worker = some run → run.task = id → run.phase ≠ .done true)
    ⟨fun h => ⟨h.1, h.2.1, h.2.2⟩, fun h => ⟨h.1, h.2, h.3⟩⟩

instance (account : Account) (except : Option Nat) (threadName : CheekyHash)
    (references : List CheekyHash) :
    Decidable (HasOwnTask account except threadName references) :=
  decidable_of_iff (∃ id task, account.tasks.lookup id = some task ∧ except ≠ some id ∧
      Waiting account id task ∧ task.threadName = threadName ∧ task.messageIds = references)
    ⟨fun ⟨id, task, _, h⟩ => ⟨id, task, h⟩, fun ⟨id, task, h⟩ => ⟨id, task, h.2.1.queued, h⟩⟩

instance (account : Account) (message : Arrival) : Decidable (CarefulIngest account message) :=
  inferInstanceAs (Decidable (_ ∨ _))

instance (account : Account) (run : MergeRun) (merge : ThreadMerge) :
    Decidable (CarefulCommit account run merge) :=
  decidableLive account run.threadName

instance (account : Account) : (l : Step) → Decidable (Careful account l)
  | .ingest arrival =>
    inferInstanceAs (Decidable (∀ message ∈ account.arrivals.lookup arrival,
      CarefulIngest account message))
  | .commit worker =>
    inferInstanceAs (Decidable (∀ run ∈ account.runs.lookup worker, ∀ merge moves,
      run.phase = .read merge [] moves → CarefulCommit account run merge))
  | .update worker again =>
    inferInstanceAs (Decidable (∀ run ∈ account.runs.lookup worker,
      run.phase = .done false → again = true))
  | .receive .. => isTrue trivial
  | .assign _ => isTrue trivial
  | .drop _ => isTrue trivial
  | .edit .. => isTrue trivial
  | .destroy _ => isTrue trivial
  | .unindex .. => isTrue trivial
  | .start .. => isTrue trivial
  | .scan _ => isTrue trivial
  | .read _ => isTrue trivial
  | .fail _ => isTrue trivial

instance (account : Account) : Decidable (Idle account) :=
  inferInstanceAs (Decidable (∀ id task, account.tasks.lookup id = some task → task.failed = true))

/-! ## Invariants -/

/-- An id that no message that is on its way has or will get. -/
def Known (account : Account) (documentId : Nat) : Prop :=
  documentId ≤ account.lastId ∧ ∀ arrival message, account.arrivals.lookup arrival = some message →
    message.documentId ≠ some documentId

/-- Two messages are in one thread, or a task that waits has a reference in common with each. -/
def Together (account : Account) (threadName : CheekyHash) (info info' : ThreadInfo) : Prop :=
  info.threadId = info'.threadId ∨ ∃ id task, Waiting account id task ∧
    task.threadName = threadName ∧ Meet task.messageIds info.references ∧
      Meet task.messageIds info'.references

/-- What a worker that has scanned still has to read, and has read. -/
structure Reading (account : Account) (merge : ThreadMerge) (todo : List (Nat × Nat))
    (moves : List Move) : Prop where
  known : ∀ threadId documentId, merge.Has threadId documentId → Known account documentId
  planned : ∀ entry ∈ todo, entry.1 ≠ merge.mergeThreadId ∧ entry.1 ∈ merge.keys
  taken : ∀ move ∈ moves, move.group ≠ merge.mergeThreadId ∧ move.group ∈ merge.keys ∧
    move.data.threadId = move.group
  kept : ∀ threadId documentId, merge.Has threadId documentId → threadId ≠ merge.mergeThreadId →
    (threadId, documentId) ∈ todo ∨
      (∃ move ∈ moves, move.documentId = documentId ∧ move.group = threadId) ∨
      account.data.lookup documentId = none

structure Working (account : Account) (run : MergeRun) : Prop where
  ordered : run.messageIds.Pairwise (· ≤ ·)
  task_le : run.task ≤ account.lastTask
  same : ∀ task, account.tasks.lookup run.task = some task → task.threadName = run.threadName ∧
    ∀ id, id ∈ run.messageIds ↔ id ∈ task.messageIds
  reading : ∀ merge todo moves, run.phase = .read merge todo moves → Reading account merge todo moves

structure Inv (account : Account) : Prop where
  ordered : Ordered account.index
  known : ∀ threadName documentId info,
    account.index.lookup (threadName, documentId) = some info → Known account documentId
  single : ∀ threadName threadName' documentId info info',
    account.index.lookup (threadName, documentId) = some info →
    account.index.lookup (threadName', documentId) = some info' → threadName = threadName'
  agrees : Agrees account
  arrivals : ∀ arrival message, account.arrivals.lookup arrival = some message →
    message.messageIds.Pairwise (· ≤ ·) ∧ ∀ documentId, message.documentId = some documentId →
      documentId ≤ account.lastId ∧ ∀ other message', account.arrivals.lookup other = some message' →
        message'.documentId = some documentId → other = arrival
  tasks : ∀ id task, account.tasks.lookup id = some task → id ≤ account.lastTask
  runs : ∀ worker run, account.runs.lookup worker = some run → Working account run
  pairs : ∀ threadName documentId documentId' info info', Live account threadName documentId info →
    Live account threadName documentId' info' → Meet info.references info'.references →
    Together account threadName info info'

structure Later (account account' : Account) : Prop where
  known : ∀ documentId, Known account documentId → Known account' documentId
  gone : ∀ documentId, Known account documentId → account.data.lookup documentId = none →
    account'.data.lookup documentId = none
  lastTask : account.lastTask ≤ account'.lastTask
  tasks : ∀ id task', id ≤ account.lastTask → account'.tasks.lookup id = some task' →
    ∃ task, account.tasks.lookup id = some task ∧ task.threadName = task'.threadName ∧
      task.messageIds = task'.messageIds

variable {account account' : Account}

theorem Working.later {run : MergeRun} (h : Working account run) (hlater : Later account account') :
    Working account' run where
  ordered := h.ordered
  task_le := h.task_le.trans hlater.lastTask
  same := by
    intro task' htask'
    obtain ⟨task, htask, hname, hids⟩ := hlater.tasks run.task task' h.task_le htask'
    rw [← hname, ← hids]
    exact h.same task htask
  reading := by
    intro merge todo moves hphase
    have hreading := h.reading merge todo moves hphase
    refine ⟨?_, hreading.planned, hreading.taken, ?_⟩
    · exact fun threadId documentId hhas => hlater.known _ (hreading.known threadId documentId hhas)
    · intro threadId documentId hhas hne
      refine (hreading.kept threadId documentId hhas hne).imp_right fun hrest => ?_
      exact hrest.imp_right (hlater.gone documentId (hreading.known threadId documentId hhas))

theorem Inv.converged (h : Inv account) (hidle : Idle account) : Converged account := by
  intro threadName documentId documentId' info info' hlive hlive' hmeet
  rcases h.pairs _ _ _ _ _ hlive hlive' hmeet with hsame | ⟨id, task, hwaiting, -⟩
  · exact hsame
  · have hfailed := hidle id task hwaiting.queued
    rw [hwaiting.due] at hfailed
    cases hfailed

/-! ## Arrivals -/

theorem Inv.setArrivals (h : Inv account) {arrivals : AList fun _ : Nat => Arrival} {lastId : Nat}
    (hlast : account.lastId ≤ lastId)
    (hknown : ∀ arrival message, arrivals.lookup arrival = some message →
      ∀ documentId, message.documentId = some documentId → Known account documentId → False)
    (harrivals : ∀ arrival message, arrivals.lookup arrival = some message →
      message.messageIds.Pairwise (· ≤ ·) ∧ ∀ documentId, message.documentId = some documentId →
        documentId ≤ lastId ∧ ∀ other message', arrivals.lookup other = some message' →
          message'.documentId = some documentId → other = arrival) :
    Inv { account with arrivals, lastId } := by
  have hstill : ∀ documentId, Known account documentId →
      Known { account with arrivals, lastId } documentId := fun documentId hdocument =>
    ⟨hdocument.1.trans hlast, fun arrival message hmessage heq =>
      hknown arrival message hmessage documentId heq hdocument⟩
  have hlater : Later account { account with arrivals, lastId } :=
    ⟨hstill, fun _ _ hgone => hgone, le_rfl, fun _ task' _ htask' => ⟨task', htask', rfl, rfl⟩⟩
  refine ⟨h.ordered, ?_, h.single, h.agrees, harrivals, h.tasks, ?_, ?_⟩
  · exact fun threadName documentId info hinfo => hstill _ (h.known threadName documentId info hinfo)
  · exact fun worker run hrun => (h.runs worker run hrun).later hlater
  · intro threadName documentId documentId' info info' hlive hlive' hmeet
    refine (h.pairs threadName documentId documentId' info info' ⟨hlive.1, hlive.2⟩
      ⟨hlive'.1, hlive'.2⟩ hmeet).imp_right ?_
    rintro ⟨id, task, hwaiting, hrest⟩
    exact ⟨id, task, ⟨hwaiting.1, hwaiting.2, hwaiting.3⟩, hrest⟩

theorem ordered_sortIds (ids : List CheekyHash) : (sortIds ids).Pairwise (· ≤ ·) :=
  (List.pairwise_insertionSort _ ids).sublist (List.dedup_sublist _)

variable {threadName : CheekyHash} {ids : List CheekyHash} {info : ThreadInfo}

variable (h : Inv account)
include h

theorem inv_receive {arrival : Nat} {source : IngestSource} {other : Nat} {inMailbox : Nat → Bool}
    (hstep : receive account arrival source threadName ids other inMailbox = some account') :
    Inv account' := by
  unfold receive at hstep
  dsimp only at hstep
  split at hstep
  · cases hstep
  split at hstep
  · cases hstep
    exact h
  cases hstep
  refine h.setArrivals le_rfl ?_ ?_
  · intro key message hmessage documentId hdocument hknown
    rcases Tables.of_insert hmessage with ⟨-, rfl⟩ | ⟨-, hold⟩
    · cases hdocument
    · exact hknown.2 key message hold hdocument
  · intro key message hmessage
    rcases Tables.of_insert hmessage with ⟨-, rfl⟩ | ⟨-, hold⟩
    · exact ⟨ordered_sortIds ids, fun _ hdocument => nomatch hdocument⟩
    · refine ⟨(h.arrivals key message hold).1, fun documentId hdocument => ?_⟩
      obtain ⟨hle, hunique⟩ := (h.arrivals key message hold).2 documentId hdocument
      refine ⟨hle, fun key' message' hmessage' hdocument' => ?_⟩
      rcases Tables.of_insert hmessage' with ⟨-, rfl⟩ | ⟨-, hold'⟩
      · cases hdocument'
      · exact hunique key' message' hold' hdocument'

theorem inv_assign {arrival : Nat}
    (hstep : assign account arrival = some account') : Inv account' := by
  unfold assign at hstep
  split at hstep
  · cases hstep
  rename_i first hfirst
  split at hstep
  · cases hstep
  cases hstep
  refine h.setArrivals (Nat.le_succ _) ?_ ?_
  · intro key message hmessage documentId hdocument hknown
    rcases Tables.of_insert hmessage with ⟨-, rfl⟩ | ⟨-, hold⟩
    · cases hdocument
      have hle := hknown.1
      omega
    · exact hknown.2 key message hold hdocument
  · intro key message hmessage
    rcases Tables.of_insert hmessage with ⟨rfl, rfl⟩ | ⟨hne, hold⟩
    · refine ⟨(h.arrivals key first hfirst).1, fun documentId hdocument => ?_⟩
      cases hdocument
      refine ⟨le_rfl, fun key' message' hmessage' hdocument' => ?_⟩
      rcases Tables.of_insert hmessage' with ⟨heq, -⟩ | ⟨-, hold'⟩
      · exact heq
      · have hle := ((h.arrivals key' message' hold').2 _ hdocument').1
        omega
    · refine ⟨(h.arrivals key message hold).1, fun documentId hdocument => ?_⟩
      obtain ⟨hle, hunique⟩ := (h.arrivals key message hold).2 documentId hdocument
      refine ⟨Nat.le_succ_of_le hle, fun key' message' hmessage' hdocument' => ?_⟩
      rcases Tables.of_insert hmessage' with ⟨-, rfl⟩ | ⟨-, hold'⟩
      · cases hdocument'
        omega
      · exact hunique key' message' hold' hdocument'

theorem inv_drop {arrival : Nat} (hstep : drop account arrival = some account') :
    Inv account' := by
  cases hstep
  refine h.setArrivals le_rfl ?_ ?_
  · intro key message hmessage documentId hdocument hknown
    exact hknown.2 key message (Tables.of_erase hmessage).2 hdocument
  · intro key message hmessage
    obtain ⟨hids, hdocument⟩ := h.arrivals key message (Tables.of_erase hmessage).2
    refine ⟨hids, fun documentId heq => ?_⟩
    obtain ⟨hle, hunique⟩ := hdocument documentId heq
    exact ⟨hle, fun key' message' hmessage' => hunique key' message' (Tables.of_erase hmessage').2⟩

/-! ## Messages that change or go -/

theorem Inv.setData {data : AList fun _ : Nat => MessageData} {index : Index}
    (hindex : ∀ key info, index.lookup key = some info → account.index.lookup key = some info)
    (hdata : ∀ documentId message, data.lookup documentId = some message →
      (∃ before, account.data.lookup documentId = some before ∧
        before.threadId = message.threadId) ∧
      ∀ threadName, index.lookup (threadName, documentId) =
        account.index.lookup (threadName, documentId)) :
    Inv { account with data, index } := by
  have hlive : ∀ {threadName documentId info}, Live { account with data, index } threadName documentId
      info → Live account threadName documentId info := by
    intro threadName documentId info hlive
    refine ⟨hindex _ _ hlive.1, ?_⟩
    obtain ⟨message, hmessage⟩ := ne_none_iff_exists'.mp hlive.2
    obtain ⟨⟨before, hbefore, -⟩, -⟩ := hdata documentId message hmessage
    rw [hbefore]
    exact some_ne_none _
  have hlater : Later account { account with data, index } := by
    refine ⟨fun _ hknown => hknown, ?_, le_rfl, fun _ task' _ htask' => ⟨task', htask', rfl, rfl⟩⟩
    intro documentId _ hgone
    by_contra hnot
    obtain ⟨message, hmessage⟩ := ne_none_iff_exists'.mp hnot
    obtain ⟨⟨before, hbefore, -⟩, -⟩ := hdata documentId message hmessage
    rw [hgone] at hbefore
    cases hbefore
  refine ⟨?_, ?_, ?_, ?_, h.arrivals, h.tasks, ?_, ?_⟩
  · exact fun key info hinfo => h.ordered key info (hindex key info hinfo)
  · exact fun threadName documentId info hinfo => h.known threadName documentId info (hindex _ _ hinfo)
  · exact fun threadName threadName' documentId info info' hinfo hinfo' =>
      h.single threadName threadName' documentId info info' (hindex _ _ hinfo) (hindex _ _ hinfo')
  · intro documentId message hmessage
    obtain ⟨⟨before, hbefore, hthread⟩, hsame⟩ := hdata documentId message hmessage
    obtain ⟨⟨threadName, info, hinfo⟩, hagree⟩ := h.agrees documentId before hbefore
    refine ⟨⟨threadName, info, (hsame threadName).trans hinfo⟩, fun name info' hinfo' => ?_⟩
    exact (hagree name info' (hindex _ _ hinfo')).trans hthread
  · exact fun worker run hrun => (h.runs worker run hrun).later hlater
  · intro threadName documentId documentId' info info' hfirst hsecond hmeet
    refine (h.pairs threadName documentId documentId' info info' (hlive hfirst) (hlive hsecond)
      hmeet).imp_right ?_
    rintro ⟨id, task, hwaiting, hrest⟩
    exact ⟨id, task, ⟨hwaiting.1, hwaiting.2, hwaiting.3⟩, hrest⟩

theorem inv_edit {documentId other : Nat}
    (hstep : edit account documentId other = some account') : Inv account' := by
  obtain ⟨before, hbefore, rfl⟩ := map_eq_some_iff.mp hstep
  refine h.setData (fun _ _ hinfo => hinfo) fun key message hmessage => ⟨?_, fun _ => rfl⟩
  rcases Tables.of_insert hmessage with ⟨rfl, rfl⟩ | ⟨-, hold⟩
  · exact ⟨before, hbefore, rfl⟩
  · exact ⟨message, hold, rfl⟩

theorem inv_destroy {documentId : Nat}
    (hstep : destroy account documentId = some account') : Inv account' := by
  unfold destroy at hstep
  split at hstep
  · cases hstep
    exact h.setData (fun _ _ hinfo => hinfo) fun key message hmessage =>
      ⟨⟨message, (Tables.of_erase hmessage).2, rfl⟩, fun _ => rfl⟩
  · cases hstep

theorem inv_unindex {documentId : Nat}
    (hstep : unindex account threadName documentId = some account') : Inv account' := by
  unfold unindex at hstep
  split at hstep
  · cases hstep
  rename_i hgone
  cases hstep
  refine h.setData (fun _ _ hinfo => (Tables.of_erase hinfo).2) fun key message hmessage =>
    ⟨⟨message, hmessage, rfl⟩, fun name => AList.lookup_erase_ne ?_⟩
  intro heq
  rw [(Prod.mk.inj heq).2] at hmessage
  exact hgone (hmessage ▸ rfl)

omit h

/-! ## A message is stored -/

theorem Meet.symm {ids' : List CheekyHash} (h : Meet ids ids') : Meet ids' ids := by
  obtain ⟨id, hid, hid'⟩ := h
  exact ⟨id, hid', hid⟩

theorem Meet.left {ids' : List CheekyHash} (h : Meet ids ids') : Meet ids ids := by
  obtain ⟨id, hid, -⟩ := h
  exact ⟨id, hid, hid⟩

theorem Together.symm {info' : ThreadInfo} (h : Together account threadName info info') :
    Together account threadName info' info := by
  rcases h with heq | ⟨id, task, hwaiting, hname, hmeet, hmeet'⟩
  · exact Or.inl heq.symm
  · exact Or.inr ⟨id, task, hwaiting, hname, hmeet', hmeet⟩

def withMessage (account : Account) (arrival : Nat) (message : Arrival) (documentId : Nat) : Account :=
  { account with
    data := account.data.insert documentId ⟨message.threadId.getD documentId, message.other⟩
    index := account.index.insert (message.threadName, documentId)
      ⟨message.threadId.getD documentId, message.messageIds⟩
    arrivals := account.arrivals.erase arrival
    tasks := if message.schedules then account.tasks.insert (account.lastTask + 1)
      ⟨message.threadName, message.messageIds, false⟩ else account.tasks
    lastTask := if message.schedules then account.lastTask + 1 else account.lastTask }

theorem ingest_eq_some {arrival : Nat} (h : ingest account arrival = some account') :
    ∃ message documentId, account.arrivals.lookup arrival = some message ∧
      message.documentId = some documentId ∧
      account' = withMessage account arrival message documentId := by
  unfold ingest at h
  split at h
  · cases h
  rename_i message hmessage
  split at h
  · cases h
  rename_i documentId hdocument
  refine ⟨message, documentId, hmessage, hdocument, ?_⟩
  split at h
  · rename_i hschedules
    cases h
    simp [withMessage, hschedules]
  · rename_i hschedules
    cases h
    simp [withMessage, hschedules]

section Store

variable {arrival : Nat} {message : Arrival} {documentId : Nat}

theorem Inv.fresh (h : Inv account) (hmessage : account.arrivals.lookup arrival = some message)
    (hdocument : message.documentId = some documentId) :
    (∀ threadName, account.index.lookup (threadName, documentId) = none) ∧
      account.data.lookup documentId = none := by
  have hindex : ∀ threadName, account.index.lookup (threadName, documentId) = none := by
    intro threadName
    by_contra hsome
    obtain ⟨info, hinfo⟩ := ne_none_iff_exists'.mp hsome
    exact (h.known threadName documentId info hinfo).2 arrival message hmessage hdocument
  refine ⟨hindex, ?_⟩
  by_contra hsome
  obtain ⟨data, hdata⟩ := ne_none_iff_exists'.mp hsome
  obtain ⟨⟨threadName, info, hinfo⟩, -⟩ := h.agrees documentId data hdata
  rw [hindex threadName] at hinfo
  cases hinfo

theorem Inv.known_withMessage (h : Inv account)
    (hmessage : account.arrivals.lookup arrival = some message)
    (hdocument : message.documentId = some documentId) :
    Known (withMessage account arrival message documentId) documentId := by
  obtain ⟨hle, hunique⟩ := (h.arrivals arrival message hmessage).2 documentId hdocument
  refine ⟨hle, fun key message' hmessage' heq => ?_⟩
  obtain ⟨hne, hold⟩ := Tables.of_erase hmessage'
  exact hne (hunique key message' hold heq)

theorem later_withMessage (hmessage : account.arrivals.lookup arrival = some message)
    (hdocument : message.documentId = some documentId) :
    Later account (withMessage account arrival message documentId) := by
  refine ⟨?_, ?_, ?_, ?_⟩
  · intro id hknown
    exact ⟨hknown.1, fun key message' hmessage' => hknown.2 key message' (Tables.of_erase hmessage').2⟩
  · intro id hknown hgone
    have hne : id ≠ documentId := fun heq => hknown.2 arrival message hmessage (heq ▸ hdocument)
    exact (AList.lookup_insert_ne hne).trans hgone
  · rw [withMessage]
    split
    · exact Nat.le_succ _
    · exact le_rfl
  · intro id task' hle htask'
    rw [withMessage] at htask'
    split at htask'
    · rcases Tables.of_insert htask' with ⟨heq, -⟩ | ⟨-, hold⟩
      · omega
      · exact ⟨task', hold, rfl, rfl⟩
    · exact ⟨task', htask', rfl, rfl⟩

variable (h : Inv account)
include h

theorem Inv.waiting_withMessage {id : Nat} {task : MergeTask} (hwaiting : Waiting account id task) :
    Waiting (withMessage account arrival message documentId) id task := by
  refine ⟨?_, hwaiting.due, hwaiting.unfinished⟩
  have hle := h.tasks id task hwaiting.queued
  rw [withMessage]
  split
  · rw [AList.lookup_insert_ne (by omega)]
    exact hwaiting.queued
  · exact hwaiting.queued

theorem Inv.together_withMessage {info' : ThreadInfo}
    (htogether : Together account threadName info info') :
    Together (withMessage account arrival message documentId) threadName info info' :=
  htogether.imp_right fun ⟨id, task, hwaiting, hrest⟩ =>
    ⟨id, task, h.waiting_withMessage hwaiting, hrest⟩

theorem Inv.together_new (hcareful : CarefulIngest account message) {other : Nat}
    (hlive : Live account message.threadName other info)
    (hmeet : Meet message.messageIds info.references) :
    Together (withMessage account arrival message documentId) message.threadName
      ⟨message.threadId.getD documentId, message.messageIds⟩ info := by
  rcases hcareful with hschedules | hstored
  · -- its own task
    refine Or.inr ⟨account.lastTask + 1, ⟨message.threadName, message.messageIds, false⟩,
      ⟨?_, rfl, ?_⟩, rfl, hmeet.left, hmeet⟩
    · simp only [withMessage, hschedules, if_true]
      exact AList.lookup_insert _
    · intro worker run hrun heq
      have hle := (h.runs worker run hrun).task_le
      omega
  · rcases hstored other info hlive hmeet with heq | ⟨id, task, -, hwaiting, hname, hids⟩
    · refine Or.inl ?_
      rw [heq]
      rfl
    · refine Or.inr ⟨id, task, h.waiting_withMessage hwaiting, hname, ?_, ?_⟩
      · rw [hids]
        exact hmeet.symm
      · rw [hids]
        exact hmeet.symm.left

theorem inv_ingest (hcareful : ∀ message ∈ account.arrivals.lookup arrival, CarefulIngest account message)
    (hstep : ingest account arrival = some account') :
    Inv account' := by
  obtain ⟨message, documentId, hmessage, hdocument, rfl⟩ := ingest_eq_some hstep
  obtain ⟨hindex, hdata⟩ := h.fresh hmessage hdocument
  have hlater := later_withMessage hmessage hdocument
  have hlookup : ∀ {threadName id info},
      (withMessage account arrival message documentId).index.lookup (threadName, id) = some info →
      (threadName = message.threadName ∧ id = documentId ∧
        info = ⟨message.threadId.getD documentId, message.messageIds⟩) ∨
      (id ≠ documentId ∧ account.index.lookup (threadName, id) = some info) := by
    intro threadName id info hinfo
    rcases Tables.of_insert hinfo with ⟨heq, hvalue⟩ | ⟨-, hold⟩
    · exact Or.inl ⟨(Prod.mk.inj heq).1, (Prod.mk.inj heq).2, hvalue⟩
    · refine Or.inr ⟨?_, hold⟩
      rintro rfl
      rw [hindex threadName] at hold
      cases hold
  have hlive : ∀ {threadName id info}, id ≠ documentId →
      Live (withMessage account arrival message documentId) threadName id info →
      account.index.lookup (threadName, id) = some info → Live account threadName id info := by
    intro threadName id info hne hlive hold
    refine ⟨hold, fun hnone => hlive.2 ?_⟩
    exact (AList.lookup_insert_ne hne).trans hnone
  refine ⟨?_, ?_, ?_, ?_, ?_, ?_, ?_, ?_⟩
  · rintro ⟨threadName, id⟩ info hinfo
    rcases hlookup hinfo with ⟨-, -, rfl⟩ | ⟨-, hold⟩
    · exact (h.arrivals arrival message hmessage).1
    · exact h.ordered _ info hold
  · intro threadName id info hinfo
    rcases hlookup hinfo with ⟨-, rfl, -⟩ | ⟨-, hold⟩
    · exact h.known_withMessage hmessage hdocument
    · exact hlater.known id (h.known threadName id info hold)
  · intro threadName threadName' id info info' hinfo hinfo'
    rcases hlookup hinfo with ⟨hname, rfl, -⟩ | ⟨hne, hold⟩
    · rcases hlookup hinfo' with ⟨hname', -, -⟩ | ⟨hne', -⟩
      · exact hname.trans hname'.symm
      · exact absurd rfl hne'
    · rcases hlookup hinfo' with ⟨-, heq, -⟩ | ⟨-, hold'⟩
      · exact absurd heq hne
      · exact h.single threadName threadName' id info info' hold hold'
  · intro id data hdata'
    rcases Tables.of_insert hdata' with ⟨rfl, rfl⟩ | ⟨hne, hold⟩
    · refine ⟨⟨message.threadName, _, AList.lookup_insert _⟩, fun threadName info hinfo => ?_⟩
      rcases hlookup hinfo with ⟨-, -, rfl⟩ | ⟨hne, -⟩
      · rfl
      · exact absurd rfl hne
    · obtain ⟨⟨threadName, info, hinfo⟩, hagree⟩ := h.agrees id data hold
      refine ⟨⟨threadName, info, (AList.lookup_insert_ne ?_).trans hinfo⟩, fun name info' hinfo' => ?_⟩
      · exact fun heq => hne (Prod.mk.inj heq).2
      · rcases hlookup hinfo' with ⟨-, heq, -⟩ | ⟨-, hold'⟩
        · exact absurd heq hne
        · exact hagree name info' hold'
  · intro key message' hmessage'
    obtain ⟨hids, hrest⟩ := h.arrivals key message' (Tables.of_erase hmessage').2
    refine ⟨hids, fun id hid => ?_⟩
    obtain ⟨hle, hunique⟩ := hrest id hid
    exact ⟨hle, fun key' other hother => hunique key' other (Tables.of_erase hother).2⟩
  · intro id task htask
    by_cases hle : id ≤ account.lastTask
    · exact hle.trans hlater.lastTask
    · rw [withMessage] at htask ⊢
      split
      · rename_i hschedules
        rw [if_pos hschedules] at htask
        rcases Tables.of_insert htask with ⟨heq, -⟩ | ⟨-, hold⟩
        · exact heq.le
        · exact absurd (h.tasks id task hold) hle
      · rename_i hschedules
        rw [if_neg hschedules] at htask
        exact absurd (h.tasks id task htask) hle
  · exact fun worker run hrun => (h.runs worker run hrun).later hlater
  · intro threadName id id' info info' hfirst hsecond hmeet
    rcases hlookup hfirst.1 with ⟨hname, rfl, rfl⟩ | ⟨hne, hold⟩
    · rcases hlookup hsecond.1 with ⟨-, rfl, rfl⟩ | ⟨hne', hold'⟩
      · exact Or.inl rfl
      · subst hname
        exact h.together_new (hcareful message hmessage) (hlive hne' hsecond hold') hmeet
    · rcases hlookup hsecond.1 with ⟨hname, rfl, rfl⟩ | ⟨hne', hold'⟩
      · subst hname
        exact (h.together_new (hcareful message hmessage) (hlive hne hfirst hold) hmeet.symm).symm
      · exact h.together_withMessage (h.pairs threadName id id' info info' (hlive hne hfirst hold)
          (hlive hne' hsecond hold') hmeet)

omit h

end Store

end Bearmail.Threads
