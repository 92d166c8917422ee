import Bearmail.Queue.System
import Mathlib.Algebra.BigOperators.Group.Finset.Basic
import Mathlib.Tactic.Ring

/-!
# Quotas

What the quota counters say, against the reservations of the stored messages.
-/

namespace Bearmail.Queue

inductive Counter where
  | count
  | size
  deriving DecidableEq

def Spool.counter (spool : Spool) (key : List UInt8) : Counter → Int
  | .count => spool.quotaCount key
  | .size => spool.quotaSize key

/-- What some entries of a message of a size reserve. -/
def weigh (key : List UInt8) (size : Nat) (entries : List Metadata) : Counter → Int
  | .count => countEntries key entries
  | .size => size * sizeEntries key entries

def held (key : List UInt8) (c : Counter) : Option Message → Int
  | none => 0
  | some m => weigh key m.size m.metadata c

/-- Each counter is the sum of what the stored messages reserve. -/
def Balanced (s : System) : Prop :=
  ∀ key c, s.spool.counter key c = ∑ id ∈ s.ids, held key c (s.spool.messages id)

def Reserved (s : System) (id : QueueId) (copy : Message) : Prop :=
  ∃ m, s.spool.messages id = some m ∧ m.metadata = copy.metadata ∧ m.size = copy.size

/-- Saves that merge release nothing; what is written or removed as a whole is still stored with
the reservations that were read. -/
def Accounted (s : System) : Label → Prop
  | .finish id queueName attempt => ∀ w, s.workers id queueName = some w →
    if (deliverTask queueName attempt w.read).2.1 = true ∧
        (w.wrapper id queueName attempt).isMultiQueue = true then
      (releaseQuota (deliverTask queueName attempt w.read).1).2 = []
    else Reserved s id w.read
  | .adminUpdate session recipients envId priority _ => ∀ admin, s.admins session = some admin →
    if { admin.read with recipients, envId, priority }.hasPending = true then
      (releaseQuota { admin.read with recipients, envId, priority }).2 = []
    else Reserved s admin.queueId admin.read
  | .adminDestroy session => ∀ admin, s.admins session = some admin → Reserved s admin.queueId admin.read
  | _ => True

/-! ## Batches -/

section Batches

variable {spool : Spool} {key : List UInt8} {c : Counter}

theorem addQuota_counter (spool : Spool) (key : List UInt8) (c : Counter) (sign : Int)
    (size : Nat) (entries : List Metadata) :
    (spool.addQuota sign size entries).counter key c =
      spool.counter key c + sign * weigh key size entries c := by
  cases c with
  | count | size => rfl

@[simp]
theorem setMessage_counter (spool : Spool) (id : QueueId) (m : Option Message) :
    (spool.setMessage id m).counter = spool.counter := by
  funext key c
  cases c with
  | count | size => rfl

@[simp]
theorem setEvents_counter (spool : Spool) (id : QueueId) (events : List (QueueName × Nat)) :
    (spool.setEvents id events).counter = spool.counter := by
  funext key c
  cases c with
  | count | size => rfl

@[simp]
theorem clearEvents_counter (spool : Spool) (id : QueueId) (events : List (QueueName × Nat)) :
    (spool.clearEvents id events).counter = spool.counter := by
  funext key c
  cases c with
  | count | size => rfl

theorem weigh_nil (key : List UInt8) (size : Nat) (c : Counter) : weigh key size [] c = 0 := by
  cases c with
  | count => rfl
  | size => simp [weigh, sizeEntries]

theorem weigh_filter (key : List UInt8) (size : Nat) (entries : List Metadata)
    (p : Metadata → Bool) (c : Counter) :
    weigh key size entries c = weigh key size (entries.filter p) c +
      weigh key size (entries.filter fun entry => !p entry) c := by
  cases c with
  | count =>
    simp only [weigh, countEntries]
    rw [List.countP_eq_countP_filter_add entries _ p, Nat.cast_add]
  | size =>
    simp only [weigh, sizeEntries]
    rw [List.countP_eq_countP_filter_add entries _ p, Nat.cast_add, mul_add]

theorem releaseQuota_size (m : Message) : (releaseQuota m).1.size = m.size := by
  rw [releaseQuota_eq]

theorem releaseQuota_weigh (m : Message) (key : List UInt8) (c : Counter) :
    weigh key m.size (releaseQuota m).1.metadata c +
      weigh key m.size (releaseQuota m).2 c = weigh key m.size m.metadata c := by
  unfold releaseQuota
  split
  · simp [weigh_nil]
  · dsimp only
    split
    · simp [weigh_nil]
    · rw [weigh_filter key m.size m.metadata
        (fun entry => entry.releasedBy (quotaIds 0 [] m.recipients)), add_comm]

theorem reschedule_counter (spool : Spool) (w : MessageWrapper)
    (prevEvents : List (QueueName × Nat)) (key : List UInt8) (c : Counter) :
    (spool.reschedule w prevEvents).counter key c =
      spool.counter key c - weigh key w.message.size (releaseQuota w.message).2 c := by
  simp [Spool.reschedule, addQuota_counter, sub_eq_add_neg]

theorem removed_counter (spool : Spool) (w : MessageWrapper) (prevEvent : Option Nat)
    (key : List UInt8) (c : Counter) :
    (spool.remove w prevEvent).counter key c =
      spool.counter key c - weigh key w.message.size w.message.metadata c := by
  simp [Spool.remove, addQuota_counter, sub_eq_add_neg]

theorem removedRegistry_counter (spool : Spool) (w : MessageWrapper)
    (prevEvents : List (QueueName × Nat)) (key : List UInt8) (c : Counter) :
    (spool.removeRegistry w prevEvents).counter key c =
      spool.counter key c - weigh key w.message.size w.message.metadata c := by
  simp [Spool.removeRegistry, addQuota_counter, sub_eq_add_neg]

end Batches

/-! ## Steps -/

variable {id : QueueId}

section Steps

variable {s s' : System}

/-- A batch that writes one message keeps the balance, if the counters change by as much as the
message. -/
theorem balanced_write (hbalanced : Balanced s) (hid : id ∈ s.ids) {m : Option Message}
    (hids : s'.ids = s.ids) (hmessages : s'.spool.messages = Function.update s.spool.messages id m)
    (hcounter : ∀ key c, s'.spool.counter key c =
      s.spool.counter key c - held key c (s.spool.messages id) + held key c m) : Balanced s' := by
  intro key c
  have hrest : ∑ id' ∈ s.ids.erase id, held key c (s'.spool.messages id') =
      ∑ id' ∈ s.ids.erase id, held key c (s.spool.messages id') := by
    refine Finset.sum_congr rfl fun id' hid' => ?_
    rw [hmessages, Function.update_of_ne (Finset.ne_of_mem_erase hid')]
  rw [hcounter, hbalanced key c, hids, ← Finset.add_sum_erase _ _ hid,
    ← Finset.add_sum_erase _ _ hid, hrest, hmessages, Function.update_self]
  ring

theorem held_reserved {copy : Message} (h : Reserved s id copy) (key : List UInt8) (c : Counter) :
    held key c (s.spool.messages id) = weigh key copy.size copy.metadata c := by
  obtain ⟨m, hm, hmetadata, hsize⟩ := h
  rw [hm, held, hmetadata, hsize]

theorem balanced_queue {message : Message} (hbalanced : Balanced s)
    (h : s.step (.queue id message) = some s') : Balanced s' := by
  obtain ⟨hfresh, rfl⟩ := step_queue h
  intro key c
  have hcounter : (s.spool.queue id message).counter key c =
      s.spool.counter key c + weigh key message.size message.metadata c := by
    simp [Spool.queue, addQuota_counter]
  have hrest : ∑ id' ∈ s.ids, held key c ((s.spool.queue id message).messages id') =
      ∑ id' ∈ s.ids, held key c (s.spool.messages id') := by
    refine Finset.sum_congr rfl fun id' hid' => ?_
    have hne : id' ≠ id := fun h => hfresh (h ▸ hid')
    congr 1
    exact Function.update_of_ne hne _ _
  have hnew : (s.spool.queue id message).messages id = some message := Function.update_self _ _ _
  rw [Finset.sum_insert hfresh, hrest, hnew, hcounter, hbalanced key c, add_comm]
  rfl

theorem balanced_finish {queueName : QueueName} {attempt : Attempt} {w : Worker}
    (hbalanced : Balanced s) (hknown : Known s) (hw : s.workers id queueName = some w)
    (haccounted : Accounted s (.finish id queueName attempt)) :
    Balanced (s.finish w id queueName attempt) := by
  have hid := hknown.workers id queueName w hw
  have hcond := haccounted w hw
  have hsame := (deliverTask_rcpts queueName attempt w.read).1.1
  have hsize : (deliverTask queueName attempt w.read).1.size = w.read.size := by rw [hsame]
  have hmetadata : (deliverTask queueName attempt w.read).1.metadata = w.read.metadata := by
    rw [hsame]
  have hids := finish_ids s w id queueName attempt
  rcases finish_cases s w id queueName attempt with
    ⟨hsaves, hspool, -⟩ | ⟨-, -, hspool, -⟩ | ⟨hsaves, hsaved, -⟩
  · rw [if_neg (by rw [hsaves]; simp)] at hcond
    refine balanced_write hbalanced hid hids (by rw [hspool]; rfl) fun key c => ?_
    rw [hspool, removed_counter, held_reserved hcond]
    simp [Worker.wrapper, hsize, hmetadata, held]
  · intro key c
    rw [hspool, hids]
    exact hbalanced key c
  · obtain ⟨message, heq, hmessage⟩ := saveChanges_cases hsaved
    have hcounter : ∀ key c, (s.finish w id queueName attempt).spool.counter key c =
        s.spool.counter key c - weigh key w.read.size
          (releaseQuota (deliverTask queueName attempt w.read).1).2 c := by
      intro key c
      rw [heq, setMessage_counter, reschedule_counter, ← hsize]
      rfl
    rcases hmessage with ⟨hmulti, current, hcurrent, -, rfl⟩ | ⟨hsingle, rfl⟩
    · rw [if_pos ⟨hsaves, hmulti⟩] at hcond
      refine balanced_write hbalanced hid hids (by rw [heq]; rfl) fun key c => ?_
      have hcurrent' : s.spool.messages id = some current := hcurrent
      rw [hcounter, hcond, weigh_nil, hcurrent']
      simp only [held]
      ring
    · rw [if_neg (by rw [hsingle]; simp)] at hcond
      refine balanced_write hbalanced hid hids (by rw [heq]; rfl) fun key c => ?_
      have hweigh := releaseQuota_weigh (deliverTask queueName attempt w.read).1 key c
      rw [hsize, hmetadata] at hweigh
      rw [hcounter, held_reserved hcond, ← hweigh]
      simp only [held, Worker.wrapper, releaseQuota_size, hsize]
      ring

theorem balanced_adminUpdate {admin : Admin} {session : Nat} {recipients : List Recipient}
    {envId : Option String} {priority : Int} {modifiedRcpts : List Nat} (hbalanced : Balanced s)
    (hknown : Known s) (hadmin : s.admins session = some admin)
    (haccounted : Accounted s (.adminUpdate session recipients envId priority modifiedRcpts)) :
    Balanced (s.adminUpdate admin session { admin.read with recipients, envId, priority }
      modifiedRcpts) := by
  have hid := hknown.admins session admin hadmin
  have hcond := haccounted admin hadmin
  generalize hedited : { admin.read with recipients, envId, priority } = edited at hcond ⊢
  have hsize : edited.size = admin.read.size := by rw [← hedited]
  have hmetadata : edited.metadata = admin.read.metadata := by rw [← hedited]
  rcases adminUpdate_cases s admin session edited modifiedRcpts with
    ⟨hpending, heq⟩ | ⟨-, heq⟩ | ⟨hpending, spool, hsaved, heq⟩
  · rw [if_neg (by rw [hpending]; simp)] at hcond
    rw [heq]
    refine balanced_write hbalanced hid rfl rfl fun key c => ?_
    rw [removedRegistry_counter, held_reserved hcond]
    simp [MessageWrapper.new, hsize, hmetadata, held]
  · rw [heq]
    exact hbalanced
  · rw [if_pos hpending] at hcond
    obtain ⟨current, hcurrent, -, rfl⟩ := saveRegistryChanges_cases hsaved
    rw [heq]
    refine balanced_write hbalanced hid rfl rfl fun key c => ?_
    have hcurrent' : s.spool.messages admin.queueId = some current := hcurrent
    simp only [setMessage_counter, reschedule_counter, MessageWrapper.new, hcond, weigh_nil,
      hcurrent', held]
    ring

theorem balanced_step {label : Label} (hbalanced : Balanced s) (hknown : Known s)
    (haccounted : Accounted s label) (h : s.step label = some s') : Balanced s' := by
  cases label with
  | queue id message => exact balanced_queue hbalanced h
  | start event =>
    obtain ⟨message, -, -, -, rfl⟩ := step_start h
    exact hbalanced
  | drop event =>
    obtain ⟨-, rfl⟩ := step_drop h
    intro key c
    exact hbalanced key c
  | finish id queueName attempt =>
    obtain ⟨w, hw, rfl⟩ := step_finish h
    exact balanced_finish hbalanced hknown hw haccounted
  | adminRead session id =>
    obtain ⟨message, -, rfl⟩ := step_adminRead h
    exact hbalanced
  | adminUpdate session recipients envId priority modifiedRcpts =>
    obtain ⟨admin, hadmin, -, rfl⟩ := step_adminUpdate h
    exact balanced_adminUpdate hbalanced hknown hadmin haccounted
  | adminDestroy session =>
    obtain ⟨admin, hadmin, rfl⟩ := step_adminDestroy h
    have hcond := haccounted admin hadmin
    refine balanced_write hbalanced (hknown.admins session admin hadmin) rfl rfl fun key c => ?_
    rw [removed_counter, held_reserved hcond]
    simp [MessageWrapper.new, held]

end Steps

/-- In every run whose steps are accounted for, each counter is what the stored messages reserve,
and nothing when no message is stored. -/
theorem quotas_balanced (labels : List Label)
    (haccounted : Runs.Along System.step Accounted System.empty labels) (s : System)
    (hrun : System.run labels = some s) :
    (∀ key c, s.spool.counter key c = ∑ id ∈ s.ids, held key c (s.spool.messages id)) ∧
    ((∀ id, s.spool.messages id = none) → ∀ key c, s.spool.counter key c = 0) := by
  have hempty : Balanced System.empty ∧ Known System.empty := by
    refine ⟨fun key c => ?_, ⟨fun _ _ h => (by cases h), fun _ _ _ h => (by cases h),
      fun _ _ h => by cases h⟩⟩
    cases c with
    | count | size => rfl
  have hinv : Balanced s ∧ Known s :=
    Runs.run_invariant (fun s => Balanced s ∧ Known s)
      (fun _ _ _ hinv hcond hstep =>
        ⟨balanced_step hinv.1 hinv.2 hcond hstep, known_step hinv.2 hstep⟩)
      haccounted hempty hrun
  refine ⟨hinv.1, fun hnone key c => ?_⟩
  rw [hinv.1 key c]
  refine Finset.sum_eq_zero fun id _ => ?_
  rw [hnone]
  rfl

def quotaDelivered : List Label :=
  [.queue 1 (newMessage [newRecipient "a@x.org" "local"] [.queueCount [7] 1, .queueSize [7] 1]),
    .start ⟨0, 1, "local"⟩, .finish 1 "local" (attemptWith 10 "local" 0 delivered)]

theorem quotas_balanced_quotaDelivered :
    Runs.Along System.step Accounted System.empty quotaDelivered ∧
      ∃ s, System.run quotaDelivered = some s ∧ (s.spool.messages 1).isNone = true ∧
        ∀ key c, s.spool.counter key c = ∑ id ∈ s.ids, held key c (s.spool.messages id) := by
  have haccounted : Runs.Along System.step Accounted System.empty quotaDelivered := by
    refine ⟨trivial, fun s hs => ⟨trivial, fun s' hs' => ⟨fun w hw => ?_, fun _ _ => trivial⟩⟩⟩
    cases hs
    cases hs'
    cases hw
    exact ⟨_, rfl, rfl, rfl⟩
  have hrun : ((System.run quotaDelivered).map fun s => (s.spool.messages 1).isNone) =
      some true := by decide
  obtain ⟨s, hs, hnone⟩ := Option.map_eq_some_iff.mp hrun
  exact ⟨haccounted, s, hs, hnone, (quotas_balanced quotaDelivered haccounted s hs).1⟩

/-- A recipient with a quota is delivered while another queue has work left: its reservation is
released by the save, kept by the merge, and released again by the removal. -/
theorem quota_released_twice :
    ((System.run [.queue 1 (newMessage [newRecipient "a@x.org" "local",
        newRecipient "b@y.org" "remote"] [.queueCount [7] 1]),
      .start ⟨0, 1, "local"⟩, .finish 1 "local" (attemptWith 10 "local" 0 delivered),
      .start ⟨0, 1, "remote"⟩, .finish 1 "remote" (attemptWith 20 "remote" 1 delivered)]).map
        fun s => ((s.spool.messages 1).isNone, s.spool.quotaCount [7])) = some (true, -1) := by
  decide

end Bearmail.Queue
