import Bearmail.Queue.System

/-!
# No lost updates

Three ways to write a message meet in the store: a whole copy, the recipients of one queue, and
the recipients an administrator has modified.
-/

namespace Bearmail.Queue

open Option Function

/-- A worker's changes are all written, and what it writes without having changed it is as it was
read. -/
def Careful (s : System) : Label → Prop
  | .finish id queueName attempt => ∀ w, s.workers id queueName = some w →
    (deliverTask queueName attempt w.read).2.1 = true →
    let done := (deliverTask queueName attempt w.read).1.recipients
    ∀ (idx : Nat) (rcpt : Recipient), done[idx]? = some rcpt →
      if w.read.recipients[idx]? = done[idx]? then
        w.writes id queueName attempt rcpt → s.history.stamp id idx ≤ w.readAt
      else w.writes id queueName attempt rcpt
  | _ => True

/-- The stored recipients are those of the last changes. -/
def Reflected (s : System) : Prop :=
  ∀ id m, s.spool.messages id = some m → ∀ idx, m.recipients[idx]? = s.history.last id idx

/-- What is known of the copies that were read: a recipient that has not been changed since is the
last one. -/
structure Dated (s : System) : Prop where
  stamps : ∀ id idx, s.history.stamp id idx ≤ s.history.clock
  workers : ∀ id queueName w, s.workers id queueName = some w →
    w.readAt ≤ s.history.clock ∧ ∀ idx, s.history.stamp id idx ≤ w.readAt →
      w.read.recipients[idx]? = s.history.last id idx
  sizes : ∀ id queueName w, s.workers id queueName = some w → ∀ idx,
    (s.history.last id idx).isSome = (w.read.recipients[idx]?).isSome
  adminSizes : ∀ session admin, s.admins session = some admin → ∀ idx,
    (s.history.last admin.queueId idx).isSome = (admin.read.recipients[idx]?).isSome
  fresh : ∀ id, id ∉ s.ids → ∀ idx, s.history.last id idx = none

/-! ## Commits -/

variable {id' : QueueId} {idx : Nat}

section Commits

variable {history : History} {id : QueueId} {changed : Nat → Option Recipient}

theorem commit_last_other (hne : id' ≠ id) (idx : Nat) :
    (history.commit id changed).last id' idx = history.last id' idx := by
  simp [History.commit, hne]

theorem commit_last_changed {rcpt : Recipient} (h : changed idx = some rcpt) :
    (history.commit id changed).last id idx = some rcpt := by
  simp [History.commit, h]

theorem commit_last_kept (h : changed idx = none) :
    (history.commit id changed).last id idx = history.last id idx := by
  simp [History.commit, h]

theorem commit_last_isSome (h : ∀ idx, (changed idx).isSome = true →
    (history.last id idx).isSome = true) (id' : QueueId) (idx : Nat) :
    ((history.commit id changed).last id' idx).isSome = (history.last id' idx).isSome := by
  by_cases heq : id' = id
  · subst heq
    cases hchanged : changed idx with
    | none => rw [commit_last_kept hchanged]
    | some rcpt =>
      rw [commit_last_changed hchanged, h idx (by rw [hchanged]; rfl)]
      rfl
  · rw [commit_last_other heq]

theorem commit_stamp_le (h : ∀ id idx, history.stamp id idx ≤ history.clock) (id' : QueueId)
    (idx : Nat) : (history.commit id changed).stamp id' idx ≤ (history.commit id changed).clock := by
  simp only [History.commit]
  split
  · exact le_rfl
  · exact (h id' idx).trans (Nat.le_succ _)

theorem commit_stamp {readAt : Nat} (hread : readAt ≤ history.clock)
    (h : (history.commit id changed).stamp id' idx ≤ readAt) :
    history.stamp id' idx ≤ readAt ∧
      (history.commit id changed).last id' idx = history.last id' idx := by
  simp only [History.commit] at h ⊢
  split at h
  · omega
  · rename_i hkept
    exact ⟨h, by simp [hkept]⟩

end Commits

/-! ## Copies -/

section Copies

variable {s s' : System} {id : QueueId}

theorem dated_commit (hdated : Dated s) {changed : Nat → Option Recipient}
    (hthere : ∀ idx, (changed idx).isSome = true → (s.history.last id idx).isSome = true)
    (hhistory : s'.history = s.history.commit id changed) (hids : s'.ids = s.ids)
    (hworkers : ∀ id queueName w, s'.workers id queueName = some w → s.workers id queueName = some w)
    (hadmins : ∀ session admin, s'.admins session = some admin →
      s.admins session = some admin) : Dated s' := by
  refine ⟨fun id' idx => ?_, fun id' queueName w hw => ?_, fun id' queueName w hw idx => ?_,
    fun session admin hadmin idx => ?_, fun id' hid' idx => ?_⟩
  · rw [hhistory]
    exact commit_stamp_le hdated.stamps id' idx
  · obtain ⟨hread, hlast⟩ := hdated.workers id' queueName w (hworkers id' queueName w hw)
    rw [hhistory]
    refine ⟨hread.trans (Nat.le_succ _), fun idx hstamp => ?_⟩
    obtain ⟨hold, heq⟩ := commit_stamp hread hstamp
    rw [heq]
    exact hlast idx hold
  · rw [hhistory, commit_last_isSome hthere]
    exact hdated.sizes id' queueName w (hworkers id' queueName w hw) idx
  · rw [hhistory, commit_last_isSome hthere]
    exact hdated.adminSizes session admin (hadmins session admin hadmin) idx
  · rw [hids] at hid'
    have hnone := hdated.fresh id' hid' idx
    have hisSome := commit_last_isSome hthere id' idx
    rw [hnone] at hisSome
    rw [hhistory]
    exact not_isSome_iff_eq_none.mp (by rw [hisSome]; simp)

theorem dated_same (hdated : Dated s) (hhistory : s'.history = s.history) (hids : s'.ids = s.ids)
    (hworkers : ∀ id queueName w, s'.workers id queueName = some w → s.workers id queueName = some w)
    (hadmins : ∀ session admin, s'.admins session = some admin →
      s.admins session = some admin) : Dated s' := by
  refine ⟨?_, ?_, ?_, ?_, ?_⟩
  · rw [hhistory]
    exact hdated.stamps
  · rw [hhistory]
    exact fun id queueName w hw => hdated.workers id queueName w (hworkers id queueName w hw)
  · rw [hhistory]
    exact fun id queueName w hw => hdated.sizes id queueName w (hworkers id queueName w hw)
  · rw [hhistory]
    exact fun session admin hadmin =>
      hdated.adminSizes session admin (hadmins session admin hadmin)
  · rw [hhistory, hids]
    exact hdated.fresh

theorem dated_queue {message : Message} (hdated : Dated s) (hknown : Known s)
    (h : s.step (.queue id message) = some s') : Dated s' := by
  obtain ⟨hfresh, rfl⟩ := step_queue h
  refine ⟨fun id' idx => commit_stamp_le hdated.stamps id' idx, fun id' queueName w hw => ?_,
    fun id' queueName w hw idx => ?_, fun session admin hadmin idx => ?_, fun id' hid' idx => ?_⟩
  · obtain ⟨hread, hlast⟩ := hdated.workers id' queueName w hw
    refine ⟨hread.trans (Nat.le_succ _), fun idx hstamp => ?_⟩
    obtain ⟨hold, heq⟩ := commit_stamp hread hstamp
    rw [heq]
    exact hlast idx hold
  · have hne : id' ≠ id := fun h => hfresh (h ▸ hknown.workers id' queueName w hw)
    rw [commit_last_other hne]
    exact hdated.sizes id' queueName w hw idx
  · have hne : admin.queueId ≠ id := fun h => hfresh (h ▸ hknown.admins session admin hadmin)
    rw [commit_last_other hne]
    exact hdated.adminSizes session admin hadmin idx
  · rw [Finset.mem_insert, not_or] at hid'
    rw [commit_last_other hid'.1]
    exact hdated.fresh id' hid'.2 idx

theorem dated_start {event : Event} (hdated : Dated s) (hreflected : Reflected s)
    (h : s.step (.start event) = some s') : Dated s' := by
  obtain ⟨message, -, hmessage, -, rfl⟩ := step_start h
  refine ⟨hdated.stamps, fun id queueName w hw => ?_, fun id queueName w hw idx => ?_,
    hdated.adminSizes, hdated.fresh⟩
  · rcases setWorker_workers hw with ⟨rfl, -, heq⟩ | hw
    · cases heq
      exact ⟨le_rfl, fun idx _ => hreflected _ message hmessage idx⟩
    · exact hdated.workers id queueName w hw
  · rcases setWorker_workers hw with ⟨rfl, -, heq⟩ | hw
    · cases heq
      rw [hreflected _ message hmessage idx]
      rfl
    · exact hdated.sizes id queueName w hw idx

theorem dated_adminRead {session : Nat} (hdated : Dated s) (hreflected : Reflected s)
    (h : s.step (.adminRead session id) = some s') : Dated s' := by
  obtain ⟨message, hmessage, rfl⟩ := step_adminRead h
  refine ⟨hdated.stamps, hdated.workers, hdated.sizes, fun session' admin hadmin idx => ?_, hdated.fresh⟩
  rcases setAdmin_admins hadmin with heq | hadmin
  · cases heq
    rw [hreflected id message hmessage idx]
    rfl
  · exact hdated.adminSizes session' admin hadmin idx

end Copies

/-! ## Stored recipients -/

section Stored

variable {s : System} {id : QueueId} {queueName : QueueName} {attempt : Attempt} {w : Worker}

theorem isSome_of_length {rcpts rcpts' : List Recipient} (hlen : rcpts'.length = rcpts.length)
    (h : (rcpts[idx]?).isSome = true) : (rcpts'[idx]?).isSome = true := by
  obtain ⟨rcpt, hget⟩ := isSome_iff_exists.mp h
  obtain ⟨rcpt', hget'⟩ := getElem?_of_length hlen hget
  rw [hget']
  rfl

theorem reflected_other (hreflected : Reflected s) {m' : Option Message} (hne : id' ≠ id)
    {m : Message} {changed : Nat → Option Recipient}
    (hm : Function.update s.spool.messages id m' id' = some m) (idx : Nat) :
    m.recipients[idx]? = (s.history.commit id changed).last id' idx := by
  rw [update_of_ne hne] at hm
  rw [commit_last_other hne]
  exact hreflected id' m hm idx

theorem saved_last (hreflected : Reflected s) (hdated : Dated s)
    (hw : s.workers id queueName = some w) (hcareful : Careful s (.finish id queueName attempt))
    (hsaves : (deliverTask queueName attempt w.read).2.1 = true) {spool : Spool}
    (hsaved : s.spool.saveChanges (w.wrapper id queueName attempt) (some w.due) = some spool)
    {m : Message} (hm : spool.messages id = some m) (idx : Nat) :
    m.recipients[idx]? = (s.history.commit id (changedRcpts w.read.recipients
      (deliverTask queueName attempt w.read).1.recipients)).last id idx := by
  have hcond := hcareful w hw hsaves idx
  have hlen := (deliverTask_rcpts queueName attempt w.read).1.2
  have hlen' := saved_length hsaved hm
  obtain ⟨-, hlast⟩ := hdated.workers id queueName w hw
  have hsize := hdated.sizes id queueName w hw idx
  cases hget : (deliverTask queueName attempt w.read).1.recipients[idx]? with
  | none =>
    have hbeyond := List.getElem?_eq_none_iff.mp hget
    have hread : w.read.recipients[idx]? = none := List.getElem?_eq_none (by omega)
    rw [hread] at hsize
    rw [commit_last_kept (by rw [changedRcpts, hread, hget]; rfl), List.getElem?_eq_none (by omega)]
    exact (not_isSome_iff_eq_none.mp (by rw [hsize]; simp)).symm
  | some rcpt =>
    have hstored := saved_rcpt hsaved hm hget
    have hcond' := hcond rcpt hget
    by_cases hsame : w.read.recipients[idx]? = (deliverTask queueName attempt w.read).1.recipients[idx]?
    · rw [if_pos hsame] at hcond'
      rw [commit_last_kept (by rw [changedRcpts, if_pos hsame])]
      rcases hstored with ⟨hwrites, heq⟩ | ⟨-, current, hcurrent, heq⟩
      · -- written back as it was read
        rw [heq, ← hget, ← hsame]
        exact hlast idx (hcond' hwrites)
      · rw [heq]
        exact hreflected id current hcurrent idx
    · rw [if_neg hsame] at hcond'
      rw [commit_last_changed (by rw [changedRcpts, if_neg hsame, hget])]
      rcases hstored with ⟨-, heq⟩ | ⟨hnot, -⟩
      · exact heq
      · exact absurd hcond' hnot

theorem reflected_finish (hreflected : Reflected s) (hdated : Dated s)
    (hw : s.workers id queueName = some w)
    (hcareful : Careful s (.finish id queueName attempt)) :
    Reflected (s.finish w id queueName attempt) := by
  rcases finish_cases s w id queueName attempt with
    ⟨-, hspool, hhistory⟩ | ⟨-, -, hspool, hhistory⟩ | ⟨hsaves, hsaved, hhistory⟩
  · intro id' m hm idx
    rw [hspool] at hm
    rw [hhistory]
    by_cases heq : id' = id
    · subst heq
      cases (update_self _ _ _).symm.trans hm
    · exact hreflected id' m ((update_of_ne heq _ _).symm.trans hm) idx
  · intro id' m hm idx
    rw [hspool] at hm
    rw [hhistory]
    exact hreflected id' m hm idx
  · intro id' m hm idx
    rw [hhistory]
    by_cases heq : id' = id
    · subst heq
      exact saved_last hreflected hdated hw hcareful hsaves hsaved hm idx
    · obtain ⟨message, hspool, -⟩ := saveChanges_cases hsaved
      rw [hspool] at hm
      exact reflected_other hreflected heq hm idx

theorem dated_finish (hdated : Dated s) (hw : s.workers id queueName = some w) :
    Dated (s.finish w id queueName attempt) := by
  have hids := finish_ids s w id queueName attempt
  have hworkers : ∀ id' queueName' w', (s.finish w id queueName attempt).workers id' queueName' =
      some w' → s.workers id' queueName' = some w' := fun _ _ _ h => (finish_worker_other h).2
  have hadmins : ∀ session admin, (s.finish w id queueName attempt).admins session = some admin →
      s.admins session = some admin := by
    rw [finish_admins]
    exact fun _ _ h => h
  have hthere : ∀ idx, (changedRcpts w.read.recipients
      (deliverTask queueName attempt w.read).1.recipients idx).isSome = true →
      (s.history.last id idx).isSome = true := by
    intro idx hchanged
    rw [hdated.sizes id queueName w hw idx]
    have hdone : ((deliverTask queueName attempt w.read).1.recipients[idx]?).isSome = true := by
      unfold changedRcpts at hchanged
      split at hchanged
      · cases hchanged
      · exact hchanged
    exact isSome_of_length (deliverTask_rcpts queueName attempt w.read).1.2.symm hdone
  rcases finish_cases s w id queueName attempt with
    ⟨-, -, hhistory⟩ | ⟨-, -, -, hhistory⟩ | ⟨-, -, hhistory⟩
  · exact dated_same hdated hhistory hids hworkers hadmins
  · exact dated_same hdated hhistory hids hworkers hadmins
  · exact dated_commit hdated hthere hhistory hids hworkers hadmins

end Stored

/-! ## Administrators -/

section Admins

variable {s : System} {admin : Admin} {session : Nat} {edited : Message} {modifiedRcpts : List Nat}

theorem getElem?_mergeModified (modifiedRcpts : List Nat) {current edited : List Recipient}
    (hlen : current.length = edited.length) (idx : Nat) :
    (Spool.mergeRecipients (fun idx _ => decide (idx ∈ modifiedRcpts)) current edited)[idx]? =
      if idx ∈ modifiedRcpts then edited[idx]? else current[idx]? := by
  cases hget : edited[idx]? with
  | none =>
    have hbeyond := List.getElem?_eq_none_iff.mp hget
    rw [List.getElem?_eq_none (by rw [mergeRecipients_length]; omega),
      List.getElem?_eq_none (by omega), ite_self]
  | some rcpt =>
    obtain ⟨kept, hkept⟩ := getElem?_of_length hlen hget
    rw [getElem?_mergeRecipients hkept hget, hkept]
    by_cases hmem : idx ∈ modifiedRcpts
    · simp [hmem]
    · rw [if_neg (by simpa using hmem), if_neg hmem]

theorem reflected_adminUpdate (hreflected : Reflected s) :
    Reflected (s.adminUpdate admin session edited modifiedRcpts) := by
  rcases adminUpdate_cases s admin session edited modifiedRcpts with
    ⟨-, heq⟩ | ⟨-, heq⟩ | ⟨-, spool, hsaved, heq⟩
  · rw [heq]
    intro id m hm idx
    by_cases hid : id = admin.queueId
    · subst hid
      cases (update_self _ _ _).symm.trans hm
    · exact hreflected id m ((update_of_ne hid _ _).symm.trans hm) idx
  · rw [heq]
    exact hreflected
  · obtain ⟨current, hcurrent, hlen, rfl⟩ := saveRegistryChanges_cases hsaved
    rw [heq]
    intro id m hm idx
    by_cases hid : id = admin.queueId
    · subst hid
      cases (update_self _ _ _).symm.trans hm
      have hold : current.recipients[idx]? = s.history.last admin.queueId idx :=
        hreflected _ current hcurrent idx
      refine (getElem?_mergeModified modifiedRcpts hlen idx).trans ?_
      by_cases hmem : idx ∈ modifiedRcpts
      · rw [if_pos hmem]
        cases hget : edited.recipients[idx]? with
        | none =>
          have hbeyond := List.getElem?_eq_none_iff.mp hget
          have hlen' : current.recipients.length = edited.recipients.length := hlen
          rw [commit_last_kept (by rw [hget, ite_self]), ← hold,
            List.getElem?_eq_none (l := current.recipients) (by omega)]
          exact hget
        | some rcpt =>
          rw [commit_last_changed (by rw [if_pos hmem, hget])]
          exact hget
      · rw [if_neg hmem, commit_last_kept (by rw [if_neg hmem]), ← hold]
    · exact reflected_other hreflected hid hm idx

theorem dated_adminUpdate (hdated : Dated s) (hadmin : s.admins session = some admin)
    (hlen : edited.recipients.length = admin.read.recipients.length) :
    Dated (s.adminUpdate admin session edited modifiedRcpts) := by
  have hclear : ∀ session' admin', (s.setAdmin session none).admins session' = some admin' →
      s.admins session' = some admin' := by
    intro session' admin' h
    rcases setAdmin_admins h with h | h
    · cases h
    · exact h
  rcases adminUpdate_cases s admin session edited modifiedRcpts with
    ⟨-, heq⟩ | ⟨-, heq⟩ | ⟨-, spool, hsaved, heq⟩
  · rw [heq]
    exact dated_same hdated rfl rfl (fun _ _ _ h => h) hclear
  · rw [heq]
    exact dated_same hdated rfl rfl (fun _ _ _ h => h) hclear
  · rw [heq]
    refine dated_commit hdated (fun idx hchanged => ?_) rfl rfl (fun _ _ _ h => h) hclear
    rw [hdated.adminSizes session admin hadmin idx]
    have hedited : (edited.recipients[idx]?).isSome = true := by
      split at hchanged
      · exact hchanged
      · cases hchanged
    exact isSome_of_length hlen.symm hedited

end Admins

theorem updates_step {s s' : System} {label : Label} (hreflected : Reflected s) (hdated : Dated s)
    (hknown : Known s) (hcareful : Careful s label) (h : s.step label = some s') :
    Reflected s' ∧ Dated s' := by
  cases label with
  | queue id message =>
    refine ⟨?_, dated_queue hdated hknown h⟩
    obtain ⟨hfresh, rfl⟩ := step_queue h
    intro id' m hm idx
    by_cases heq : id' = id
    · subst heq
      cases (update_self _ _ _).symm.trans hm
      cases hget : message.recipients[idx]? with
      | none => rw [commit_last_kept hget, hdated.fresh id' hfresh idx]
      | some rcpt => rw [commit_last_changed hget]
    · exact reflected_other hreflected heq hm idx
  | start event =>
    refine ⟨?_, dated_start hdated hreflected h⟩
    obtain ⟨message, -, -, -, rfl⟩ := step_start h
    exact hreflected
  | drop event =>
    obtain ⟨-, rfl⟩ := step_drop h
    exact ⟨hreflected, dated_same hdated rfl rfl (fun _ _ _ h => h) fun _ _ h => h⟩
  | finish id queueName attempt =>
    obtain ⟨w, hw, rfl⟩ := step_finish h
    exact ⟨reflected_finish hreflected hdated hw hcareful, dated_finish hdated hw⟩
  | adminRead session id =>
    refine ⟨?_, dated_adminRead hdated hreflected h⟩
    obtain ⟨message, -, rfl⟩ := step_adminRead h
    exact hreflected
  | adminUpdate session recipients envId priority modifiedRcpts =>
    obtain ⟨admin, hadmin, hlen, rfl⟩ := step_adminUpdate h
    exact ⟨reflected_adminUpdate hreflected, dated_adminUpdate hdated hadmin hlen⟩
  | adminDestroy session =>
    obtain ⟨admin, hadmin, rfl⟩ := step_adminDestroy h
    refine ⟨fun id m hm idx => ?_, dated_same hdated rfl rfl (fun _ _ _ h => h) ?_⟩
    · by_cases heq : id = admin.queueId
      · subst heq
        cases (update_self _ _ _).symm.trans hm
      · exact hreflected id m ((update_of_ne heq _ _).symm.trans hm) idx
    · intro session' admin' h
      rcases setAdmin_admins h with h | h
      · cases h
      · exact h

/-- In every run of careful saves each stored recipient is the last committed change of it. -/
theorem updates_kept (labels : List Label)
    (hcareful : Runs.Along System.step Careful System.empty labels) (s : System)
    (hrun : System.run labels = some s) (id : QueueId) (m : Message)
    (hm : s.spool.messages id = some m) (idx : Nat) :
    m.recipients[idx]? = s.history.last id idx := by
  have hempty : Reflected System.empty ∧ Dated System.empty ∧ Known System.empty :=
    ⟨fun _ _ h => (by cases h),
      ⟨fun _ _ => le_rfl, fun _ _ _ h => (by cases h), fun _ _ _ h => (by cases h),
        fun _ _ h => (by cases h), fun _ _ _ => rfl⟩,
      ⟨fun _ _ h => (by cases h), fun _ _ _ h => (by cases h), fun _ _ h => by cases h⟩⟩
  have hinv : Reflected s ∧ Dated s ∧ Known s :=
    Runs.run_invariant (fun s => Reflected s ∧ Dated s ∧ Known s)
      (fun _ _ _ hinv hcond hstep =>
        have hnext := updates_step hinv.1 hinv.2.1 hinv.2.2 hcond hstep
        ⟨hnext.1, hnext.2, known_step hinv.2.2 hstep⟩)
      hcareful hempty hrun
  exact hinv.1 id m hm idx

/-- Two queues at work on one message; each changes its recipient. -/
def carefulRun : List Label :=
  [.queue 1 (newMessage [newRecipient "a@x.org" "local", newRecipient "b@y.org" "remote"] []),
    .start ⟨0, 1, "local"⟩, .start ⟨0, 1, "remote"⟩,
    .finish 1 "local" (attemptWith 10 "local" 0 delivered),
    .finish 1 "remote" (attemptWith 10 "remote" 1 greylisted)]

theorem updates_kept_carefulRun :
    Runs.Along System.step Careful System.empty carefulRun ∧
      ∃ s m, System.run carefulRun = some s ∧ s.spool.messages 1 = some m ∧
        ∀ idx, m.recipients[idx]? = s.history.last 1 idx := by
  have hcareful : Runs.Along System.step Careful System.empty carefulRun := by
    refine ⟨trivial, fun s₁ h₁ => ⟨trivial, fun s₂ h₂ => ⟨trivial, fun s₃ h₃ =>
      ⟨fun w hw _ idx rcpt hget => ?_, fun s₄ h₄ => ⟨fun w hw _ idx rcpt hget => ?_,
        fun _ _ => trivial⟩⟩⟩⟩⟩
    · cases h₁
      cases h₂
      cases h₃
      cases hw
      rcases idx with _ | _ | idx
      · rw [if_neg (by decide)]
        cases hget
        exact Or.inr (by decide)
      · rw [if_pos (by decide)]
        intro _
        decide
      · cases hget
    · cases h₁
      cases h₂
      cases h₃
      cases h₄
      cases hw
      rcases idx with _ | _ | idx
      · rw [if_pos (by decide)]
        cases hget
        rintro (h | h)
        all_goals exact absurd h (by decide)
      · rw [if_neg (by decide)]
        cases hget
        exact Or.inr (by decide)
      · cases hget
  have hrun : ((System.run carefulRun).bind fun s => s.spool.messages 1).isSome = true := by
    decide
  obtain ⟨m, hm⟩ := isSome_iff_exists.mp hrun
  obtain ⟨s, hs, hm⟩ := bind_eq_some_iff.mp hm
  exact ⟨hcareful, s, m, hs, hm, updates_kept carefulRun hcareful s hs 1 m hm⟩

/-- A result is lost when the attempt moves its recipient to another queue while that queue has
work left; and a change of an administrator is lost when a worker that read the message before
writes it as a whole. -/
theorem updates_lost :
    ((System.run [
      .queue 1 (newMessage [newRecipient "a@x.org" "local", newRecipient "b@y.org" "remote"] []),
      .start ⟨0, 1, "local"⟩,
      .finish 1 "local" (attemptWith 10 "remote" 0 greylisted)]).bind fun s =>
        (s.spool.messages 1).map fun m =>
          (decide (m.recipients[0]? = some (newRecipient "a@x.org" "local")),
            (s.history.last 1 0).map fun rcpt => rcpt.queue)) = some (true, some "remote") ∧
    ((System.run [
      .queue 1 (newMessage [newRecipient "a@x.org" "local",
        { newRecipient "b@x.org" "local" with retry := ⟨500, 0⟩ }] []),
      .start ⟨0, 1, "local"⟩, .adminRead 0 1,
      .adminUpdate 0 [newRecipient "a@x.org" "local",
        { newRecipient "b@x.org" "local" with retry := ⟨900, 0⟩ }] none 0 [1],
      .finish 1 "local" (attemptWith 10 "local" 0 delivered)]).bind fun s =>
        (s.spool.messages 1).map fun m =>
          (m.recipients[1]?.map fun rcpt => rcpt.retry.due,
            (s.history.last 1 1).map fun rcpt => rcpt.retry.due)) =
      some (some 500, some 900) := by
  decide

end Bearmail.Queue
