import Bearmail.Imap.CopyMove

/-!
# Copies within an account

The loop of `copy_move` over the messages of the id map, when source and destination are
mailboxes of one account. Each message has an `Outcome`: it keeps the UID it has in the
destination, or gets the next one.
-/

namespace Bearmail.Imap

open Positions
open List Option

/-! ## Messages and their mailboxes -/

variable {data : MessageData} {entry : Nat × ImapId}

theorem MessageData.messageUid_eq_some {mailbox uid : Nat} (h : data.messageUid mailbox = some uid) :
    ⟨mailbox, uid⟩ ∈ data.mailboxes := by
  obtain ⟨m, hm, rfl⟩ := map_eq_some_iff.mp h
  have hid : m.mailboxId = mailbox := by simpa using List.find?_some hm
  rw [← hid]
  exact List.mem_of_find?_eq_some hm

theorem MessageData.messageUid_of_mem {m : UidMailbox}
    (hdistinct : (data.mailboxes.map UidMailbox.mailboxId).Nodup) (h : m ∈ data.mailboxes) :
    data.messageUid m.mailboxId = some m.uid := by
  rw [messageUid, map_eq_some_iff]
  have hsome : (data.mailboxes.find? fun m' => decide (m'.mailboxId = m.mailboxId)).isSome := by
    rw [List.find?_isSome]
    exact ⟨m, h, by simp⟩
  obtain ⟨m', hm'⟩ := isSome_iff_exists.mp hsome
  refine ⟨m', hm', ?_⟩
  have hid : m'.mailboxId = m.mailboxId := by simpa using List.find?_some hm'
  rw [inj_on_of_nodup_map hdistinct (List.mem_of_find?_eq_some hm') h hid]

theorem MessageData.messageUid_eq_none {mailbox : Nat} :
    data.messageUid mailbox = none ↔ ∀ m ∈ data.mailboxes, m.mailboxId ≠ mailbox := by
  simp [messageUid, List.find?_eq_none]

/-- The mailboxes of a message that is added to one and, when moved, taken from another. -/
theorem MessageData.mailboxes_added {src dest : Nat} {isMove : Bool}
    (hdest : data.messageUid dest = none) (hne : src ≠ dest) :
    (if isMove then (data.addMailbox ⟨dest, 0⟩).removeMailbox src
      else data.addMailbox ⟨dest, 0⟩).mailboxes =
      (data.mailboxes.filter fun m => !isMove || decide (m.mailboxId ≠ src)) ++ [⟨dest, 0⟩] := by
  have hnot : data.hasMailboxId dest = false := by
    rw [hasMailboxId, List.any_eq_false]
    intro m hm
    simpa using messageUid_eq_none.mp hdest m hm
  cases isMove with
  | false => simp [addMailbox, hnot]
  | true => simp [addMailbox, removeMailbox, hnot, Ne.symm hne]

theorem MessageData.setUids_append_go {ms : List UidMailbox} {mailbox uid : Nat}
    (h : ∀ m ∈ ms, 0 < m.uid) :
    setUids.go (ms ++ [⟨mailbox, 0⟩]) [uid] = ms ++ [⟨mailbox, uid⟩] := by
  induction ms with
  | nil => rfl
  | cons m ms ih =>
    have hm : m.uid ≠ 0 := Nat.ne_of_gt (h m mem_cons_self)
    rw [cons_append, setUids.go, if_neg hm, ih fun m hm => h m (mem_cons_of_mem _ hm)]
    rfl

/-! ## One message -/

/-- What becomes of a message: its data, its UID in the destination, and whether that UID
is a new one. -/
structure Outcome where
  entry : Nat × ImapId
  data : MessageData
  uid : Nat
  isNew : Bool

variable (os : List Outcome)

section Same

variable (messages : Nat → Option MessageData) (src dest : Nat) (isMove : Bool)

/-- The outcome for one entry of the id map, when the destination has assigned `last` UIDs. -/
def outcome (last : Nat) (entry : Nat × ImapId) : Option Outcome :=
  match messages entry.1 with
  | none => none
  | some data =>
    if data.hasMailboxId src then
      let kept := data.mailboxes.filter fun m => !isMove || decide (m.mailboxId ≠ src)
      match data.messageUid dest with
      | some uid => some ⟨entry, ⟨kept⟩, uid, false⟩
      | none => some ⟨entry, ⟨kept ++ [⟨dest, last + 1⟩]⟩, last + 1, true⟩
    else none

def Outcome.last (last : Nat) (o : Outcome) : Nat := if o.isNew then last + 1 else last

def outcomes : Nat → List (Nat × ImapId) → List Outcome
  | _, [] => []
  | last, entry :: entries =>
    match outcome messages src dest isMove last entry with
    | none => outcomes last entries
    | some o => o :: outcomes (o.last last) entries

def CopyRun.add (run : CopyRun) (o : Outcome) : CopyRun where
  uidCounter := Function.update run.uidCounter dest (o.last (run.uidCounter dest))
  changes := if o.isNew || isMove then run.changes ++ [(o.entry.1, o.data)] else run.changes
  vanished := if isMove then run.vanished ++ [(src, o.entry.2.uid)] else run.vanished
  copiedIds := run.copiedIds ++ [(o.entry.2.uid, o.uid)]
  didMove := run.didMove || isMove

variable {messages src dest isMove}

theorem copyStep_eq (hne : src ≠ dest)
    (hassigned : ∀ id data, messages id = some data → ∀ m ∈ data.mailboxes, 0 < m.uid)
    (run : CopyRun) (entry : Nat × ImapId) :
    copyStep messages src dest isMove run entry =
      match outcome messages src dest isMove (run.uidCounter dest) entry with
      | none => run
      | some o => run.add src dest isMove o := by
  unfold copyStep outcome
  cases hdata : messages entry.1 with
  | none => rfl
  | some data =>
    by_cases hsrc : data.hasMailboxId src = true
    · simp only [hsrc, if_true]
      cases huid : data.messageUid dest with
      | some uid =>
        cases isMove with
        | false => simp [CopyRun.add, Outcome.last]
        | true => simp [CopyRun.add, Outcome.last, MessageData.removeMailbox]
      | none =>
        have hkept : ∀ m ∈ data.mailboxes.filter fun m => !isMove || decide (m.mailboxId ≠ src),
            0 < m.uid := fun m hm => hassigned entry.1 data hdata m (mem_of_mem_filter hm)
        have hadded := @MessageData.mailboxes_added data src dest isMove huid hne
        have hunassigned : (if isMove then (data.addMailbox ⟨dest, 0⟩).removeMailbox src
            else data.addMailbox ⟨dest, 0⟩).unassigned = [dest] := by
          have hnil : (data.mailboxes.filter fun m => !isMove || decide (m.mailboxId ≠ src)).filter
              (fun m => decide (m.uid = 0)) = [] := by
            rw [filter_eq_nil_iff]
            intro m hm
            have := hkept m hm
            simp only [decide_eq_true_eq]
            omega
          rw [MessageData.unassigned, hadded, filter_append, hnil]
          rfl
        simp only [hunassigned, assignEmailIds, MessageData.setUids, hadded,
          MessageData.setUids_append_go hkept]
        cases isMove with
        | false | true => simp [CopyRun.add, Outcome.last]
    · simp [hsrc]

/-! ## The loop -/

theorem foldl_copyStep (hne : src ≠ dest)
    (hassigned : ∀ id data, messages id = some data → ∀ m ∈ data.mailboxes, 0 < m.uid)
    (run : CopyRun) (entries : List (Nat × ImapId)) :
    entries.foldl (copyStep messages src dest isMove) run =
      (outcomes messages src dest isMove (run.uidCounter dest) entries).foldl
        (CopyRun.add src dest isMove) run := by
  induction entries generalizing run with
  | nil => rfl
  | cons entry entries ih =>
    rw [foldl_cons, copyStep_eq hne hassigned, outcomes]
    cases outcome messages src dest isMove (run.uidCounter dest) entry with
    | none => exact ih run
    | some o =>
      simpa [CopyRun.add] using ih (run.add src dest isMove o)

theorem copiedIds_foldl_add (run : CopyRun) : (os.foldl (CopyRun.add src dest isMove) run).copiedIds =
      run.copiedIds ++ os.map fun o => (o.entry.2.uid, o.uid) := by
  induction os generalizing run with
  | nil => simp
  | cons o os ih => simp [ih, CopyRun.add]

theorem changes_foldl_add (run : CopyRun) : (os.foldl (CopyRun.add src dest isMove) run).changes =
      run.changes ++ (os.filter fun o => o.isNew || isMove).map fun o => (o.entry.1, o.data) := by
  induction os generalizing run with
  | nil => simp
  | cons o os ih =>
    rw [foldl_cons, ih]
    by_cases h : (o.isNew || isMove) = true
    · simp [CopyRun.add, h]
    · simp [CopyRun.add, h]

/-! ## What the outcomes are -/

variable (messages src dest) in
def IsCopied (entry : Nat × ImapId) : Prop :=
  ∃ data, messages entry.1 = some data ∧ data.hasMailboxId src = true

variable (messages dest) in
def destUid (entry : Nat × ImapId) : Option Nat :=
  (messages entry.1).bind fun data => data.messageUid dest

variable {last : Nat}

/-- The outcome keeps the mailboxes of the message, except the source of a move, and adds the
destination when it is not among them. -/
theorem outcome_eq_some {o : Outcome} (h : outcome messages src dest isMove last entry = some o) :
    o.entry = entry ∧ ∃ data, messages entry.1 = some data ∧ data.hasMailboxId src = true ∧
      ((data.messageUid dest = some o.uid ∧ o.isNew = false ∧ o.data.mailboxes =
          data.mailboxes.filter fun m => !isMove || decide (m.mailboxId ≠ src)) ∨
        (data.messageUid dest = none ∧ o.isNew = true ∧ o.uid = last + 1 ∧ o.data.mailboxes =
          (data.mailboxes.filter fun m => !isMove || decide (m.mailboxId ≠ src)) ++
            [⟨dest, last + 1⟩])) := by
  unfold outcome at h
  cases hdata : messages entry.1 with
  | none => simp [hdata] at h
  | some data =>
    simp only [hdata] at h
    split at h
    · rename_i hsrc
      cases huid : data.messageUid dest with
      | some uid =>
        simp only [huid, Option.some.injEq] at h
        subst h
        exact ⟨rfl, data, rfl, hsrc, Or.inl ⟨huid, rfl, rfl⟩⟩
      | none =>
        simp only [huid, Option.some.injEq] at h
        subst h
        exact ⟨rfl, data, rfl, hsrc, Or.inr ⟨huid, rfl, rfl, rfl⟩⟩
    · cases h

theorem outcome_eq_none :
    outcome messages src dest isMove last entry = none ↔ ¬ IsCopied messages src entry := by
  unfold outcome IsCopied
  cases hdata : messages entry.1 with
  | none => simp
  | some data =>
    by_cases hsrc : data.hasMailboxId src = true
    · cases huid : data.messageUid dest <;> simp [hsrc, huid]
    · simp [hsrc]

theorem Outcome.le_last (o : Outcome) (last : Nat) : last ≤ o.last last := by
  unfold Outcome.last
  split <;> omega

theorem le_foldl_last (last : Nat) : last ≤ os.foldl Outcome.last last := by
  induction os generalizing last with
  | nil => exact Nat.le_refl _
  | cons o os ih => exact (o.le_last last).trans (ih _)

variable {entries : List (Nat × ImapId)}

theorem mem_outcomes {o : Outcome} (h : o ∈ outcomes messages src dest isMove last entries) :
    ∃ before, last ≤ before ∧ outcome messages src dest isMove before o.entry = some o ∧
      o.last before ≤ (outcomes messages src dest isMove last entries).foldl Outcome.last last := by
  induction entries generalizing last with
  | nil => cases h
  | cons entry entries ih =>
    rw [outcomes] at h ⊢
    cases ho : outcome messages src dest isMove last entry with
    | none =>
      rw [ho] at h
      exact ih h
    | some first =>
      rw [ho] at h
      rcases mem_cons.mp h with rfl | h
      · refine ⟨last, Nat.le_refl _, ?_, le_foldl_last _ _⟩
        rw [(outcome_eq_some ho).1]
        exact ho
      · obtain ⟨before, hle, hbefore⟩ := ih h
        exact ⟨before, (first.le_last last).trans hle, hbefore⟩

theorem map_entry_outcomes_sublist (last : Nat) (entries : List (Nat × ImapId)) :
    ((outcomes messages src dest isMove last entries).map Outcome.entry).Sublist entries := by
  induction entries generalizing last with
  | nil => exact List.Sublist.refl _
  | cons entry entries ih =>
    rw [outcomes]
    cases ho : outcome messages src dest isMove last entry with
    | none => exact (ih last).cons entry
    | some o =>
      rw [map_cons, (outcome_eq_some ho).1]
      exact (ih _).cons_cons entry

theorem exists_outcome {entry : Nat × ImapId}
    (hmem : entry ∈ entries) (hcopied : IsCopied messages src entry) :
    ∃ o ∈ outcomes messages src dest isMove last entries, o.entry = entry := by
  induction entries generalizing last with
  | nil => cases hmem
  | cons first entries ih =>
    rw [outcomes]
    cases ho : outcome messages src dest isMove last first with
    | none =>
      rcases mem_cons.mp hmem with rfl | hmem
      · exact absurd hcopied (outcome_eq_none.mp ho)
      · exact ih hmem
    | some o =>
      rcases mem_cons.mp hmem with rfl | hmem
      · exact ⟨o, mem_cons_self, (outcome_eq_some ho).1⟩
      · obtain ⟨o', ho', he⟩ := ih hmem
        exact ⟨o', mem_cons_of_mem o ho', he⟩

theorem isCopied_of_mem {o : Outcome}
    (h : o ∈ outcomes messages src dest isMove last entries) : IsCopied messages src o.entry := by
  obtain ⟨before, -, ho, -⟩ := mem_outcomes h
  obtain ⟨-, data, hdata, hsrc, -⟩ := outcome_eq_some ho
  exact ⟨data, hdata, hsrc⟩

theorem uid_of_mem {o : Outcome} (h : o ∈ outcomes messages src dest isMove last entries) :
    (o.isNew = false ∧ destUid messages dest o.entry = some o.uid) ∨
      (o.isNew = true ∧ destUid messages dest o.entry = none ∧ last < o.uid) := by
  obtain ⟨before, hle, ho, -⟩ := mem_outcomes h
  obtain ⟨-, data, hdata, -, ⟨huid, hnew, -⟩ | ⟨huid, hnew, hnext, -⟩⟩ := outcome_eq_some ho
  · exact Or.inl ⟨hnew, by simp [destUid, hdata, huid]⟩
  · exact Or.inr ⟨hnew, by simp [destUid, hdata, huid], by omega⟩

theorem pairwise_new_outcomes (last : Nat) (entries : List (Nat × ImapId)) :
    (outcomes messages src dest isMove last entries).Pairwise fun o o' =>
      o.isNew = true → o'.isNew = true → o.uid < o'.uid := by
  induction entries generalizing last with
  | nil => exact List.Pairwise.nil
  | cons entry entries ih =>
    rw [outcomes]
    cases ho : outcome messages src dest isMove last entry with
    | none => exact ih last
    | some o =>
      refine pairwise_cons.mpr ⟨?_, ih _⟩
      intro o' ho' hnew hnew'
      have hlast : o.uid = o.last last := by
        obtain ⟨-, data, -, -, ⟨-, hold, -⟩ | ⟨-, -, huid, -⟩⟩ := outcome_eq_some ho
        · rw [hold] at hnew
          cases hnew
        · simp [huid, Outcome.last, hnew]
      rcases uid_of_mem ho' with ⟨hold, -⟩ | ⟨-, -, habove⟩
      · rw [hold] at hnew'
        cases hnew'
      · omega

end Same

/-! ## The account afterwards -/

theorem applyChanges_of_not_mem {changes : List (Nat × MessageData)} {id : Nat}
    (h : id ∉ changes.map Prod.fst) (messages : Nat → Option MessageData) :
    applyChanges messages changes id = messages id := by
  induction changes generalizing messages with
  | nil => rfl
  | cons c changes ih =>
    simp only [map_cons, mem_cons, not_or] at h
    exact (ih h.2 _).trans (Function.update_of_ne h.1 _ _)

theorem applyChanges_of_mem {changes : List (Nat × MessageData)} {id : Nat}
    (hkeys : (changes.map Prod.fst).Nodup) (h : (id, data) ∈ changes)
    (messages : Nat → Option MessageData) : applyChanges messages changes id = some data := by
  induction changes generalizing messages with
  | nil => cases h
  | cons first changes ih =>
    rw [map_cons, nodup_cons] at hkeys
    rcases mem_cons.mp h with rfl | h
    · exact (applyChanges_of_not_mem hkeys.1 _).trans (Function.update_self _ _ _)
    · exact ih hkeys.2 h _

section SameAccount

variable (account : StoredAccount) (src dest : Nat) (isMove : Bool) (ids : IdMap)

abbrev copyOutcomes : List Outcome :=
  outcomes account.messages src dest isMove (account.uidCounter dest) ids.entries

abbrev copied : Account := (copySame account.toAccount src dest isMove ids.entries).commit
  account.toAccount

variable {account src dest isMove ids}

theorem copySame_eq (hne : src ≠ dest) : copySame account.toAccount src dest isMove ids.entries =
      (copyOutcomes account src dest isMove ids).foldl (CopyRun.add src dest isMove)
        ⟨account.uidCounter, [], [], [], false⟩ :=
  foldl_copyStep hne (fun id data hdata m hm => (account.consistent.assigned id data hdata m hm).1) _ _

theorem copiedIds_copySame (hne : src ≠ dest) :
    (copySame account.toAccount src dest isMove ids.entries).copiedIds =
      (copyOutcomes account src dest isMove ids).map fun o => (o.entry.2.uid, o.uid) := by
  simp [copySame_eq hne, copiedIds_foldl_add]

theorem copyOutcomes_sublist :
    ((copyOutcomes account src dest isMove ids).map Outcome.entry).Sublist ids.entries :=
  map_entry_outcomes_sublist _ _

theorem nodup_keys_copyOutcomes :
    ((copyOutcomes account src dest isMove ids).map fun o => o.entry.1).Nodup := by
  have h := (@copyOutcomes_sublist account src dest isMove ids).map Prod.fst
  rw [List.map_map] at h
  exact ids.keys.sublist h

theorem messages_copied_of_mem (hne : src ≠ dest) {o : Outcome}
    (h : o ∈ copyOutcomes account src dest isMove ids) :
    (copied account src dest isMove ids).messages o.entry.1 = some o.data := by
  have hkeys := @nodup_keys_copyOutcomes account src dest isMove ids
  rw [copied, CopyRun.commit, copySame_eq hne, changes_foldl_add, nil_append]
  show applyChanges _ _ _ = _
  by_cases hw : (o.isNew || isMove) = true
  · refine applyChanges_of_mem ?_ (List.mem_map.mpr ⟨o, mem_filter.mpr ⟨h, hw⟩, rfl⟩) _
    rw [List.map_map]
    exact hkeys.sublist (filter_sublist.map _)
  · -- an unwritten message was in the destination before, and stays as it is
    rw [applyChanges_of_not_mem]
    · obtain ⟨before, -, ho, -⟩ := mem_outcomes h
      obtain ⟨-, data, hdata, -, ⟨-, -, hkept⟩ | ⟨-, hnew, -⟩⟩ := outcome_eq_some ho
      · have hmove : isMove = false := by simp_all
        cases hd : o.data
        simp_all
      · simp [hnew] at hw
    · rw [List.map_map, List.mem_map]
      rintro ⟨o', ho', heq⟩
      obtain ⟨hmem, hw'⟩ := mem_filter.mp ho'
      rw [inj_on_of_nodup_map hkeys hmem h heq] at hw'
      exact hw hw'

theorem destUid_le {uid : Nat} (h : destUid account.messages dest entry = some uid) :
    uid ≤ account.uidCounter dest := by
  obtain ⟨data, hdata, huid⟩ := bind_eq_some_iff.mp h
  exact (account.consistent.assigned _ data hdata _ (MessageData.messageUid_eq_some huid)).2

theorem messageUid_of_mem (hne : src ≠ dest) {o : Outcome}
    (h : o ∈ copyOutcomes account src dest isMove ids) :
    (o.data.mailboxes.map UidMailbox.mailboxId).Nodup ∧ o.data.messageUid dest = some o.uid := by
  obtain ⟨before, -, ho, -⟩ := mem_outcomes h
  obtain ⟨-, data, hdata, -, ⟨hdest, -, hboxes⟩ | ⟨hdest, -, huid, hboxes⟩⟩ := outcome_eq_some ho
  · have hdistinct : (o.data.mailboxes.map UidMailbox.mailboxId).Nodup := by
      rw [hboxes]
      exact (account.consistent.distinct _ data hdata).sublist (filter_sublist.map _)
    refine ⟨hdistinct, MessageData.messageUid_of_mem (m := ⟨dest, o.uid⟩) hdistinct ?_⟩
    rw [hboxes, mem_filter]
    exact ⟨MessageData.messageUid_eq_some hdest, by simp [Ne.symm hne]⟩
  · have hdistinct : (o.data.mailboxes.map UidMailbox.mailboxId).Nodup := by
      rw [hboxes, List.map_append, nodup_append]
      refine ⟨(account.consistent.distinct _ data hdata).sublist (filter_sublist.map _),
        nodup_singleton _, ?_⟩
      intro x hx y hy hxy
      obtain ⟨m, hm, rfl⟩ := List.mem_map.mp hx
      have hne' := MessageData.messageUid_eq_none.mp hdest m (mem_of_mem_filter hm)
      simp only [map_cons, map_nil, mem_singleton] at hy
      exact hne' (hxy.trans hy)
    refine ⟨hdistinct, MessageData.messageUid_of_mem (m := ⟨dest, o.uid⟩) hdistinct ?_⟩
    rw [hboxes, huid]
    simp

theorem nodup_uid_copyOutcomes : ((copyOutcomes account src dest isMove ids).map Outcome.uid).Nodup := by
  refine pairwise_map.mpr ?_
  have hkeys := pairwise_map.mp (@nodup_keys_copyOutcomes account src dest isMove ids)
  have hnew := @pairwise_new_outcomes account.messages src dest isMove (account.uidCounter dest)
    ids.entries
  refine (hkeys.and hnew).imp_of_mem ?_
  rintro o o' ho ho' ⟨hkey, hlt⟩ heq
  rcases uid_of_mem ho with ⟨-, hu⟩ | ⟨hn, -, ha⟩ <;> rcases uid_of_mem ho' with ⟨-, hu'⟩ | ⟨hn', -, ha'⟩
  · obtain ⟨data, hdata, huid⟩ := bind_eq_some_iff.mp hu
    obtain ⟨data', hdata', huid'⟩ := bind_eq_some_iff.mp hu'
    have hm := MessageData.messageUid_eq_some huid
    have hm' := MessageData.messageUid_eq_some huid'
    rw [← heq] at hm'
    exact hkey (account.consistent.unique _ _ data data' hdata hdata' _ hm hm')
  · have := destUid_le hu
    omega
  · have := destUid_le hu'
    omega
  · exact absurd (hlt hn hn') (by omega)

/-! ## Which UIDs stand side by side -/

variable (account dest ids) in
/-- The order in which the destination has the messages afterwards: those it had come first, in
the order of their UIDs there, and the others follow as the id map gives them. -/
def DestBefore (x y : Nat × ImapId) : Prop :=
  match destUid account.messages dest x, destUid account.messages dest y with
  | some uid, some uid' => uid < uid'
  | some _, none => True
  | none, some _ => False
  | none, none => ids.entries.idxOf x < ids.entries.idxOf y

theorem uid_lt_iff {o o' : Outcome} (ho : o ∈ copyOutcomes account src dest isMove ids)
    (ho' : o' ∈ copyOutcomes account src dest isMove ids) :
    o.uid < o'.uid ↔ DestBefore account dest ids o.entry o'.entry := by
  unfold DestBefore
  rcases uid_of_mem ho with ⟨-, hu⟩ | ⟨hn, hu, ha⟩ <;>
    rcases uid_of_mem ho' with ⟨-, hu'⟩ | ⟨hn', hu', ha'⟩
  · simp [hu, hu']
  · have := destUid_le hu
    simp only [hu, hu', iff_true]
    omega
  · have := destUid_le hu'
    simp only [hu, hu', iff_false]
    omega
  · -- both are new: UIDs and places in the id map grow together along the loop
    simp only [hu, hu']
    have hnew := @pairwise_new_outcomes account.messages src dest isMove
      (account.uidCounter dest) ids.entries
    have hplace := pairwise_map.mp ((pairwise_idxOf (ids.keys.of_map _)).sublist
      (@copyOutcomes_sublist account src dest isMove ids))
    have hboth : (copyOutcomes account src dest isMove ids).Pairwise fun o o' => o.isNew = true →
        o'.isNew = true → o.uid < o'.uid ∧
          ids.entries.idxOf o.entry < ids.entries.idxOf o'.entry :=
      (hnew.and hplace).imp fun ⟨hlt, hidx⟩ hn hn' => ⟨hlt hn hn', hidx⟩
    exact lt_iff_lt_of_pairwise hboth ho ho' hn hn'

theorem nodup_copiedIds :
    (((copyOutcomes account src dest isMove ids).map fun o => (o.entry.2.uid, o.uid)).map
        Prod.fst).Nodup ∧
      (((copyOutcomes account src dest isMove ids).map fun o => (o.entry.2.uid, o.uid)).map
        Prod.snd).Nodup := by
  have hentries := (@copyOutcomes_sublist account src dest isMove ids).map fun entry => entry.2.uid
  rw [List.map_map] at hentries
  rw [List.map_map, List.map_map]
  exact ⟨ids.uids.sublist hentries, nodup_uid_copyOutcomes⟩

end SameAccount

end Bearmail.Imap
