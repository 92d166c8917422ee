import Bearmail.Imap.ClientView
import Bearmail.Lib.Ordered

/-!
# The maps of a selected mailbox

`fetch_messages`, `synchronize_messages`, `write_mailbox_changes` and
`append_messages` of `imap/src/core/message.rs`, from the cached messages of an
account on: how `uid_to_id`, `id_to_imap`, the number of messages and the largest
UID are kept together.

A session runs its commands side by side: `synchronize_messages` compares with the
modification sequence it has read before, and others may come between the two halves
of `write_mailbox_changes`.
-/

namespace Bearmail.Imap

open List

/-! ## Reading the cache -/

/-- A cached message, with the mailboxes it is in and its UID in each. -/
structure CachedMessage where
  documentId : Nat
  mailboxes : List (Nat × Nat)

structure MessageCache where
  items : List CachedMessage
  changeId : Nat
  distinct : (items.map CachedMessage.documentId).Nodup

def hashInsert {α : Type} (key : Nat) (value : α) (map : List (Nat × α)) : List (Nat × α) :=
  map.filter (fun entry => !decide (entry.1 = key)) ++ [(key, value)]

def CachedMessage.uidIn (mailboxId : Nat) (item : CachedMessage) : Option (Nat × Nat) :=
  (item.mailboxes.find? fun m => decide (m.1 = mailboxId)).map fun m => (m.2, item.documentId)

/-- The UIDs of a mailbox with their messages, collected in a `BTreeMap`. -/
def MessageCache.uidMap (cache : MessageCache) (mailboxId : Nat) : List (Nat × Nat) :=
  (cache.items.filterMap (CachedMessage.uidIn mailboxId)).foldl
    (fun map item => Ordered.put item.1 item.2 map) []

def fetchedState (uidMap : List (Nat × Nat)) (changeId : Nat) : MailboxState :=
  let idToImap := (imapFrom 0 uidMap).foldl (fun map entry => hashInsert entry.1 entry.2 map) []
  { uidMax := (uidMap.map Prod.fst).foldl max 0
    idToImap := idToImap
    uidToId := uidMap.foldl (fun map item => hashInsert item.1 item.2 map) []
    totalMessages := idToImap.length
    modseq := changeId }

def fetchMessages (mailboxId : Nat) (cache : MessageCache) (currentState : Option Nat) :
    Option MailboxState :=
  if currentState = some cache.changeId then none
  else some (fetchedState (cache.uidMap mailboxId) cache.changeId)

/-! ## What a session does to its state -/

/-- The second half of `synchronize_messages`, with a state that was fetched. -/
def SelectedState.install (s : SelectedState) (order : IterationOrder) (newState : MailboxState) :
    SelectedState :=
  let deletions := (s.next.map NextMailboxState.deletions).getD []
  let known := order.run s.current.idToImap
  let here := fun entry : Nat × ImapId => decide (entry.2.uid ∈ newState.uidToId.map Prod.fst)
  let gone := (known.filter fun entry => !here entry).map Prod.snd
  { current := { s.current with
      idToImap := known.filter here
      uidToId := s.current.uidToId.filter fun item => decide (item.1 ∉ gone.map ImapId.uid)
      modseq := newState.modseq }
    next := some ⟨newState, deletions ++ gone⟩ }

/-- `synchronize_messages`; `currentModseq` was read from the state some time before. -/
def SelectedState.synchronizeMessages (s : SelectedState) (mailboxId : Nat) (order : IterationOrder)
    (currentModseq : Nat) (cache : MessageCache) : SelectedState :=
  match fetchMessages mailboxId cache (some currentModseq) with
  | some newState => s.install order newState
  | none => s

/-- The second half of `write_mailbox_changes`. -/
def SelectedState.adoptNext (s : SelectedState) : SelectedState :=
  match s.next with
  | some next => ⟨next.nextState, none⟩
  | none => s

structure ImapUidToId where
  uid : Nat
  documentId : Nat

def MailboxState.appendMessage (s : MailboxState) (message : ImapUidToId) : MailboxState :=
  { s with
    totalMessages := s.totalMessages + 1
    uidToId := hashInsert message.uid message.uid s.uidToId
    idToImap := hashInsert message.documentId ⟨message.uid, s.totalMessages + 1⟩ s.idToImap }

def MailboxState.appendMessages (s : MailboxState) (ids : List ImapUidToId) (modseq : Option Nat) :
    MailboxState :=
  if modseq.getD 0 > s.modseq then
    { ids.foldl MailboxState.appendMessage s with
      uidMax := ids.foldl (fun _ message => message.uid) 0 }
  else s

/-! ## Runs -/

/-- A state, and the UIDs that were appended to it since it was fetched. -/
structure Tracked where
  selected : SelectedState
  appended : List Nat

/-- New messages: there is one, their UIDs go up from the largest, and none is known. -/
structure Fresh (s : MailboxState) (ids : List ImapUidToId) : Prop where
  nonempty : ids ≠ []
  ascending : (s.uidMax :: ids.map ImapUidToId.uid).Pairwise (· < ·)
  unknown : (s.idToImap.map Prod.fst ++ ids.map ImapUidToId.documentId).Nodup

/-- What the commands of a session do to the state of its mailbox. -/
inductive Happens (mailboxId : Nat) (t : Tracked) : Tracked → Prop where
  | synchronize (order : IterationOrder) (currentModseq : Nat) (cache : MessageCache) :
      Happens mailboxId t
        { t with selected := t.selected.synchronizeMessages mailboxId order currentModseq cache }
  | adopt : Happens mailboxId t ⟨t.selected.adoptNext, if t.selected.next.isSome then [] else t.appended⟩
  | append (ids : List ImapUidToId) (modseq : Option Nat) :
      (modseq.getD 0 > t.selected.current.modseq → Fresh t.selected.current ids) →
      Happens mailboxId t ⟨{ t.selected with current := t.selected.current.appendMessages ids modseq },
          t.appended ++ ids.map ImapUidToId.uid⟩

inductive Reached (mailboxId : Nat) : Tracked → Prop where
  | select {cache : MessageCache} {state : MailboxState} :
      fetchMessages mailboxId cache none = some state → Reached mailboxId ⟨⟨state, none⟩, []⟩
  | step {t t' : Tracked} : Reached mailboxId t → Happens mailboxId t t' → Reached mailboxId t'

/-! ## What holds -/

/-- A state without the messages of `gone`, whose deletion was not announced. -/
structure Consistent (s : MailboxState) (gone : List ImapId) (appended : List Nat) : Prop where
  ids : (s.idToImap.map Prod.fst).Nodup
  uids : (s.uidToId.map Prod.fst).Nodup
  /-- the same UIDs are in both maps -/
  known : ∀ u, (∃ d, (u, d) ∈ s.uidToId) ↔ ∃ d imap, (d, imap) ∈ s.idToImap ∧ imap.uid = u
  /-- and the maps are inverse -/
  inverse : ∀ u d, u ∉ appended → ((u, d) ∈ s.uidToId ↔ ∃ imap, (d, imap) ∈ s.idToImap ∧ imap.uid = u)
  /-- the messages are numbered from 1 in the order of their UIDs -/
  numbered : ∃ order : List Nat, order.Pairwise (· < ·) ∧
    (s.idToImap.map Prod.snd ++ gone).Perm (numberFrom 0 order) ∧
    s.totalMessages = order.length ∧ s.uidMax = order.foldl max 0

/-! ## Hash maps -/

theorem nodup_hashInsert {α : Type} {map : List (Nat × α)} (h : (map.map Prod.fst).Nodup) (key : Nat)
    (value : α) : ((hashInsert key value map).map Prod.fst).Nodup := by
  rw [hashInsert, List.map_append, nodup_append]
  refine ⟨h.sublist (filter_sublist.map _), nodup_singleton _, ?_⟩
  intro a ha b hb hab
  obtain ⟨entry, hentry, rfl⟩ := mem_map.mp ha
  have hkey : entry.1 = key := hab.trans (mem_singleton.mp hb)
  simp [hkey] at hentry

theorem hashInsert_of_not_mem {α : Type} {key : Nat} {map : List (Nat × α)}
    (h : key ∉ map.map Prod.fst) (value : α) : hashInsert key value map = map ++ [(key, value)] := by
  have hfilter : map.filter (fun entry => !decide (entry.1 = key)) = map := by
    rw [filter_eq_self]
    intro entry hentry
    have hne : entry.1 ≠ key := fun heq => h (heq ▸ mem_map_of_mem hentry)
    simp [hne]
  rw [hashInsert, hfilter]

theorem foldl_hashInsert {α : Type} (map entries : List (Nat × α))
    (h : (map.map Prod.fst ++ entries.map Prod.fst).Nodup) :
    entries.foldl (fun map entry => hashInsert entry.1 entry.2 map) map = map ++ entries := by
  induction entries generalizing map with
  | nil => simp
  | cons entry entries ih =>
    have hsplit := nodup_append.mp h
    have hnew : entry.1 ∉ map.map Prod.fst := fun hmem =>
      hsplit.2.2 entry.1 hmem entry.1 (by simp) rfl
    rw [foldl_cons, hashInsert_of_not_mem hnew, ih _ (by simpa using h)]
    simp

/-! ## A fetched state -/

theorem nodup_snd_put {map : List (Nat × Nat)} (h : (map.map Prod.snd).Nodup) {value : Nat}
    (hnew : value ∉ map.map Prod.snd) (key : Nat) :
    ((Ordered.put key value map).map Prod.snd).Nodup := by
  induction map with
  | nil => exact nodup_singleton _
  | cons entry rest ih =>
    rw [map_cons, nodup_cons] at h
    rw [map_cons, mem_cons, not_or] at hnew
    rw [Ordered.put]
    split
    · rw [map_cons, nodup_cons, map_cons, mem_cons, not_or, nodup_cons]
      exact ⟨hnew, h⟩
    · split
      · rw [map_cons, nodup_cons]
        exact ⟨hnew.2, h.2⟩
      · rw [map_cons, nodup_cons]
        refine ⟨fun hmem => ?_, ih h.2 hnew.2⟩
        obtain ⟨other, hother, heq⟩ := mem_map.mp hmem
        rcases Ordered.mem_put hother with rfl | hrest
        · exact hnew.1 heq
        · exact h.1 (heq ▸ mem_map_of_mem hrest)

theorem foldl_put {items : List (Nat × Nat)} {map : List (Nat × Nat)} (hmap : Ordered.Ascending map)
    (h : (map.map Prod.snd ++ items.map Prod.snd).Nodup) :
    Ordered.Ascending (items.foldl (fun map item => Ordered.put item.1 item.2 map) map) ∧
      ((items.foldl (fun map item => Ordered.put item.1 item.2 map) map).map Prod.snd).Nodup := by
  induction items generalizing map with
  | nil => exact ⟨hmap, by simpa using h⟩
  | cons item items ih =>
    obtain ⟨hold, hitems, hdisj⟩ := nodup_append.mp h
    rw [map_cons, nodup_cons] at hitems
    have hnew : item.2 ∉ map.map Prod.snd := fun hmem => hdisj item.2 hmem item.2 (by simp) rfl
    refine ih (Ordered.ascending_put hmap item.1 item.2)
      (nodup_append.mpr ⟨nodup_snd_put hold hnew item.1, hitems.2, ?_⟩)
    intro a ha b hb hab
    obtain ⟨entry, hentry, rfl⟩ := mem_map.mp ha
    rcases Ordered.mem_put hentry with rfl | hrest
    · exact hitems.1 (hab ▸ hb)
    · exact hdisj entry.2 (mem_map_of_mem hrest) b (mem_cons_of_mem _ hb) hab

theorem MessageCache.uidMap_spec (cache : MessageCache) (mailboxId : Nat) :
    ((cache.uidMap mailboxId).map Prod.fst).Pairwise (· < ·) ∧
      ((cache.uidMap mailboxId).map Prod.snd).Nodup := by
  have hids : ((cache.items.filterMap (CachedMessage.uidIn mailboxId)).map Prod.snd).Sublist
      (cache.items.map CachedMessage.documentId) := by
    induction cache.items with
    | nil => exact List.Sublist.refl _
    | cons item items ih =>
      cases hitem : item.uidIn mailboxId with
      | none =>
        rw [filterMap_cons_none hitem]
        exact ih.cons _
      | some pair =>
        rw [filterMap_cons_some hitem]
        obtain ⟨m, -, hm⟩ := Option.map_eq_some_iff.mp hitem
        have hid : pair.2 = item.documentId := by rw [← hm]
        rw [map_cons, hid]
        exact ih.cons_cons _
  obtain ⟨hasc, hnodup⟩ := @foldl_put _ [] List.Pairwise.nil (by simpa using cache.distinct.sublist hids)
  exact ⟨pairwise_map.mpr hasc, hnodup⟩

theorem consistent_fetchedState {uidMap : List (Nat × Nat)} (huids : (uidMap.map Prod.fst).Pairwise (· < ·))
    (hids : (uidMap.map Prod.snd).Nodup) (changeId : Nat) :
    Consistent (fetchedState uidMap changeId) [] [] := by
  have hnodup : (uidMap.map Prod.fst).Nodup := huids.imp fun hlt => Nat.ne_of_lt hlt
  have himap : (fetchedState uidMap changeId).idToImap = imapFrom 0 uidMap :=
    foldl_hashInsert [] (imapFrom 0 uidMap) (by simpa [map_fst_imapFrom] using hids)
  have huid : (fetchedState uidMap changeId).uidToId = uidMap :=
    foldl_hashInsert [] uidMap (by simpa using hnodup)
  have hlen : (imapFrom 0 uidMap).length = (uidMap.map Prod.fst).length := by
    rw [← length_map Prod.fst, map_fst_imapFrom, length_map, length_map]
  have hinverse : ∀ (k : Nat) (items : List (Nat × Nat)) (u d : Nat),
      (u, d) ∈ items ↔ ∃ imap, (d, imap) ∈ imapFrom k items ∧ imap.uid = u := by
    intro k items u d
    induction items generalizing k with
    | nil => simp [imapFrom]
    | cons item items ih =>
      rw [mem_cons, ih (k + 1)]
      constructor
      · rintro (rfl | ⟨imap, hmem, hu⟩)
        · exact ⟨⟨u, k + 1⟩, mem_cons_self, rfl⟩
        · exact ⟨imap, mem_cons_of_mem _ hmem, hu⟩
      · rintro ⟨imap, hmem, hu⟩
        rcases mem_cons.mp hmem with heq | hmem
        · left
          cases heq
          exact Prod.ext hu.symm rfl
        · exact Or.inr ⟨imap, hmem, hu⟩
  refine ⟨?_, ?_, ?_, ?_, uidMap.map Prod.fst, huids, ?_, ?_, rfl⟩
  · rw [himap, map_fst_imapFrom]
    exact hids
  · rw [huid]
    exact hnodup
  · intro u
    rw [himap, huid]
    exact exists_congr fun d => hinverse 0 uidMap u d
  · intro u d _
    rw [himap, huid]
    exact hinverse 0 uidMap u d
  · simp [himap, map_snd_imapFrom]
  · show (fetchedState uidMap changeId).idToImap.length = _
    rw [himap, hlen]

theorem consistent_fetchMessages {mailboxId : Nat} {cache : MessageCache} {currentState : Option Nat}
    {state : MailboxState} (h : fetchMessages mailboxId cache currentState = some state) :
    Consistent state [] [] := by
  unfold fetchMessages at h
  split at h
  · cases h
  · cases h
    obtain ⟨huids, hids⟩ := cache.uidMap_spec mailboxId
    exact consistent_fetchedState huids hids cache.changeId

/-! ## Each step -/

variable {s : MailboxState} {gone : List ImapId} {appended : List Nat} {t : Tracked}

theorem Consistent.remove (h : Consistent s gone appended) (order : IterationOrder)
    (here : Nat → Bool) (modseq : Nat) :
    Consistent
      { s with
        idToImap := (order.run s.idToImap).filter fun entry => here entry.2.uid
        uidToId := s.uidToId.filter fun item => decide (item.1 ∉
          (((order.run s.idToImap).filter fun entry => !here entry.2.uid).map Prod.snd).map ImapId.uid)
        modseq := modseq }
      (gone ++ ((order.run s.idToImap).filter fun entry => !here entry.2.uid).map Prod.snd)
      appended := by
  have hperm := order.perm s.idToImap
  -- A known UID is gone exactly if the new state does not have it.
  have hgone : ∀ u d imap, (d, imap) ∈ s.idToImap → imap.uid = u →
      (u ∉ (((order.run s.idToImap).filter fun entry => !here entry.2.uid).map Prod.snd).map
        ImapId.uid ↔ here u = true) := by
    intro u d imap hmem hu
    constructor
    · intro hnot
      by_contra hhere
      refine hnot (mem_map.mpr ⟨imap, mem_map.mpr ⟨(d, imap), ?_, rfl⟩, hu⟩)
      exact mem_filter.mpr ⟨hperm.mem_iff.mpr hmem, by simp [hu, hhere]⟩
    · intro hhere hin
      obtain ⟨other, hother, hu'⟩ := mem_map.mp hin
      obtain ⟨entry, hentry, rfl⟩ := mem_map.mp hother
      have hnot := (mem_filter.mp hentry).2
      rw [hu', hhere] at hnot
      cases hnot
  have hmem : ∀ d imap, (d, imap) ∈ (order.run s.idToImap).filter (fun entry => here entry.2.uid) ↔
      (d, imap) ∈ s.idToImap ∧ here imap.uid = true := by
    simp [hperm.mem_iff]
  refine ⟨?_, h.uids.sublist (filter_sublist.map _), ?_, ?_, ?_⟩
  · exact ((hperm.map Prod.fst).nodup_iff.mpr h.ids).sublist (filter_sublist.map _)
  · intro u
    constructor
    · rintro ⟨d, hd⟩
      obtain ⟨hd, hnot⟩ := mem_filter.mp hd
      obtain ⟨d', imap, hin, hu⟩ := (h.known u).mp ⟨d, hd⟩
      have hhere := (hgone u d' imap hin hu).mp (of_decide_eq_true hnot)
      exact ⟨d', imap, (hmem d' imap).mpr ⟨hin, hu ▸ hhere⟩, hu⟩
    · rintro ⟨d, imap, hin, hu⟩
      obtain ⟨hin, hhere⟩ := (hmem d imap).mp hin
      obtain ⟨d', hd'⟩ := (h.known u).mpr ⟨d, imap, hin, hu⟩
      have hnot := (hgone u d imap hin hu).mpr (hu ▸ hhere)
      exact ⟨d', mem_filter.mpr ⟨hd', decide_eq_true hnot⟩⟩
  · intro u d happ
    constructor
    · intro hd
      obtain ⟨hd, hnot⟩ := mem_filter.mp hd
      obtain ⟨imap, hin, hu⟩ := (h.inverse u d happ).mp hd
      have hhere := (hgone u d imap hin hu).mp (of_decide_eq_true hnot)
      exact ⟨imap, (hmem d imap).mpr ⟨hin, hu ▸ hhere⟩, hu⟩
    · rintro ⟨imap, hin, hu⟩
      obtain ⟨hin, hhere⟩ := (hmem d imap).mp hin
      have hd := (h.inverse u d happ).mpr ⟨imap, hin, hu⟩
      have hnot := (hgone u d imap hin hu).mpr (hu ▸ hhere)
      exact mem_filter.mpr ⟨hd, decide_eq_true hnot⟩
  · obtain ⟨uids, hasc, hnum, htotal, hmax⟩ := h.numbered
    refine ⟨uids, hasc, List.Perm.trans ?_ hnum, htotal, hmax⟩
    have hparts := (filter_append_perm (fun entry : Nat × ImapId => here entry.2.uid)
      (order.run s.idToImap)).map Prod.snd
    rw [List.map_append] at hparts
    have hall := (hparts.trans (hperm.map Prod.snd)).append_right gone
    refine List.Perm.trans ?_ hall
    rw [append_assoc]
    exact List.Perm.append_left _ perm_append_comm

theorem numberFrom_append (k : Nat) (uids : List Nat) (uid : Nat) :
    numberFrom k (uids ++ [uid]) = numberFrom k uids ++ [⟨uid, k + uids.length + 1⟩] := by
  induction uids generalizing k with
  | nil => rfl
  | cons first uids ih =>
    rw [cons_append, numberFrom, ih, length_cons]
    congr 4
    omega

theorem Consistent.le_uidMax (h : Consistent s gone appended) {d : Nat} {imap : ImapId}
    (hmem : (d, imap) ∈ s.idToImap) : imap.uid ≤ s.uidMax := by
  obtain ⟨uids, -, hnum, -, hmax⟩ := h.numbered
  have hin : imap ∈ numberFrom 0 uids :=
    hnum.mem_iff.mp (mem_append_left _ (mem_map.mpr ⟨_, hmem, rfl⟩))
  have huid : imap.uid ∈ uids := by
    have huids := mem_map_of_mem (f := ImapId.uid) hin
    rwa [map_uid_numberFrom] at huids
  rw [hmax]
  exact (le_foldl_max uids 0).2 _ huid

theorem Consistent.push (h : Consistent s gone appended) {message : ImapUidToId}
    (huid : s.uidMax < message.uid) (hid : message.documentId ∉ s.idToImap.map Prod.fst) :
    Consistent { s.appendMessage message with uidMax := message.uid } gone
      (appended ++ [message.uid]) := by
  have hbelow : ∀ d imap, (d, imap) ∈ s.idToImap → imap.uid ≠ message.uid := by
    intro d imap hmem heq
    have hle := h.le_uidMax hmem
    omega
  have hnew : message.uid ∉ s.uidToId.map Prod.fst := by
    intro hmem
    obtain ⟨⟨u, d⟩, hentry, heq⟩ := mem_map.mp hmem
    obtain ⟨d', imap, hin, hu⟩ := (h.known u).mp ⟨d, hentry⟩
    exact hbelow d' imap hin (hu.trans heq)
  have huids : (hashInsert message.uid message.uid s.uidToId) =
      s.uidToId ++ [(message.uid, message.uid)] := hashInsert_of_not_mem hnew _
  have hids : (hashInsert message.documentId (⟨message.uid, s.totalMessages + 1⟩ : ImapId) s.idToImap) =
      s.idToImap ++ [(message.documentId, ⟨message.uid, s.totalMessages + 1⟩)] :=
    hashInsert_of_not_mem hid _
  refine ⟨nodup_hashInsert h.ids _ _, nodup_hashInsert h.uids _ _, ?_, ?_, ?_⟩
  · intro u
    show (∃ d, (u, d) ∈ hashInsert message.uid message.uid s.uidToId) ↔
      ∃ d imap, (d, imap) ∈ hashInsert message.documentId
        (⟨message.uid, s.totalMessages + 1⟩ : ImapId) s.idToImap ∧ imap.uid = u
    rw [huids, hids]
    by_cases hu : u = message.uid
    · subst hu
      exact ⟨fun _ => ⟨message.documentId, ⟨message.uid, s.totalMessages + 1⟩, by simp, rfl⟩,
        fun _ => ⟨message.uid, by simp⟩⟩
    · have hold := h.known u
      simp only [mem_append, mem_singleton, Prod.mk.injEq, hu, false_and, or_false]
      rw [hold]
      constructor
      · rintro ⟨d, imap, hmem, heq⟩
        exact ⟨d, imap, Or.inl hmem, heq⟩
      · rintro ⟨d, imap, hmem | ⟨-, rfl⟩, heq⟩
        · exact ⟨d, imap, hmem, heq⟩
        · exact absurd heq.symm hu
  · intro u d happ
    show (u, d) ∈ hashInsert message.uid message.uid s.uidToId ↔
      ∃ imap, (d, imap) ∈ hashInsert message.documentId
        (⟨message.uid, s.totalMessages + 1⟩ : ImapId) s.idToImap ∧ imap.uid = u
    rw [mem_append, not_or, mem_singleton] at happ
    obtain ⟨hold, hu⟩ := happ
    have hinv := h.inverse u d hold
    rw [huids, hids]
    simp only [mem_append, mem_singleton, Prod.mk.injEq, hu, false_and, or_false]
    rw [hinv]
    constructor
    · rintro ⟨imap, hmem, heq⟩
      exact ⟨imap, Or.inl hmem, heq⟩
    · rintro ⟨imap, hmem | ⟨-, rfl⟩, heq⟩
      · exact ⟨imap, hmem, heq⟩
      · exact absurd heq.symm hu
  · obtain ⟨uids, hasc, hnum, htotal, hmax⟩ := h.numbered
    refine ⟨uids ++ [message.uid], ?_, ?_, ?_, ?_⟩
    · refine pairwise_append.mpr ⟨hasc, pairwise_singleton _ _, ?_⟩
      intro a ha b hb
      rw [mem_singleton.mp hb]
      have hle := (le_foldl_max uids 0).2 a ha
      omega
    · show ((hashInsert message.documentId (⟨message.uid, s.totalMessages + 1⟩ : ImapId)
        s.idToImap).map Prod.snd ++ gone).Perm _
      rw [hids, numberFrom_append, htotal, Nat.zero_add, List.map_append, append_assoc]
      refine List.Perm.trans ?_ (hnum.append_right _)
      rw [append_assoc]
      exact List.Perm.append_left _ perm_append_comm
    · show s.totalMessages + 1 = _
      simp [htotal]
    · rw [foldl_append, ← hmax]
      show message.uid = max s.uidMax message.uid
      omega

theorem Fresh.head {message : ImapUidToId} {ids : List ImapUidToId}
    (h : (s.uidMax :: (message :: ids).map ImapUidToId.uid).Pairwise (· < ·)) :
    s.uidMax < message.uid ∧ (message.uid :: ids.map ImapUidToId.uid).Pairwise (· < ·) := by
  obtain ⟨hhead, htail⟩ := pairwise_cons.mp h
  exact ⟨hhead _ mem_cons_self, htail⟩

theorem Consistent.pushAll (ids : List ImapUidToId) (h : Consistent s gone appended)
    (hasc : (s.uidMax :: ids.map ImapUidToId.uid).Pairwise (· < ·))
    (hnew : (s.idToImap.map Prod.fst ++ ids.map ImapUidToId.documentId).Nodup) :
    Consistent
      { ids.foldl MailboxState.appendMessage s with
        uidMax := ids.foldl (fun _ message => message.uid) s.uidMax }
      gone (appended ++ ids.map ImapUidToId.uid) := by
  induction ids generalizing s appended with
  | nil => simpa using h
  | cons message ids ih =>
    obtain ⟨hlt, htail⟩ := Fresh.head hasc
    obtain ⟨hknown, hmore, hdisj⟩ := nodup_append.mp hnew
    have hid : message.documentId ∉ s.idToImap.map Prod.fst := fun hmem =>
      hdisj _ hmem message.documentId (by simp) rfl
    have hrest := ih (h.push hlt hid) htail (by
      show ((hashInsert message.documentId _ s.idToImap).map Prod.fst ++ _).Nodup
      rw [hashInsert_of_not_mem hid, List.map_append, append_assoc]
      exact hnew)
    rw [append_assoc] at hrest
    -- The largest UID is not looked at on the way.
    have hskip : ∀ (more : List ImapUidToId) (t : MailboxState) (m n : Nat),
        { more.foldl MailboxState.appendMessage { t with uidMax := m } with uidMax := n } =
          { more.foldl MailboxState.appendMessage t with uidMax := n } := by
      intro more
      induction more with
      | nil => exact fun t m n => rfl
      | cons next more ihm => exact fun t m n => ihm (t.appendMessage next) m n
    rw [hskip] at hrest
    exact hrest

theorem Consistent.mono {more : List Nat} (h : Consistent s gone appended) :
    Consistent s gone (appended ++ more) :=
  ⟨h.ids, h.uids, h.known, fun u d hu => h.inverse u d fun hmem => hu (mem_append_left _ hmem),
    h.numbered⟩

/-! ## Every run -/

/-- What holds of the state a session shows, and of the one it has found since. -/
def Tracked.Consistent (t : Tracked) : Prop :=
  Imap.Consistent t.selected.current t.selected.deletions t.appended ∧
    ∀ next ∈ t.selected.next, Imap.Consistent next.nextState [] []

theorem Tracked.Consistent.synchronize (h : t.Consistent) (mailboxId : Nat) (order : IterationOrder)
    (currentModseq : Nat) (cache : MessageCache) :
    Tracked.Consistent
      { t with selected := t.selected.synchronizeMessages mailboxId order currentModseq cache } := by
  unfold SelectedState.synchronizeMessages
  cases hfetch : fetchMessages mailboxId cache (some currentModseq) with
  | none => exact h
  | some newState =>
    refine ⟨h.1.remove order (fun uid => decide (uid ∈ newState.uidToId.map Prod.fst))
      newState.modseq, ?_⟩
    rintro next hnext
    cases hnext
    exact consistent_fetchMessages hfetch

theorem Tracked.Consistent.adopt (h : t.Consistent) :
    Tracked.Consistent ⟨t.selected.adoptNext, if t.selected.next.isSome then [] else t.appended⟩ := by
  unfold SelectedState.adoptNext
  cases hnext : t.selected.next with
  | none => simpa [hnext] using h
  | some next => exact ⟨h.2 next hnext, by simp⟩

theorem Tracked.Consistent.append (h : t.Consistent) (ids : List ImapUidToId) (modseq : Option Nat)
    (hfresh : modseq.getD 0 > t.selected.current.modseq → Fresh t.selected.current ids) :
    Tracked.Consistent ⟨{ t.selected with current := t.selected.current.appendMessages ids modseq },
        t.appended ++ ids.map ImapUidToId.uid⟩ := by
  refine ⟨?_, h.2⟩
  unfold MailboxState.appendMessages
  split
  · rename_i hlater
    obtain ⟨hne, hasc, hnew⟩ := hfresh hlater
    have hall := h.1.pushAll ids hasc hnew
    obtain ⟨first, rest, rfl⟩ := exists_cons_of_ne_nil hne
    exact hall
  · exact h.1.mono

theorem Happens.consistent {mailboxId : Nat} {t' : Tracked} (h : t.Consistent)
    (hstep : Happens mailboxId t t') : t'.Consistent := by
  cases hstep with
  | synchronize order currentModseq cache => exact h.synchronize mailboxId order currentModseq cache
  | adopt => exact h.adopt
  | append ids modseq hfresh => exact h.append ids modseq hfresh

/-- What the maps say of each other after any commands. -/
theorem reached_consistent {mailboxId : Nat} {t : Tracked} (h : Reached mailboxId t) :
    t.Consistent := by
  induction h with
  | select hfetch => exact ⟨consistent_fetchMessages hfetch, by simp⟩
  | step _ hstep ih => exact hstep.consistent ih

/-! ## A deletion that waits -/

def cachedInInbox (uid : Nat) : CachedMessage := ⟨10 * uid, [(0, uid)]⟩

/-- Three messages in the mailbox 0, and the same without the first. -/
def threeCached : MessageCache := ⟨[cachedInInbox 1, cachedInInbox 2, cachedInInbox 3], 1, by decide⟩

def twoCached : MessageCache := ⟨[cachedInInbox 2, cachedInInbox 3], 2, by decide⟩

theorem perm_storedOrder (l : List (Nat × ImapId)) : l.Perm l := List.Perm.refl l

/-- The first message is gone, which the session has found but not announced; then
one is appended. -/
def waiting : Tracked where
  selected := (SelectedState.mk (fetchedState (threeCached.uidMap 0) 1) none).synchronizeMessages 0
    ⟨fun l => l, perm_storedOrder⟩ 1 twoCached
  appended := []

theorem reached_waiting : Reached 0 waiting :=
  .step (t := ⟨⟨fetchedState (threeCached.uidMap 0) 1, none⟩, []⟩) (.select rfl)
    (.synchronize ⟨fun l => l, perm_storedOrder⟩ 1 twoCached)

def waitingAppended : Tracked where
  selected := { waiting.selected with
    current := waiting.selected.current.appendMessages [⟨4, 40⟩] (some 3) }
  appended := [4]

theorem reached_consistent_waiting : waitingAppended.Consistent :=
  reached_consistent (.step reached_waiting (.append [⟨4, 40⟩] (some 3) fun _ =>
    ⟨by decide, by decide, by decide⟩))

/-- The messages that are left keep the numbers they were announced with. -/
theorem not_reached_exact :
    ¬ ∀ mailboxId t, Reached mailboxId t → Consistent t.selected.current [] [] := by
  intro h
  obtain ⟨order, -, hnum, htotal, -⟩ := (h 0 waiting reached_waiting).numbered
  have hlen := hnum.length_eq
  have horder : (numberFrom 0 order).length = order.length := by
    rw [← length_map ImapId.uid, map_uid_numberFrom]
  have htwo : (waiting.selected.current.idToImap.map Prod.snd ++ []).length = 2 := by decide
  have hthree : waiting.selected.current.totalMessages = 3 := by decide
  omega

end Bearmail.Imap
