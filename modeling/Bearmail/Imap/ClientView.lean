import Bearmail.Imap.MailboxState

/-!
# Message numbers and the client's view

The client counts messages in the list it has been told about. The server keeps
that numbering in the current state, minus the entries it found deleted, and the
deletions until it has announced them.
-/

namespace Bearmail.Imap

open Positions
open List Option

/-! ## Numbering -/

variable (k : Nat)

attribute [local simp] imapFrom numberFrom

theorem map_snd_imapFrom (items : List (Nat × Nat)) :
    (imapFrom k items).map Prod.snd = numberFrom k (items.map Prod.fst) := by
  induction items generalizing k with
  | nil => rfl
  | cons item items ih => simp [imapFrom, numberFrom, ih]

theorem map_fst_imapFrom (items : List (Nat × Nat)) :
    (imapFrom k items).map Prod.fst = items.map Prod.snd := by
  induction items generalizing k with
  | nil => rfl
  | cons item items ih => simp [imapFrom, ih]

theorem map_uid_numberFrom (uids : List Nat) : (numberFrom k uids).map ImapId.uid = uids := by
  induction uids generalizing k with
  | nil => rfl
  | cons uid uids ih => simp [numberFrom, ih]

theorem map_seqnum_numberFrom (uids : List Nat) :
    (numberFrom k uids).map ImapId.seqnum = List.range' (k + 1) uids.length := by
  induction uids generalizing k with
  | nil => rfl
  | cons uid uids ih => simp [numberFrom, ih, range'_succ]

theorem mem_numberFrom {k : Nat} {uids : List Nat} {x : ImapId} :
    x ∈ numberFrom k uids ↔ ∃ i, uids[i]? = some x.uid ∧ x.seqnum = k + i + 1 := by
  induction uids generalizing k with
  | nil => simp [numberFrom]
  | cons uid uids ih =>
    rw [numberFrom, mem_cons, ih]
    constructor
    · rintro (rfl | ⟨i, hi, hx⟩)
      · exact ⟨0, rfl, rfl⟩
      · exact ⟨i + 1, by simpa using hi, by omega⟩
    · rintro ⟨i, hi, hx⟩
      cases i with
      | zero =>
        cases x with
        | mk u n =>
          simp only [List.getElem?_cons_zero, Option.some.injEq] at hi
          simp only at hx
          simp [hi, hx]
      | succ i => exact Or.inr ⟨i, by simpa using hi, by omega⟩

theorem le_foldl_max (l : List Nat) (a : Nat) : a ≤ l.foldl max a ∧ ∀ x ∈ l, x ≤ l.foldl max a := by
  induction l generalizing a with
  | nil => simp
  | cons y l ih =>
    obtain ⟨h1, h2⟩ := ih (max a y)
    rw [foldl_cons]
    refine ⟨by omega, ?_⟩
    intro x hx
    rcases mem_cons.mp hx with rfl | hx
    · omega
    · exact h2 x hx

theorem foldl_max_lt {l : List Nat} {a b : Nat} (ha : a < b) (h : ∀ x ∈ l, x < b) :
    l.foldl max a < b := by
  induction l generalizing a with
  | nil => exact ha
  | cons y l ih =>
    have hy := h y mem_cons_self
    exact ih (by omega) fun x hx => h x (mem_cons_of_mem y hx)

theorem uidOrder_fetch (m : StoredMailbox) : m.fetch.uidOrder = m.uids := by
  have hmap : m.fetch.idToImap.map (fun entry => entry.2.uid) = m.uids := by
    have h : (fun entry : Nat × ImapId => entry.2.uid) = ImapId.uid ∘ Prod.snd := rfl
    rw [h, ← List.map_map]
    show ((imapFrom 0 m.items).map Prod.snd).map ImapId.uid = m.uids
    rw [map_snd_imapFrom, map_uid_numberFrom]
    rfl
  rw [MailboxState.uidOrder, hmap]
  exact mergeSort_of_perm (List.Perm.refl _) m.sorted

/-! ## The invariant -/

def Follows (old new : List Nat) : Prop := ∀ u ∈ new, u ∈ old ∨ ∀ x ∈ old, x < u

theorem Follows.refl (l : List Nat) : Follows l l := fun _ hu => Or.inl hu

variable {m : StoredMailbox} {w : World} {view : List Nat}

theorem Follows.append {old : List Nat} (h : Follows old m.uids) (hold : ∀ u ∈ old, u < m.uidNext)
    (id : Nat) (hid : id ∉ m.items.map Prod.snd) : Follows old (m.append id hid).uids := by
  intro u hu
  simp only [StoredMailbox.uids, StoredMailbox.append, List.map_append, mem_append] at hu
  rcases hu with hu | hu
  · exact h u hu
  · obtain rfl : u = m.uidNext := by simpa using hu
    exact Or.inr hold

theorem uids_delete_subset (m : StoredMailbox) (gone : Nat → Bool) :
    (m.delete gone).uids ⊆ m.uids :=
  (filter_sublist.map _).subset

def SelectedState.deletions (s : SelectedState) : List ImapId :=
  (s.next.map NextMailboxState.deletions).getD []

/-- The state found last is one the mailbox had after the client's view was true of it. -/
structure NextOk (w : World) (n : NextMailboxState) : Prop where
  found : ∃ m : StoredMailbox, n.nextState = m.fetch ∧ Follows w.view m.uids ∧
    Follows m.uids w.mailbox.uids ∧ (∀ u ∈ m.uids, u < w.mailbox.uidNext) ∧
    (∀ u ∈ w.view, u ∈ m.uids ↔ u ∉ n.deletions.map ImapId.uid) ∧
    (∀ u ∈ w.view, u ∈ w.mailbox.uids → u ∈ m.uids)

structure Inv (w : World) : Prop where
  sorted : w.view.Pairwise (· < ·)
  below : ∀ u ∈ w.view, u < w.mailbox.uidNext
  follows : Follows w.view w.mailbox.uids
  numbered : (w.state.current.idToImap.map Prod.snd ++ w.state.deletions).Perm (numberFrom 0 w.view)
  uidMax : w.state.current.uidMax = w.view.foldl max 0
  total : w.state.current.totalMessages = w.view.length
  next : ∀ n, w.state.next = some n → NextOk w n

theorem Inv.fetched {mailbox : StoredMailbox} (hbelow : ∀ u ∈ m.uids, u < mailbox.uidNext)
    (hfollows : Follows m.uids mailbox.uids) : Inv ⟨mailbox, ⟨m.fetch, none⟩, m.uids⟩ where
  sorted := m.sorted
  below := hbelow
  follows := hfollows
  numbered := by
    show ((imapFrom 0 m.items).map Prod.snd ++ []).Perm (numberFrom 0 m.uids)
    rw [List.append_nil, map_snd_imapFrom]
    exact List.Perm.refl _
  uidMax := rfl
  total := by simp [StoredMailbox.fetch, StoredMailbox.uids]
  next := by simp

theorem Inv.select (m : StoredMailbox) : Inv ⟨m, ⟨m.fetch, none⟩, m.uids⟩ :=
  Inv.fetched (fun u hu => (m.bounds u hu).2) (Follows.refl _)

variable (h : Inv w)
include h

theorem Inv.append (id : Nat) (hid : id ∉ w.mailbox.items.map Prod.snd) :
    Inv { w with mailbox := w.mailbox.append id hid } where
  sorted := h.sorted
  below := fun u hu => Nat.lt_succ_of_lt (h.below u hu)
  follows := h.follows.append h.below id hid
  numbered := h.numbered
  uidMax := h.uidMax
  total := h.total
  next := by
    intro n hn
    obtain ⟨m, hm, h1, h2, h3, h4, h5⟩ := (h.next n hn).found
    refine ⟨m, hm, h1, h2.append h3 id hid, fun u hu => Nat.lt_succ_of_lt (h3 u hu), h4, ?_⟩
    intro u hu hmem
    simp only [StoredMailbox.uids, StoredMailbox.append, List.map_append, mem_append] at hmem
    rcases hmem with hmem | hmem
    · exact h5 u hu hmem
    · -- the new UID was never in the view
      obtain rfl : u = w.mailbox.uidNext := by simpa using hmem
      exact absurd (h.below _ hu) (Nat.lt_irrefl _)

theorem Inv.delete (gone : Nat → Bool) : Inv { w with mailbox := w.mailbox.delete gone } where
  sorted := h.sorted
  below := h.below
  follows := fun u hu => h.follows u (uids_delete_subset _ _ hu)
  numbered := h.numbered
  uidMax := h.uidMax
  total := h.total
  next := by
    intro n hn
    obtain ⟨m, hm, h1, h2, h3, h4, h5⟩ := (h.next n hn).found
    exact ⟨m, hm, h1, fun u hu => h2 u (uids_delete_subset _ _ hu), h3, h4,
      fun u hu hmem => h5 u hu (uids_delete_subset _ _ hmem)⟩

theorem Inv.touch : Inv { w with mailbox := w.mailbox.touch } where
  sorted := h.sorted
  below := h.below
  follows := h.follows
  numbered := h.numbered
  uidMax := h.uidMax
  total := h.total
  next := by
    intro n hn
    exact ⟨(h.next n hn).found⟩

/-- Every message of the view is known to the session or waits to be announced as deleted. -/
theorem Inv.known {u : Nat} (hu : u ∈ w.view) : (∃ entry ∈ w.state.current.idToImap, entry.2.uid = u) ∨
      u ∈ w.state.deletions.map ImapId.uid := by
  have hmem : u ∈ (w.state.current.idToImap.map Prod.snd ++ w.state.deletions).map ImapId.uid := by
    rw [(h.numbered.map ImapId.uid).mem_iff, map_uid_numberFrom]
    exact hu
  rw [List.map_append, mem_append] at hmem
  rcases hmem with hmem | hmem
  · left
    simpa using hmem
  · exact Or.inr hmem

theorem Inv.not_deleted {u : Nat} (hu : u ∈ w.view) (hm : u ∈ w.mailbox.uids) :
    u ∉ w.state.deletions.map ImapId.uid := by
  cases hn : w.state.next with
  | none => simp [SelectedState.deletions, hn]
  | some n =>
    obtain ⟨m, -, -, -, -, h4, h5⟩ := (h.next n hn).found
    have hd : w.state.deletions = n.deletions := by simp [SelectedState.deletions, hn]
    rw [hd]
    exact (h4 u hu).mp (h5 u hu hm)

theorem Inv.synchronize (order : IterationOrder) :
    Inv { w with state := w.state.synchronize order w.mailbox } := by
  unfold SelectedState.synchronize
  split
  · exact h
  · have hperm := order.perm w.state.current.idToImap
    have hkeys : w.mailbox.fetch.uidToId.map Prod.fst = w.mailbox.uids := rfl
    constructor
    case sorted => exact h.sorted
    case below => exact h.below
    case follows => exact h.follows
    case uidMax => exact h.uidMax
    case total => exact h.total
    case numbered =>
      refine List.Perm.trans ?_ h.numbered
      -- the entries found deleted move behind the deletions that waited already
      refine List.Perm.trans ((perm_append_comm).append_left _) ?_
      rw [← append_assoc, ← List.map_append]
      exact ((filter_append_perm _ _).trans hperm).map Prod.snd |>.append_right _
    case next =>
      intro n hn
      obtain rfl := Option.some.inj hn
      refine ⟨w.mailbox, rfl, h.follows, Follows.refl _,
        fun u hu => (w.mailbox.bounds u hu).2, ?_, fun _ _ hm => hm⟩
      intro u hu
      simp only [List.map_append, mem_append, not_or, hkeys]
      constructor
      · intro hm
        refine ⟨h.not_deleted hu hm, ?_⟩
        intro hgone
        simp only [List.map_map, List.mem_map, mem_filter, Bool.not_eq_true',
          decide_eq_false_iff_not] at hgone
        obtain ⟨entry, ⟨-, hnot⟩, rfl⟩ := hgone
        exact hnot hm
      · rintro ⟨hdel, hgone⟩
        rcases h.known hu with ⟨entry, hentry, rfl⟩ | hd
        · by_contra hm
          refine hgone ?_
          simp only [List.map_map, List.mem_map, mem_filter, Bool.not_eq_true', decide_eq_false_iff_not]
          exact ⟨entry, ⟨hperm.mem_iff.mpr hentry, hm⟩, rfl⟩
        · exact absurd hd hdel

omit h

/-! ## Announcing -/

theorem foldl_lower (announced : List Nat) (ids : List Nat) (k : Nat) (view : List Nat) :
    (expungeResponses.lower k ids).foldl (Response.apply announced) view =
      eraseShifted (ids.map (· - 1)) k view := by
  induction ids generalizing k view with
  | nil => rfl
  | cons id ids ih =>
    have hidx : id - k - 1 = id - 1 - k := by omega
    show (expungeResponses.lower (k + 1) ids).foldl _ (view.eraseIdx (id - k - 1)) = _
    rw [ih, hidx]
    rfl

theorem sorted_seqnums {known deletions : List ImapId}
    (h : (known ++ deletions).Perm (numberFrom 0 view)) :
    ((deletions.map ImapId.seqnum).mergeSort (fun a b => decide (a ≤ b))).Pairwise (· < ·) ∧
      ∀ n ∈ deletions.map ImapId.seqnum, 0 < n := by
  have hnodup : (deletions.map ImapId.seqnum).Nodup := by
    have hall : ((known ++ deletions).map ImapId.seqnum).Nodup := by
      rw [(h.map ImapId.seqnum).nodup_iff, map_seqnum_numberFrom]
      exact nodup_range'
    rw [List.map_append] at hall
    exact (nodup_append.mp hall).2.1
  refine ⟨pairwise_lt_mergeSort hnodup, ?_⟩
  intro n hn
  obtain ⟨x, hx, rfl⟩ := List.mem_map.mp hn
  have hx' := h.mem_iff.mp (mem_append_right _ hx)
  obtain ⟨i, -, hi⟩ := mem_numberFrom.mp hx'
  omega

theorem apply_expunged (announced : List Nat) {uids : List Nat} {known deletions : List ImapId}
    (hnum : (known ++ deletions).Perm (numberFrom 0 view)) (hsorted : view.Pairwise (· < ·))
    (hdel : ∀ u ∈ view, u ∈ uids ↔ u ∉ deletions.map ImapId.uid) (isQresync : Bool) :
    (expungeResponses isQresync ((deletions.map fun id =>
        if isQresync then id.uid else id.seqnum).mergeSort (fun a b => decide (a ≤ b)))).foldl
      (Response.apply announced) view = view.filter (fun u => decide (u ∈ uids)) := by
  cases isQresync with
  | true =>
    apply filter_congr
    intro u hu
    rw [expand_compress, decide_eq_decide, mem_mergeSort]
    exact (hdel u hu).symm
  | false =>
    obtain ⟨hps, hpos⟩ := sorted_seqnums hnum
    show (expungeResponses.lower 0 _).foldl _ view = _
    rw [foldl_lower, eraseShifted_eq]
    · apply dropPositions_eq_filter
      intro k hk
      rw [decide_eq_true_eq, hdel _ (List.get_mem view ⟨k, hk⟩), not_iff_not]
      simp only [Bool.false_eq_true, if_false, List.mem_map, mem_mergeSort, get_eq_getElem]
      constructor
      · rintro ⟨x, hx, hxu⟩
        obtain ⟨i, hi, hs⟩ := mem_numberFrom.mp (hnum.mem_iff.mp (mem_append_right _ hx))
        have hik : i = k := by
          have hnodup : view.Nodup := hsorted.imp Nat.ne_of_lt
          rw [hxu] at hi
          obtain ⟨hlt, hval⟩ := List.getElem?_eq_some_iff.mp hi
          exact hnodup.getElem_inj_iff.mp hval
        exact ⟨x.seqnum, ⟨x, hx, rfl⟩, by omega⟩
      · rintro ⟨n, ⟨x, hx, rfl⟩, hn⟩
        obtain ⟨i, hi, hs⟩ := mem_numberFrom.mp (hnum.mem_iff.mp (mem_append_right _ hx))
        have hik : i = k := by omega
        subst hik
        rw [List.getElem?_eq_getElem hk] at hi
        exact ⟨x, hx, (Option.some.inj hi).symm⟩
    · rw [pairwise_map]
      refine hps.imp_of_mem ?_
      intro a b ha hb hab
      have ha' := hpos a (mem_mergeSort.mp ha)
      omega

theorem no_new_uids (hfollows : Follows view m.uids)
    (hmax : m.uids.foldl max 0 - view.foldl max 0 = 0) : ∀ u ∈ m.uids, u ∈ view := by
  intro u hu
  rcases hfollows u hu with h | habove
  · exact h
  · have hpos := (m.bounds u hu).1
    have hlt := foldl_max_lt hpos habove
    have hle := (le_foldl_max m.uids 0).2 u hu
    omega

theorem apply_exists (kept fresh : List Nat) :
    Response.apply (kept ++ fresh) kept (.exists (kept ++ fresh).length) = kept ++ fresh := by
  simp [Response.apply]

theorem expungeResponses_isEmpty (isQresync : Bool) {ids : List Nat} (h : ids ≠ []) :
    (expungeResponses isQresync ids).isEmpty = false := by
  cases isQresync with
  | true => rfl
  | false =>
    cases ids with
    | nil => exact absurd rfl h
    | cons id ids => rfl

theorem apply_announcement {current : MailboxState} {n : NextMailboxState}
    (hn : n.nextState = m.fetch) (hsorted : view.Pairwise (· < ·)) (hfollows : Follows view m.uids)
    (hnum : (current.idToImap.map Prod.snd ++ n.deletions).Perm (numberFrom 0 view))
    (hmax : current.uidMax = view.foldl max 0)
    (hdel : ∀ u ∈ view, u ∈ m.uids ↔ u ∉ n.deletions.map ImapId.uid) (isQresync : Bool) :
    (announcement isQresync current n).foldl (Response.apply m.uids) view = m.uids := by
  obtain ⟨kept, fresh, hkept, hfresh, hsplit⟩ : ∃ kept fresh,
      kept = view.filter (fun u => decide (u ∈ m.uids)) ∧
      fresh = m.uids.filter (fun u => decide (u ∉ view)) ∧ m.uids = kept ++ fresh :=
    ⟨_, _, rfl, rfl, eq_append_of_sorted hsorted m.sorted hfollows⟩
  have htotal : n.nextState.totalMessages = m.uids.length := by
    rw [hn]
    exact (length_map _).symm
  have hexists : Response.apply m.uids kept (.exists m.uids.length) = m.uids := by
    rw [hsplit]
    exact apply_exists kept fresh
  unfold announcement
  by_cases hempty : n.deletions = []
  · have hall : kept = view := by
      rw [hkept, filter_eq_self]
      intro u hu
      rw [decide_eq_true_eq]
      exact (hdel u hu).mpr (by simp [hempty])
    simp only [hempty, if_true, nil_append, isEmpty_nil, Bool.true_eq_false, false_or]
    split
    · rw [htotal, ← hall]
      exact hexists
    · rename_i hno
      have hnone : fresh = [] := by
        rw [hfresh, filter_eq_nil_iff]
        intro u hu
        rw [hn, hmax] at hno
        simpa using no_new_uids hfollows (Nat.eq_zero_of_not_pos hno) u hu
      rw [hsplit, hnone, hall, List.append_nil]
      rfl
  · have hids : (n.deletions.map fun id => if isQresync then id.uid else id.seqnum).mergeSort
        (fun a b => decide (a ≤ b)) ≠ [] := by
      intro h
      exact hempty (by simpa using congrArg List.length h)
    have hexp := apply_expunged m.uids hnum hsorted hdel isQresync
    simp only [hempty, if_false, expungeResponses_isEmpty isQresync hids, true_or, if_true,
      foldl_append, hexp, htotal, foldl_cons, foldl_nil, ← hkept]
    exact hexists

theorem Inv.current_numbered (h : Inv w) (hn : w.state.next = none) :
    (w.state.current.idToImap.map Prod.snd).Perm (numberFrom 0 w.view) ∧
      w.state.current.uidOrder = w.view := by
  have hnum := h.numbered
  simp only [SelectedState.deletions, hn, map_none, getD_none, List.append_nil] at hnum
  have huids := hnum.map ImapId.uid
  rw [map_uid_numberFrom, List.map_map] at huids
  exact ⟨hnum, mergeSort_of_perm huids h.sorted⟩

/-- Announcing: the client's view becomes the UID order of the new state, which
the session then starts from. -/
theorem Inv.announce (h : Inv w) (order : IterationOrder) (isQresync : Bool) :
    (w.state.announce order w.mailbox isQresync).2.foldl
        (Response.apply (w.state.announce order w.mailbox isQresync).1.current.uidOrder) w.view =
      (w.state.announce order w.mailbox isQresync).1.current.uidOrder ∧
    Inv ⟨w.mailbox, (w.state.announce order w.mailbox isQresync).1,
      (w.state.announce order w.mailbox isQresync).2.foldl
        (Response.apply (w.state.announce order w.mailbox isQresync).1.current.uidOrder)
        w.view⟩ := by
  have hs := h.synchronize order
  cases hn : (w.state.synchronize order w.mailbox).next with
  | some n =>
    obtain ⟨m, hm, h1, h2, h3, h4, -⟩ := (hs.next n hn).found
    have hann : w.state.announce order w.mailbox isQresync =
        (⟨m.fetch, none⟩, announcement isQresync (w.state.synchronize order w.mailbox).current n) := by
      simp [SelectedState.announce, hn, hm]
    have hnum := hs.numbered
    simp only [SelectedState.deletions, hn, map_some, getD_some] at hnum
    have hview := apply_announcement hm h.sorted h1 hnum hs.uidMax h4 isQresync
    rw [hann]
    simp only [uidOrder_fetch, hview, true_and]
    exact Inv.fetched h3 h2
  | none =>
    have hann : w.state.announce order w.mailbox isQresync =
        (w.state.synchronize order w.mailbox, []) := by
      simp [SelectedState.announce, hn]
    rw [hann]
    exact ⟨(hs.current_numbered hn).2.symm, hs⟩

theorem reachable_inv (h : Reachable w) : Inv w := by
  induction h with
  | select m => exact Inv.select m
  | step _ hstep ih =>
    cases hstep with
    | append id hid => exact ih.append id hid
    | delete gone => exact ih.delete gone
    | touch => exact ih.touch
    | synchronize order => exact ih.synchronize order
    | announce order isQresync => exact (ih.announce order isQresync).2

/-! ## Resolving sequence numbers -/

/-- The UIDs of the state that sequence sets are resolved against. -/
def World.pending (w : World) : List Nat :=
  ((w.state.next.map NextMailboxState.nextState).getD w.state.current).uidOrder

/-- The numbers of `sequence` mean the messages the client has counted: a message
is found exactly if it has one of these numbers in the client's view and is still there. -/
def Resolves (w : World) (sequence : Sequence) : Prop :=
  ∀ uid, (∃ id number, (id, ⟨uid, number⟩) ∈ w.state.sequenceToIds sequence false) ↔
    ∃ k, w.view[k]? = some uid ∧ sequence.contains (k + 1) w.view.length = true ∧ uid ∈ w.pending

theorem Inv.pending_numbered (h : Inv w) :
    (((w.state.next.map NextMailboxState.nextState).getD w.state.current).idToImap.map
        Prod.snd).Perm (numberFrom 0 w.pending) ∧
      ((w.state.next.map NextMailboxState.nextState).getD w.state.current).totalMessages =
        w.pending.length ∧
      w.pending.Pairwise (· < ·) ∧ Follows w.view w.pending := by
  cases hn : w.state.next with
  | none =>
    obtain ⟨hnum, horder⟩ := h.current_numbered hn
    have hpending : w.pending = w.view := by
      simp [World.pending, hn, horder]
    rw [hpending]
    exact ⟨hnum, h.total, h.sorted, Follows.refl _⟩
  | some n =>
    obtain ⟨m, hm, hfollows, -⟩ := (h.next n hn).found
    have hpending : w.pending = m.uids := by
      simp [World.pending, hn, hm, uidOrder_fetch]
    rw [hpending]
    simp only [map_some, getD_some, hm]
    refine ⟨?_, (length_map _).symm, m.sorted, hfollows⟩
    show ((imapFrom 0 m.items).map Prod.snd).Perm _
    rw [map_snd_imapFrom]
    exact List.Perm.refl _

theorem mem_sequenceToIds (h : Inv w) (sequence : Sequence) (uid : Nat) :
    (∃ id number, (id, ⟨uid, number⟩) ∈ w.state.sequenceToIds sequence false) ↔
      ∃ k, w.pending[k]? = some uid ∧ sequence.contains (k + 1) w.pending.length = true := by
  obtain ⟨hnum, htotal, -⟩ := h.pending_numbered
  simp only [SelectedState.sequenceToIds, Bool.false_eq_true, if_false, htotal, mem_filter]
  constructor
  · rintro ⟨id, number, hmem, hcontains⟩
    have hx : (⟨uid, number⟩ : ImapId) ∈ numberFrom 0 w.pending :=
      hnum.mem_iff.mp (List.mem_map.mpr ⟨_, hmem, rfl⟩)
    obtain ⟨k, hk, hs⟩ := mem_numberFrom.mp hx
    simp only [Nat.zero_add] at hs
    subst hs
    exact ⟨k, hk, hcontains⟩
  · rintro ⟨k, hk, hcontains⟩
    have hx : (⟨uid, k + 1⟩ : ImapId) ∈ numberFrom 0 w.pending :=
      mem_numberFrom.mpr ⟨k, hk, by simp⟩
    obtain ⟨⟨id, x⟩, hmem, rfl⟩ := List.mem_map.mp (hnum.mem_iff.mpr hx)
    exact ⟨id, k + 1, hmem, hcontains⟩

/-- A pending list that ends where the client's view ends and is as long is that view. -/
theorem pending_eq_view (h : Inv w) {last : Nat}
    (hlast : w.pending[w.pending.length - 1]? = some last) (hin : last ∈ w.view)
    (hlen : w.view.length ≤ w.pending.length) : w.pending = w.view := by
  obtain ⟨-, -, hsorted, hfollows⟩ := h.pending_numbered
  obtain ⟨hlt, hval⟩ := List.getElem?_eq_some_iff.mp hlast
  -- nothing of the pending list is above its last element, so nothing of it is new
  have hold : ∀ u ∈ w.pending, u ∈ w.view := by
    intro u hu
    rcases hfollows u hu with h | habove
    · exact h
    · obtain ⟨k, hk, rfl⟩ := getElem_of_mem hu
      have hle : w.pending[k] ≤ last := by
        rw [← hval]
        rcases Nat.lt_or_ge k (w.pending.length - 1) with hk' | hk'
        · exact Nat.le_of_lt (pairwise_iff_getElem.mp hsorted k _ hk hlt hk')
        · have hkeq : k = w.pending.length - 1 := by omega
          subst hkeq
          exact Nat.le_refl _
      have := habove last hin
      omega
  have hsplit := eq_append_of_sorted h.sorted hsorted hfollows
  have hnone : (w.pending.filter fun u => decide (u ∉ w.view)) = [] := by
    rw [filter_eq_nil_iff]
    intro u hu
    simpa using hold u hu
  rw [hnone, List.append_nil] at hsplit
  have hsub : w.pending.Sublist w.view := by
    rw [hsplit]
    exact filter_sublist
  exact hsub.eq_of_length_le hlen

/-- Sequence numbers mean what the client counted exactly when the pending list is
the client's view (or empty, when nothing is found at all). -/
theorem resolves_iff (h : Inv w) :
    (∀ sequence : Sequence, sequence.isSavedSearch = false → Resolves w sequence) ↔
      w.pending = w.view ∨ w.pending = [] := by
  constructor
  · intro hall
    by_cases hne : w.pending = []
    · exact Or.inr hne
    left
    have hpos : 0 < w.pending.length := length_pos_iff.mpr hne
    have hlt : w.pending.length - 1 < w.pending.length := by omega
    have hlast : w.pending[w.pending.length - 1]? = some w.pending[w.pending.length - 1] :=
      List.getElem?_eq_getElem hlt
    -- `*` finds the last pending message, so it is the last one of the view
    have hstar := hall (.range none none) rfl w.pending[w.pending.length - 1]
    rw [mem_sequenceToIds h] at hstar
    obtain ⟨k, hk, hcontains, hmem⟩ := hstar.mp ⟨w.pending.length - 1, hlast, by
      simp only [Sequence.contains, decide_eq_true_eq]
      omega⟩
    simp only [Sequence.contains, decide_eq_true_eq] at hcontains
    -- and its number in the view has to find it
    have hnumber := hall (.number (k + 1)) rfl w.pending[w.pending.length - 1]
    rw [mem_sequenceToIds h] at hnumber
    obtain ⟨j, hj, hjk⟩ := hnumber.mpr ⟨k, hk, by simp [Sequence.contains], hmem⟩
    simp only [Sequence.contains, decide_eq_true_eq] at hjk
    obtain ⟨hjlt, -⟩ := List.getElem?_eq_some_iff.mp hj
    exact pending_eq_view h hlast (mem_of_getElem? hk) (by omega)
  · rintro (heq | hnil) sequence - uid
    · rw [mem_sequenceToIds h, heq]
      constructor
      · rintro ⟨k, hk, hcontains⟩
        exact ⟨k, hk, hcontains, mem_of_getElem? hk⟩
      · rintro ⟨k, hk, hcontains, -⟩
        exact ⟨k, hk, hcontains⟩
    · rw [mem_sequenceToIds h, hnil]
      simp

def threeMessages : StoredMailbox where
  items := [(1, 10), (2, 20), (3, 30)]
  uidNext := 4
  changeId := 5
  sorted := by decide
  distinct := by decide
  bounds := by decide
  positive := by decide

/-- Another session deletes message 1, and this one has synchronized but not announced it. -/
def staleWorld : World :=
  let m := threeMessages.delete fun uid => uid = 1
  ⟨m, SelectedState.synchronize ⟨threeMessages.fetch, none⟩ ⟨fun l => l, List.Perm.refl⟩ m,
    threeMessages.uids⟩

end Bearmail.Imap
