import Bearmail.Imap.ClientView
import Bearmail.Imap.CopySame

/-!
# COPYUID

The response to `COPY` and `MOVE` lists the UIDs of the messages in the source and in the
destination. Both lists are sorted on their own before they are sent.
-/

namespace Bearmail.Imap

open Positions
open List Function

/-! ## The sets of the response -/

/-- As the client expands them, the two sets of a `COPYUID` code have the same length, and the
UIDs at the same place belong together. -/
def CopyResponse.Corresponds (response : CopyResponse) (belong : Nat → Nat → Prop) : Prop :=
  ∀ src dest, response.sets = some (src, dest) →
    (expand (compress src)).length = (expand (compress dest)).length ∧
    ∀ (k : Nat) s d, (expand (compress src))[k]? = some s → (expand (compress dest))[k]? = some d →
      belong s d

theorem sets_respond (uidValidity : Nat) (isMove : Bool) (response : StatusResponse)
    (copiedIds : List (Nat × Nat)) :
    (respond uidValidity isMove response copiedIds).sets =
      if copiedIds = [] then none
      else some ((copiedIds.map Prod.fst).mergeSort fun a b => decide (a ≤ b),
        (copiedIds.map Prod.snd).mergeSort fun a b => decide (a ≤ b)) := by
  cases copiedIds with
  | nil => cases hok : response.isOk <;> simp [respond, hok, CopyResponse.sets]
  | cons p ps => cases isMove <;> simp [respond, CopyResponse.sets, copyUid]

/-- The sets belong together exactly when the copied pairs are in the same order on both sides. -/
theorem corresponds_respond_iff {uidValidity : Nat} {isMove : Bool} {response : StatusResponse}
    {copiedIds : List (Nat × Nat)} {belong : Nat → Nat → Prop}
    (hbelong : ∀ s d, s ∈ copiedIds.map Prod.fst → (belong s d ↔ (s, d) ∈ copiedIds))
    (hfst : (copiedIds.map Prod.fst).Nodup) (hsnd : (copiedIds.map Prod.snd).Nodup) :
    (respond uidValidity isMove response copiedIds).Corresponds belong ↔
      ∀ p ∈ copiedIds, ∀ q ∈ copiedIds, p.1 < q.1 → p.2 < q.2 := by
  rw [← paired_sort_iff hfst hsnd]
  unfold CopyResponse.Corresponds
  rw [sets_respond]
  by_cases hnil : copiedIds = []
  · subst hnil
    simp [Paired]
  · rw [if_neg hnil]
    constructor
    · intro h k s d hs hd
      obtain ⟨-, hrow⟩ := h _ _ rfl
      rw [expand_compress, expand_compress] at hrow
      have hmem := mem_mergeSort.mp (mem_of_getElem? hs)
      exact (hbelong s d hmem).mp (hrow k s d hs hd)
    · rintro h src dest heq
      obtain ⟨rfl, rfl⟩ := heq
      rw [expand_compress, expand_compress]
      refine ⟨by simp, ?_⟩
      intro k s d hs hd
      have hmem := mem_mergeSort.mp (mem_of_getElem? hs)
      exact (hbelong s d hmem).mpr (h k s d hs hd)

/-- A copy or move within an account: the UIDs belong to one message. -/
def SameMessage (account : StoredAccount) (src dest : Nat) (isMove : Bool) (ids : IdMap)
    (s d : Nat) : Prop :=
  ∃ entry ∈ ids.entries, entry.2.uid = s ∧
    ((copied account src dest isMove ids).messages entry.1).bind (·.messageUid dest) = some d

theorem sameMessage_iff {account : StoredAccount} {src dest : Nat} {isMove : Bool} {ids : IdMap}
    (hne : src ≠ dest) {s d : Nat}
    (hs : s ∈ (copySame account.toAccount src dest isMove ids.entries).copiedIds.map Prod.fst) :
    SameMessage account src dest isMove ids s d ↔
      (s, d) ∈ (copySame account.toAccount src dest isMove ids.entries).copiedIds := by
  rw [copiedIds_copySame hne] at hs ⊢
  rw [map_map, mem_map] at hs
  obtain ⟨o, ho, rfl⟩ := hs
  have hentry : o.entry ∈ ids.entries := copyOutcomes_sublist.subset (mem_map_of_mem ho)
  have huid : ((copied account src dest isMove ids).messages o.entry.1).bind
      (·.messageUid dest) = some o.uid := by
    rw [messages_copied_of_mem hne ho]
    exact (messageUid_of_mem hne ho).2
  constructor
  · rintro ⟨entry, hmem, heq, hd⟩
    rw [inj_on_of_nodup_map ids.uids hmem hentry heq, huid, Option.some.injEq] at hd
    subst hd
    exact mem_map.mpr ⟨o, ho, rfl⟩
  · intro h
    obtain ⟨o', ho', heq⟩ := mem_map.mp h
    simp only [Prod.mk.injEq] at heq
    have hsame : o' = o := by
      refine inj_on_of_nodup_map nodup_keys_copyOutcomes ho' ho ?_
      have hentry' : o'.entry ∈ ids.entries :=
        copyOutcomes_sublist.subset (mem_map_of_mem ho')
      rw [inj_on_of_nodup_map ids.uids hentry' hentry heq.1]
    rw [← heq.2, hsame]
    exact ⟨o.entry, hentry, rfl, huid⟩

/-- Within an account, `COPYUID` is right exactly when the destination has the messages in the
order of their UIDs in the source. -/
theorem corresponds_same_iff (account : StoredAccount) {src dest : Nat} (isMove : Bool)
    (ids : IdMap) (hne : src ≠ dest) (uidValidity : Nat) (response : StatusResponse) :
    (respond uidValidity isMove response
        (copySame account.toAccount src dest isMove ids.entries).copiedIds).Corresponds
        (SameMessage account src dest isMove ids) ↔
      ∀ x ∈ ids.entries, ∀ y ∈ ids.entries, IsCopied account.messages src x →
        IsCopied account.messages src y → x.2.uid < y.2.uid → DestBefore account dest ids x y := by
  obtain ⟨hfst, hsnd⟩ := @nodup_copiedIds account src dest isMove ids
  rw [← copiedIds_copySame hne] at hfst hsnd
  rw [corresponds_respond_iff (fun s d hs => sameMessage_iff hne hs) hfst hsnd, copiedIds_copySame hne]
  constructor
  · intro h x hx y hy hcx hcy hlt
    obtain ⟨o, ho, rfl⟩ := exists_outcome hx hcx
    obtain ⟨o', ho', rfl⟩ := exists_outcome hy hcy
    exact (uid_lt_iff ho ho').mp (h _ (mem_map_of_mem ho) _ (mem_map_of_mem ho') hlt)
  · intro h p hp q hq hlt
    obtain ⟨o, ho, rfl⟩ := mem_map.mp hp
    obtain ⟨o', ho', rfl⟩ := mem_map.mp hq
    have hx := copyOutcomes_sublist.subset (mem_map_of_mem ho)
    have hy := copyOutcomes_sublist.subset (mem_map_of_mem ho')
    exact (uid_lt_iff ho ho').mpr (h _ hx _ hy (isCopied_of_mem ho) (isCopied_of_mem ho') hlt)

/-! ## To another account -/

section Other

variable (env : CopyEnv) (dest : Nat)

def accepted : Account → List (Nat × ImapId) → List ((Nat × ImapId) × IngestedEmail)
  | _, [] => []
  | account, entry :: entries =>
    match copyMessage env account entry.1 [dest] with
    | .error _ => accepted account entries
    | .ok (email, account) => (entry, email) :: accepted account entries

def afterCopies : Account → List (Nat × ImapId) → Account
  | account, [] => account
  | account, entry :: entries =>
    match copyMessage env account entry.1 [dest] with
    | .error _ => afterCopies account entries
    | .ok (_, account) => afterCopies account entries

def Account.withCopy (account : Account) (dest : Nat) : Account where
  messages := Function.update account.messages (account.documentCounter + 1)
    (some ⟨[⟨dest, account.uidCounter dest + 1⟩]⟩)
  uidCounter := Function.update account.uidCounter dest (account.uidCounter dest + 1)
  documentCounter := account.documentCounter + 1

variable {env dest}

/-- A message that is copied gets the next document id and the next UID of the mailbox. -/
theorem copyMessage_ok {account account' : Account} {id : Nat} {email : IngestedEmail}
    (h : copyMessage env account id [dest] = .ok (email, account')) :
    email = ⟨account.documentCounter + 1, [account.uidCounter dest + 1]⟩ ∧
      account' = account.withCopy dest := by
  unfold copyMessage at h
  cases hsize : env.metadata id with
  | none => simp [hsize] at h
  | some size =>
    simp only [hsize] at h
    split at h
    · cases hdup : env.duplicateIds account id with
      | nil =>
        simp only [hdup, assignEmailIds, Except.ok.injEq, Prod.mk.injEq] at h
        exact ⟨h.1.symm, h.2.symm⟩
      | cons existing rest => simp [hdup] at h
    · cases h

variable {account : Account}

/-- A message of the account is an old one, or the copy with a UID above the counter. -/
theorem messages_withCopy {id : Nat} {data : MessageData}
    (h : (account.withCopy dest).messages id = some data) :
    account.messages id = some data ∨ (id = account.documentCounter + 1 ∧
      data = ⟨[⟨dest, account.uidCounter dest + 1⟩]⟩) := by
  simp only [Account.withCopy] at h
  by_cases hid : id = account.documentCounter + 1
  · subst hid
    rw [update_self, Option.some.injEq] at h
    exact Or.inr ⟨rfl, h.symm⟩
  · rw [update_of_ne hid] at h
    exact Or.inl h

theorem uidCounter_le_withCopy (account : Account) (mailbox : Nat) :
    account.uidCounter mailbox ≤ (account.withCopy dest).uidCounter mailbox := by
  unfold Account.withCopy
  by_cases hm : mailbox = dest
  · subst hm
    simp
  · simp [hm]

theorem Account.Consistent.withCopy (hc : account.Consistent) : (account.withCopy dest).Consistent where
  assigned := by
    intro id data hdata m hm
    rcases messages_withCopy hdata with hold | ⟨rfl, rfl⟩
    · obtain ⟨hpos, hle⟩ := hc.assigned id data hold m hm
      exact ⟨hpos, hle.trans (uidCounter_le_withCopy _ _)⟩
    · rw [mem_singleton] at hm
      subst hm
      simp [Account.withCopy]
  distinct := by
    intro id data hdata
    rcases messages_withCopy hdata with hold | ⟨rfl, rfl⟩
    · exact hc.distinct id data hold
    · exact nodup_singleton _
  unique := by
    intro id id' data data' hdata hdata' m hm hm'
    rcases messages_withCopy hdata with hold | ⟨rfl, rfl⟩ <;>
      rcases messages_withCopy hdata' with hold' | ⟨rfl, rfl⟩
    · exact hc.unique id id' data data' hold hold' m hm hm'
    · rw [mem_singleton] at hm'
      subst hm'
      exact absurd (hc.assigned id data hold _ hm).2 (by simp)
    · rw [mem_singleton] at hm
      subst hm
      exact absurd (hc.assigned id' data' hold' _ hm').2 (by simp)
    · rfl
  documents := by
    intro id hid
    simp only [Account.withCopy] at hid ⊢
    rw [update_of_ne (by omega)]
    exact hc.documents id (by omega)

attribute [local simp] accepted afterCopies

theorem foldl_copyOtherStep (isMove : Bool) (run : OtherRun) (entries : List (Nat × ImapId)) :
    (entries.foldl (copyOtherStep env dest isMove) run).copies =
        run.copies ++ (accepted env dest run.account entries).map (fun c => (c.1.1, c.2)) ∧
      (entries.foldl (copyOtherStep env dest isMove) run).copiedIds =
        run.copiedIds ++ (accepted env dest run.account entries).map fun c => (c.1.2.uid, c.2.uid) := by
  induction entries generalizing run with
  | nil => simp [accepted]
  | cons entry entries ih =>
    rw [foldl_cons]
    obtain ⟨hcopies, hids⟩ := ih (copyOtherStep env dest isMove run entry)
    rw [hcopies, hids, accepted, copyOtherStep]
    cases hcopy : copyMessage env run.account entry.1 [dest] with
    | error err => simp
    | ok result =>
      obtain ⟨email, account⟩ := result
      obtain ⟨rfl, -⟩ := copyMessage_ok hcopy
      simp [IngestedEmail.uid]

theorem account_foldl_copyOtherStep (isMove : Bool) (run : OtherRun) (entries : List (Nat × ImapId)) :
    (entries.foldl (copyOtherStep env dest isMove) run).account =
      afterCopies env dest run.account entries := by
  induction entries generalizing run with
  | nil => rfl
  | cons entry entries ih =>
    rw [foldl_cons, ih, afterCopies, copyOtherStep]
    cases copyMessage env run.account entry.1 [dest] with
    | error err | ok result => rfl

theorem messages_afterCopies (entries : List (Nat × ImapId)) {id : Nat}
    (h : id ≤ account.documentCounter) :
    (afterCopies env dest account entries).messages id = account.messages id := by
  induction entries generalizing account with
  | nil => rfl
  | cons entry entries ih =>
    rw [afterCopies]
    cases hcopy : copyMessage env account entry.1 [dest] with
    | error err => exact ih h
    | ok result =>
      obtain ⟨-, hafter⟩ := copyMessage_ok hcopy
      show (afterCopies env dest result.2 entries).messages id = _
      rw [hafter, ih (by simp only [Account.withCopy]; omega)]
      exact update_of_ne (by omega) _ _

theorem mem_accepted {entries : List (Nat × ImapId)}
    {c : (Nat × ImapId) × IngestedEmail} (h : c ∈ accepted env dest account entries) :
    account.uidCounter dest < c.2.uid ∧ (afterCopies env dest account entries).messages c.2.documentId =
        some ⟨[⟨dest, c.2.uid⟩]⟩ := by
  induction entries generalizing account with
  | nil => cases h
  | cons entry entries ih =>
    rw [accepted] at h
    rw [afterCopies]
    cases hcopy : copyMessage env account entry.1 [dest] with
    | error err =>
      rw [hcopy] at h
      exact ih h
    | ok result =>
      obtain ⟨email, account'⟩ := result
      rw [hcopy] at h
      obtain ⟨rfl, rfl⟩ := copyMessage_ok hcopy
      rcases mem_cons.mp h with rfl | h
      · refine ⟨Nat.lt_succ_self _, (messages_afterCopies entries (Nat.le_refl _)).trans ?_⟩
        exact update_self _ _ _
      · obtain ⟨hlt, hmessage⟩ := ih h
        exact ⟨Nat.lt_of_le_of_lt (uidCounter_le_withCopy _ _) hlt, hmessage⟩

theorem pairwise_accepted (account : Account) (entries : List (Nat × ImapId)) :
    (accepted env dest account entries).Pairwise fun c c' => c.2.uid < c'.2.uid := by
  induction entries generalizing account with
  | nil => exact List.Pairwise.nil
  | cons entry entries ih =>
    rw [accepted]
    cases hcopy : copyMessage env account entry.1 [dest] with
    | error err => exact ih account
    | ok result =>
      obtain ⟨email, account'⟩ := result
      obtain ⟨rfl, rfl⟩ := copyMessage_ok hcopy
      refine pairwise_cons.mpr ⟨?_, ih _⟩
      intro c hc
      have hlt := (mem_accepted hc).1
      simpa [Account.withCopy, IngestedEmail.uid] using hlt

theorem accepted_sublist (account : Account) (entries : List (Nat × ImapId)) :
    ((accepted env dest account entries).map Prod.fst).Sublist entries := by
  induction entries generalizing account with
  | nil => exact List.Sublist.refl _
  | cons entry entries ih =>
    rw [accepted]
    cases copyMessage env account entry.1 [dest] with
    | error err => exact (ih account).cons entry
    | ok result => exact (ih result.2).cons_cons entry

end Other

/-- A copy to another account: the second UID is that of the copy of the first one's message. -/
def CopyOf (env : CopyEnv) (account : Account) (response : StatusResponse) (dest : Nat)
    (isMove : Bool) (ids : IdMap) (s d : Nat) : Prop :=
  ∃ entry ∈ ids.entries, entry.2.uid = s ∧
    ∃ email, (entry.1, email) ∈ (copyOther env account response dest isMove ids.entries).copies ∧
      ((copyOther env account response dest isMove ids.entries).account.messages
        email.documentId).bind (·.messageUid dest) = some d

section OtherAccount

variable {env : CopyEnv} {account : Account} {response : StatusResponse} {dest : Nat}
  {isMove : Bool} {ids : IdMap}

theorem copies_copyOther : (copyOther env account response dest isMove ids.entries).copies =
    (accepted env dest account ids.entries).map fun c => (c.1.1, c.2) :=
  (foldl_copyOtherStep isMove _ ids.entries).1

theorem copiedIds_copyOther : (copyOther env account response dest isMove ids.entries).copiedIds =
    (accepted env dest account ids.entries).map fun c => (c.1.2.uid, c.2.uid) :=
  (foldl_copyOtherStep isMove _ ids.entries).2

theorem messageUid_copyOther {c : (Nat × ImapId) × IngestedEmail}
    (h : c ∈ accepted env dest account ids.entries) :
    ((copyOther env account response dest isMove ids.entries).account.messages
      c.2.documentId).bind (·.messageUid dest) = some c.2.uid := by
  rw [copyOther, account_foldl_copyOtherStep, (mem_accepted h).2]
  simp [MessageData.messageUid]

theorem copyOf_iff {s d : Nat}
    (hs : s ∈ (copyOther env account response dest isMove ids.entries).copiedIds.map Prod.fst) :
    CopyOf env account response dest isMove ids s d ↔
      (s, d) ∈ (copyOther env account response dest isMove ids.entries).copiedIds := by
  rw [copiedIds_copyOther] at hs ⊢
  have hentry : ∀ c ∈ accepted env dest account ids.entries, c.1 ∈ ids.entries :=
    fun c hc => (accepted_sublist account ids.entries).subset (mem_map_of_mem hc)
  constructor
  · rintro ⟨entry, hmem, rfl, email, hcopy, hd⟩
    rw [copies_copyOther] at hcopy
    obtain ⟨c, hc, heq⟩ := mem_map.mp hcopy
    simp only [Prod.mk.injEq] at heq
    obtain ⟨hid, rfl⟩ := heq
    have hsame := inj_on_of_nodup_map ids.keys (hentry c hc) hmem hid
    rw [messageUid_copyOther hc, Option.some.injEq] at hd
    exact mem_map.mpr ⟨c, hc, by rw [hsame, hd]⟩
  · intro h
    obtain ⟨c, hc, heq⟩ := mem_map.mp h
    obtain ⟨rfl, rfl⟩ := heq
    refine ⟨c.1, hentry c hc, rfl, c.2, ?_, messageUid_copyOther hc⟩
    rw [copies_copyOther]
    exact mem_map.mpr ⟨c, hc, rfl⟩

/-- From one account to another, `COPYUID` is right exactly when the messages that are copied
come in the order of their UIDs. -/
theorem corresponds_other_iff (uidValidity : Nat) :
    (respond uidValidity isMove (copyOther env account response dest isMove ids.entries).response
        (copyOther env account response dest isMove ids.entries).copiedIds).Corresponds
        (CopyOf env account response dest isMove ids) ↔
      (accepted env dest account ids.entries).Pairwise fun c c' => c.1.2.uid < c'.1.2.uid := by
  have hsnd := @pairwise_accepted env dest account ids.entries
  have hfst : (accepted env dest account ids.entries).Pairwise fun c c' =>
      c.1.2.uid ≠ c'.1.2.uid := by
    have h := (@accepted_sublist env dest account ids.entries).map fun entry => entry.2.uid
    rw [map_map] at h
    exact pairwise_map.mp (ids.uids.sublist h)
  rw [corresponds_respond_iff (fun s d hs => copyOf_iff hs)]
  · rw [copiedIds_copyOther]
    constructor
    · intro h
      refine (hsnd.and hfst).imp_of_mem ?_
      rintro c c' hc hc' ⟨hlt, hne⟩
      by_contra hge
      have := h _ (mem_map_of_mem hc') _ (mem_map_of_mem hc) (by simp only; omega)
      omega
    · intro h p hp q hq
      obtain ⟨c, hc, rfl⟩ := mem_map.mp hp
      obtain ⟨c', hc', rfl⟩ := mem_map.mp hq
      have hboth := (h.and hsnd).imp fun {c c'} hcc (_ : True) (_ : True) => hcc
      exact (lt_iff_lt_of_pairwise hboth hc hc' trivial trivial).mp
  · rw [copiedIds_copyOther, map_map]
    exact pairwise_map.mpr hfst
  · rw [copiedIds_copyOther, map_map]
    exact pairwise_map.mpr (hsnd.imp Nat.ne_of_lt)

end OtherAccount

/-! ## The result -/

/-- For every set of messages and every order of the id map, the sets of `COPYUID` belong
together exactly when, within an account, the destination has the messages in the order of
their UIDs in the source, and from one account to another, the messages that are copied come
in that order. -/
theorem copyUid_corresponds_iff (ids : IdMap) (isMove : Bool) (dest uidValidity : Nat)
    (response : StatusResponse) :
    (∀ (account : StoredAccount) (src : Nat), src ≠ dest →
      ((respond uidValidity isMove response
          (copySame account.toAccount src dest isMove ids.entries).copiedIds).Corresponds
          (SameMessage account src dest isMove ids) ↔
        ∀ x ∈ ids.entries, ∀ y ∈ ids.entries, IsCopied account.messages src x →
          IsCopied account.messages src y → x.2.uid < y.2.uid →
            DestBefore account dest ids x y)) ∧
    (∀ (env : CopyEnv) (account : Account),
      ((respond uidValidity isMove
          (copyOther env account response dest isMove ids.entries).response
          (copyOther env account response dest isMove ids.entries).copiedIds).Corresponds
          (CopyOf env account response dest isMove ids) ↔
        (accepted env dest account ids.entries).Pairwise fun c c' =>
          c.1.2.uid < c'.1.2.uid)) :=
  ⟨fun account _ hne => corresponds_same_iff account isMove ids hne uidValidity response,
    fun _ _ => corresponds_other_iff uidValidity⟩

def emptyAccount : Account := ⟨fun _ => none, fun _ => 0, 0⟩

theorem consistent_emptyAccount : emptyAccount.Consistent where
  assigned := fun _ _ h => by cases h
  distinct := fun _ _ h => by cases h
  unique := fun _ _ _ _ h => by cases h
  documents := fun _ _ => rfl

/-- Two messages with the UIDs 1 and 2 in mailbox 0; mailbox 5 is empty. -/
def twoToCopy : StoredAccount :=
  ⟨(emptyAccount.withCopy 0).withCopy 0, consistent_emptyAccount.withCopy.withCopy⟩

def inOrder : IdMap := ⟨[(1, ⟨1, 1⟩), (2, ⟨2, 2⟩)], by decide, by decide⟩

def outOfOrder : IdMap := ⟨[(2, ⟨2, 2⟩), (1, ⟨1, 1⟩)], by decide, by decide⟩

theorem copyUid_corresponds_inOrder :
    (respond 1 false ⟨true, none, "COPY completed"⟩
      (copySame twoToCopy.toAccount 0 5 false inOrder.entries).copiedIds).Corresponds
      (SameMessage twoToCopy 0 5 false inOrder) := by
  rw [(copyUid_corresponds_iff inOrder false 5 1 ⟨true, none, "COPY completed"⟩).1 twoToCopy 0
    (by decide)]
  intro x hx y hy _ _ hlt
  simp only [inOrder, mem_cons, not_mem_nil, or_false] at hx hy
  rcases hx with rfl | rfl <;> rcases hy with rfl | rfl
  · exact absurd hlt (by decide)
  · show List.idxOf _ _ < List.idxOf _ _
    decide
  all_goals exact absurd hlt (by decide)

/-- The hash map gives the second message first: it gets UID 1 in the destination and the
first one UID 2, but both sets are sent as `1:2`. -/
theorem copyUid_swaps_two_messages :
    ¬ (respond 1 false ⟨true, none, "COPY completed"⟩
      (copySame twoToCopy.toAccount 0 5 false outOfOrder.entries).copiedIds).Corresponds
      (SameMessage twoToCopy 0 5 false outOfOrder) := by
  rw [corresponds_same_iff twoToCopy false outOfOrder (by decide)]
  intro h
  have hbefore := h (1, ⟨1, 1⟩) (by decide) (2, ⟨2, 2⟩) (by decide) ⟨⟨[⟨0, 1⟩]⟩, rfl, rfl⟩
    ⟨⟨[⟨0, 2⟩]⟩, rfl, rfl⟩ (by decide)
  have hidx : List.idxOf ((1, ⟨1, 1⟩) : Nat × ImapId) outOfOrder.entries <
      List.idxOf ((2, ⟨2, 2⟩) : Nat × ImapId) outOfOrder.entries := hbefore
  exact absurd hidx (by decide)

end Bearmail.Imap
