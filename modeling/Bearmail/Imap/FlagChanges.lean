import Mathlib.Algebra.Group.Nat.Defs
import Bearmail.Imap.ClientView
import Bearmail.Sync.Log

/-!
# Flag changes

`write_changes` of `imap/src/op/idle.rs`, which `NOOP` and `IDLE` run: after the mailbox has been
announced, the change log is read from the change number that the selected mailbox had before,
and the flags of the messages it names are sent. Every other command synchronizes first, and so
moves that number on.

A commit of any session changes the mailbox, the keywords of some documents and the log. A
command of this session is one step: no commit of another session falls between its reads. The
log is not cut while the mailbox is selected.
-/

namespace Bearmail.Imap

open Sync
open List Option

/-! ## Commits -/

def documentOf (itemId : Nat) : Nat := itemId % 2 ^ 32

def StoredMailbox.documents (m : StoredMailbox) : List Nat := m.items.map Prod.snd

inductive MailboxStep (m : StoredMailbox) : StoredMailbox → Prop where
  | append (id : Nat) (h : id ∉ m.items.map Prod.snd) : MailboxStep m (m.append id h)
  | delete (gone : Nat → Bool) : MailboxStep m (m.delete gone)
  | touch : MailboxStep m m.touch

/-- An entry names a document as inserted or updated, and not as deleted again. -/
def Renews (entry : LogEntry) (document : Nat) : Prop :=
  ∃ id, (id ∈ entry.itemInserts ∨ id ∈ entry.itemUpdates) ∧ id ∉ entry.itemDeletes ∧
    documentOf id = document

structure Commit (m : StoredMailbox) where
  mailbox : StoredMailbox
  entry : LogEntry
  /-- the documents whose keywords it changes -/
  changed : Nat → Bool
  path : Relation.TransGen MailboxStep m mailbox
  distinct : entry.Distinct
  /-- a change of keywords is logged -/
  logged : ∀ document ∈ mailbox.documents, changed document = true → Renews entry document
  /-- a message that stays is logged as deleted only when it goes to another thread -/
  stays : ∀ id ∈ entry.itemDeletes, documentOf id ∈ mailbox.documents →
    Renews entry (documentOf id)

/-! ## The session -/

/-- A session with the log, and the messages of its client's view (by UID) whose keywords have
changed since the client was sent their flags. -/
structure FlagWorld where
  world : World
  log : Log
  unsent : Nat → Bool

def FlagWorld.modseq (w : FlagWorld) : Nat := w.world.state.current.modseq

def FlagWorld.commit (w : FlagWorld) (c : Commit w.world.mailbox) : FlagWorld where
  world := { w.world with mailbox := c.mailbox }
  log := w.log ++ [(c.mailbox.changeId, some c.entry)]
  unsent := fun uid => w.unsent uid || (decide (uid ∈ w.world.view) &&
    c.mailbox.items.any fun item => decide (item.1 = uid) && c.changed item.2)

def FlagWorld.synchronize (w : FlagWorld) (order : IterationOrder) : FlagWorld :=
  { w with world := { w.world with state := w.world.state.synchronize order w.world.mailbox } }

def FlagWorld.send (w : FlagWorld) (sends : Nat → Bool) : FlagWorld :=
  { w with unsent := fun uid => w.unsent uid && !sends uid }

/-- A command that synchronizes, may commit changes of its own, and sends the flags of some
messages: `FETCH`, `STORE`, `COPY`, `SEARCH`. -/
def FlagWorld.command (w : FlagWorld) (order : IterationOrder)
    (own : Option (Commit w.world.mailbox)) (sends : Nat → Bool) : FlagWorld :=
  let synced := w.synchronize order
  let changed := own.elim synced synced.commit
  changed.send sends

/-- `write_mailbox_changes`, as `EXPUNGE` and `MOVE` end with. A message that leaves the view has
no flags to be sent. -/
def FlagWorld.announce (w : FlagWorld) (order : IterationOrder) (isQresync : Bool) : FlagWorld :=
  let result := w.world.state.announce order w.world.mailbox isQresync
  let view := result.2.foldl (Response.apply result.1.current.uidOrder) w.world.view
  { w with
    world := { w.world with state := result.1, view }
    unsent := fun uid => w.unsent uid && decide (uid ∈ view) }

/-- The messages of the selected mailbox that the log names after a change number. -/
def FlagWorld.changedIds (w : FlagWorld) (modseq : Nat) : List Nat :=
  (w.log.changes false (.since modseq)).changes.filterMap fun change =>
    if change.isContainer then none
    else (w.world.state.current.idToImap.lookup (documentOf change.id)).map ImapId.uid

/-- `FETCH` of flags, for a set of UIDs: the messages that the cache has are sent. -/
def FlagWorld.fetchFlags (w : FlagWorld) (order : IterationOrder) (sequence : Sequence) :
    FlagWorld :=
  let ids := (w.synchronize order).world.state.sequenceToIds sequence true
  w.command order none fun uid => ids.any fun entry =>
    decide (entry.2.uid = uid ∧ entry.1 ∈ w.world.mailbox.documents)

def FlagWorld.writeChanges (w : FlagWorld) (order : IterationOrder) (isQresync : Bool) :
    FlagWorld :=
  let newState := (w.synchronize order).modseq
  let announced := w.announce order isQresync
  if newState = w.modseq then announced
  else
    let changedIds := announced.changedIds w.modseq
    if changedIds = [] then announced
    else announced.fetchFlags order (.list (changedIds.map .number))

/-! ## Runs -/

/-- The messages whose change would be passed over: those that are still in the mailbox and are
not sent. -/
def FlagWorld.Unheeded (w : FlagWorld) (sends : Nat → Bool) (uid : Nat) : Prop :=
  uid ∈ w.world.view ∧ w.unsent uid = true ∧ uid ∈ w.world.mailbox.uids ∧ sends uid = false

/-- A synchronization passes over no change: it finds nothing new, or every change is sent. -/
def FlagWorld.Heeds (w : FlagWorld) (sends : Nat → Bool) : Prop :=
  w.world.mailbox.changeId = w.modseq ∨ ∀ uid, ¬ w.Unheeded sends uid

/-- The worlds reached when every command but `write_changes` heeds the changes. -/
inductive HeedingRun : FlagWorld → Prop where
  | select (m : StoredMailbox) (log : Log) (hlog : ∀ item ∈ log, item.1 ≤ m.changeId) :
      HeedingRun ⟨⟨m, ⟨m.fetch, none⟩, m.uids⟩, log, fun _ => false⟩
  | commit {w : FlagWorld} (h : HeedingRun w) (c : Commit w.world.mailbox)
      (hnew : ∀ item ∈ w.log, item.1 < c.mailbox.changeId) : HeedingRun (w.commit c)
  /-- A commit without messages: the number of the cached messages stays. -/
  | containers {w : FlagWorld} (h : HeedingRun w) (id : Nat) (entry : LogEntry)
      (hentry : entry.hasItemChanges = false) (hnew : ∀ item ∈ w.log, item.1 < id)
      (hmod : w.world.mailbox.changeId < id) :
      HeedingRun { w with log := w.log ++ [(id, some entry)] }
  /-- The cache is built again, and starts from the number of the last commit. -/
  | rebuild {w : FlagWorld} (h : HeedingRun w) :
      HeedingRun { w with world := { w.world with mailbox := w.world.mailbox.touch } }
  | command {w : FlagWorld} (h : HeedingRun w) (order : IterationOrder)
      (own : Option (Commit w.world.mailbox)) (sends : Nat → Bool)
      (hnew : ∀ c, own = some c → ∀ item ∈ w.log, item.1 < c.mailbox.changeId)
      (hheeds : w.Heeds sends) : HeedingRun (w.command order own sends)
  | announce {w : FlagWorld} (h : HeedingRun w) (order : IterationOrder) (isQresync : Bool)
      (hheeds : w.Heeds fun _ => false) : HeedingRun (w.announce order isQresync)
  | writeChanges {w : FlagWorld} (h : HeedingRun w) (order : IterationOrder)
      (isQresync : Bool) : HeedingRun (w.writeChanges order isQresync)

/-! ## What the log names -/

def Names (changes : List Change) (document : Nat) : Prop :=
  ∃ id, documentOf id = document ∧ kindsOf false id changes ≠ []

theorem insertKinds_ne_nil (kinds : List ChangeKind) : insertKinds kinds ≠ [] := by
  simp [insertKinds]

theorem updateKinds_ne_nil (isProperty : Bool) (kinds : List ChangeKind) :
    updateKinds isProperty kinds ≠ [] := by
  unfold updateKinds
  cases hfind : kinds.find? fun k => decide (k ≠ .delete) with
  | none => simp
  | some kind =>
    have hne : kinds ≠ [] := ne_nil_of_mem (List.mem_of_find?_eq_some hfind)
    cases kind with
    | insert => exact hne
    | _ => simp

variable {id uid : Nat} {entry : LogEntry} {m : StoredMailbox} {w : FlagWorld} {sends : Nat → Bool}

theorem applyIf_ne_nil {ids : List Nat} {f : List ChangeKind → List ChangeKind}
    {kinds : List ChangeKind} (hf : ∀ kinds, f kinds ≠ []) (h : id ∈ ids ∨ kinds ≠ []) :
    applyIf ids id f kinds ≠ [] := by
  unfold applyIf
  split
  · exact hf kinds
  · rename_i hmem
    exact h.resolve_left hmem

/-- An item that an entry does not delete stays named, and is named when it is inserted or
updated. -/
theorem fold_ne_nil {kinds : List ChangeKind} (hdelete : id ∉ entry.itemDeletes)
    (h : id ∈ entry.itemInserts ∨ id ∈ entry.itemUpdates ∨ kinds ≠ []) :
    entry.fold false id kinds ≠ [] := by
  have hskip : entry.fold false id kinds = applyIf entry.itemUpdates id (updateKinds false)
        (applyIf entry.itemInserts id insertKinds kinds) := by
    simp [LogEntry.fold_item, applyIf, hdelete]
  rw [hskip]
  refine applyIf_ne_nil (updateKinds_ne_nil false) ?_
  rcases h with hinsert | hupdate | hkinds
  · exact Or.inr (applyIf_ne_nil insertKinds_ne_nil (Or.inl hinsert))
  · exact Or.inl hupdate
  · exact Or.inr (applyIf_ne_nil insertKinds_ne_nil (Or.inr hkinds))

theorem names_of_renews (hd : entry.Distinct) {document : Nat} (h : Renews entry document)
    (changes : List Change) : Names (deserialize changes entry) document := by
  obtain ⟨id, hin, hnot, rfl⟩ := h
  refine ⟨id, rfl, ?_⟩
  rw [kindsOf_deserialize hd]
  exact fold_ne_nil hnot (by tauto)

theorem names_deserialize (hd : entry.Distinct) {document : Nat} {changes : List Change}
    (h : Names changes document)
    (hstays : ∀ id ∈ entry.itemDeletes, documentOf id = document → Renews entry document) :
    Names (deserialize changes entry) document := by
  obtain ⟨id, hid, hkinds⟩ := h
  by_cases hdelete : id ∈ entry.itemDeletes
  · exact names_of_renews hd (hstays id hdelete hid) changes
  · refine ⟨id, hid, ?_⟩
    rw [kindsOf_deserialize hd]
    exact fold_ne_nil hdelete (Or.inr (Or.inr hkinds))

/-! ## What a commit does to the mailbox -/

theorem MailboxStep.item {m' : StoredMailbox} (h : MailboxStep m m') :
    m.uidNext ≤ m'.uidNext ∧ m.changeId < m'.changeId ∧
      ∀ item ∈ m'.items, item ∈ m.items ∨ m.uidNext ≤ item.1 := by
  cases h with
  | append id h =>
    refine ⟨Nat.le_succ _, Nat.lt_succ_self _, fun item hitem => ?_⟩
    rcases mem_append.mp hitem with hold | hnew
    · exact Or.inl hold
    · rw [mem_singleton.mp hnew]
      exact Or.inr (Nat.le_refl _)
  | delete gone =>
    exact ⟨Nat.le_refl _, Nat.lt_succ_self _, fun item hitem => Or.inl (mem_of_mem_filter hitem)⟩
  | touch => exact ⟨Nat.le_refl _, Nat.lt_succ_self _, fun item hitem => Or.inl hitem⟩

theorem Inv.mailboxStep {mailbox m' : StoredMailbox} {state : SelectedState} {view : List Nat}
    (h : Inv ⟨mailbox, state, view⟩) (hstep : MailboxStep mailbox m') : Inv ⟨m', state, view⟩ := by
  cases hstep with
  | append id hid => exact h.append id hid
  | delete gone => exact h.delete gone
  | touch => exact h.touch

theorem Commit.spec {w : World} (h : Inv w) (c : Commit w.mailbox) :
    Inv { w with mailbox := c.mailbox } ∧ w.mailbox.changeId < c.mailbox.changeId ∧
      ∀ uid ∈ w.view, ∀ id, (uid, id) ∈ c.mailbox.items → (uid, id) ∈ w.mailbox.items := by
  have hpath : Inv { w with mailbox := c.mailbox } ∧ w.mailbox.uidNext ≤ c.mailbox.uidNext ∧
      w.mailbox.changeId < c.mailbox.changeId ∧
      ∀ item ∈ c.mailbox.items, item ∈ w.mailbox.items ∨ w.mailbox.uidNext ≤ item.1 := by
    have hp := c.path
    generalize c.mailbox = m at hp
    induction hp with
    | single hstep => exact ⟨h.mailboxStep hstep, hstep.item⟩
    | tail _ hstep ih =>
      obtain ⟨hinv, hnext, hchange, hitems⟩ := ih
      obtain ⟨hnext', hchange', hitems'⟩ := hstep.item
      refine ⟨hinv.mailboxStep hstep, hnext.trans hnext', hchange.trans hchange', ?_⟩
      intro item hitem
      rcases hitems' item hitem with hold | hnew
      · exact hitems item hold
      · exact Or.inr (hnext.trans hnew)
  obtain ⟨hinv, -, hchange, hitems⟩ := hpath
  refine ⟨hinv, hchange, fun uid huid id hmem => ?_⟩
  rcases hitems _ hmem with hold | hnew
  · exact hold
  · exact absurd (h.below uid huid) (Nat.not_lt.mpr hnew)

/-! ## The invariant -/

/-- What the log says after the number of the selected mailbox. -/
def FlagWorld.logged (w : FlagWorld) : List Change :=
  (w.log.changes false (.since w.modseq)).changes

structure FlagInv (w : FlagWorld) : Prop where
  inv : Inv w.world
  modseq : w.modseq ≤ w.world.mailbox.changeId
  next : ∀ n, w.world.state.next = some n → n.nextState.modseq = w.modseq
  /-- without a new number, the session has found the mailbox as it is -/
  found : w.modseq = w.world.mailbox.changeId → w.world.pending = w.world.mailbox.uids
  /-- what is logged behind the number of the mailbox is about containers -/
  behind : ∀ item ∈ w.log, w.world.mailbox.changeId < item.1 → ∀ entry, item.2 = some entry →
    entry.hasItemChanges = false
  view : ∀ uid, w.unsent uid = true → uid ∈ w.world.view
  named : ∀ uid, w.unsent uid = true → ∀ id, (uid, id) ∈ w.world.mailbox.items → Names w.logged id

theorem FlagInv.quiet (h : FlagInv w) (hnew : w.modseq = w.world.mailbox.changeId) (document : Nat) :
    ¬ Names w.logged document := by
  rintro ⟨id, -, hkinds⟩
  refine hkinds ?_
  rw [FlagWorld.logged, hnew]
  exact Log.kindsOf_since h.behind id

theorem FlagInv.sent (h : FlagInv w) (hnew : w.modseq = w.world.mailbox.changeId)
    (huid : uid ∈ w.world.mailbox.uids) : w.unsent uid = false := by
  by_contra hunsent
  obtain ⟨⟨u, id⟩, hitem, rfl⟩ := List.mem_map.mp huid
  exact h.quiet hnew id (h.named u (by simpa using hunsent) id hitem)

theorem FlagInv.select (m : StoredMailbox) {log : Log} (hlog : ∀ item ∈ log, item.1 ≤ m.changeId) :
    FlagInv ⟨⟨m, ⟨m.fetch, none⟩, m.uids⟩, log, fun _ => false⟩ where
  inv := Inv.select m
  modseq := Nat.le_refl _
  next := fun n hn => by cases hn
  found := fun _ => uidOrder_fetch m
  behind := fun item hitem hlt => absurd (hlog item hitem) (Nat.not_le.mpr hlt)
  view := fun uid h => by cases h
  named := fun uid h => by cases h

theorem FlagInv.commit (h : FlagInv w) (c : Commit w.world.mailbox)
    (hnew : ∀ item ∈ w.log, item.1 < c.mailbox.changeId) : FlagInv (w.commit c) := by
  obtain ⟨hinv, hchange, hitems⟩ := c.spec h.inv
  have hlt : w.modseq < c.mailbox.changeId := Nat.lt_of_le_of_lt h.modseq hchange
  have hlogged : (w.commit c).logged = deserialize w.logged c.entry :=
    Log.changes_append_since hlt
  have hne : (w.commit c).modseq ≠ (w.commit c).world.mailbox.changeId := Nat.ne_of_lt hlt
  refine ⟨hinv, Nat.le_of_lt hlt, h.next, fun heq => absurd heq hne, ?_, ?_, ?_⟩
  · intro item hitem hbehind
    rcases mem_append.mp hitem with hold | hlast
    · exact absurd (hnew item hold) (Nat.not_lt.mpr (Nat.le_of_lt hbehind))
    · rw [mem_singleton.mp hlast] at hbehind
      exact absurd hbehind (Nat.lt_irrefl _)
  · intro uid hunsent
    simp only [FlagWorld.commit, Bool.or_eq_true, Bool.and_eq_true, decide_eq_true_eq] at hunsent
    rcases hunsent with hold | hchanged
    · exact h.view uid hold
    · exact hchanged.1
  · intro uid hunsent id hitem
    rw [hlogged]
    have hdocument : id ∈ c.mailbox.documents := List.mem_map.mpr ⟨_, hitem, rfl⟩
    simp only [FlagWorld.commit, Bool.or_eq_true, Bool.and_eq_true, decide_eq_true_eq,
      List.any_eq_true] at hunsent
    rcases hunsent with hold | ⟨-, ⟨uid', id'⟩, hitem', rfl, hchanged⟩
    · have hbefore := hitems uid (h.view uid hold) id hitem
      refine names_deserialize c.distinct (h.named uid hold id hbefore) ?_
      intro itemId hdelete hid
      exact hid ▸ c.stays itemId hdelete (hid ▸ hdocument)
    · obtain rfl : id' = id := by
        have hnodup : c.mailbox.uids.Nodup := c.mailbox.sorted.imp Nat.ne_of_lt
        exact congrArg Prod.snd (inj_on_of_nodup_map hnodup hitem' hitem rfl)
      exact names_of_renews c.distinct (c.logged id' hdocument hchanged) _

theorem FlagInv.containers (h : FlagInv w) (hentry : entry.hasItemChanges = false)
    (hmod : w.world.mailbox.changeId < id) :
    FlagInv { w with log := w.log ++ [(id, some entry)] } := by
  have hlt : w.modseq < id := Nat.lt_of_le_of_lt h.modseq hmod
  refine ⟨h.inv, h.modseq, h.next, h.found, ?_, h.view, ?_⟩
  · intro item hitem hbehind e he
    rcases mem_append.mp hitem with hold | hlast
    · exact h.behind item hold hbehind e he
    · rw [mem_singleton.mp hlast] at he
      exact Option.some.inj he ▸ hentry
  · intro uid hunsent document hitem
    obtain ⟨itemId, hid, hkinds⟩ := h.named uid hunsent document hitem
    refine ⟨itemId, hid, ?_⟩
    have hlogged : FlagWorld.logged { w with log := w.log ++ [(id, some entry)] } =
        deserialize w.logged entry := Log.changes_append_since hlt
    rw [hlogged, kindsOf_deserialize_containers hentry]
    exact hkinds

theorem FlagInv.rebuild (h : FlagInv w) :
    FlagInv { w with world := { w.world with mailbox := w.world.mailbox.touch } } := by
  have hlt : w.modseq < w.world.mailbox.changeId + 1 := Nat.lt_succ_of_le h.modseq
  refine ⟨h.inv.touch, Nat.le_of_lt hlt, h.next, fun heq => absurd heq (Nat.ne_of_lt hlt), ?_,
    h.view, h.named⟩
  intro item hitem hbehind
  exact h.behind item hitem (Nat.lt_of_succ_lt hbehind)

/-! ## Synchronizing -/

variable (order : IterationOrder)

theorem synchronize_same {s : SelectedState} (h : m.changeId = s.current.modseq) : s.synchronize order m = s := if_pos h

theorem synchronize_changed {s : SelectedState} (h : m.changeId ≠ s.current.modseq) :
    (s.synchronize order m).current.modseq = m.changeId ∧
      ∃ deletions, (s.synchronize order m).next = some ⟨m.fetch, deletions⟩ := by
  rw [SelectedState.synchronize, if_neg h]
  exact ⟨rfl, _, rfl⟩

theorem FlagInv.synchronized (h : FlagInv w) (order : IterationOrder) :
    (w.synchronize order).modseq = w.world.mailbox.changeId ∧
      (∀ n, (w.synchronize order).world.state.next = some n →
        n.nextState.modseq = w.world.mailbox.changeId) ∧
      (w.synchronize order).world.pending = w.world.mailbox.uids := by
  by_cases hnew : w.world.mailbox.changeId = w.modseq
  · have hsame : w.synchronize order = w := by
      rw [FlagWorld.synchronize, synchronize_same order hnew]
    rw [hsame]
    exact ⟨hnew.symm, fun n hn => (h.next n hn).trans hnew.symm, h.found hnew.symm⟩
  · obtain ⟨hmodseq, deletions, hnext⟩ := synchronize_changed order hnew
    refine ⟨hmodseq, ?_, ?_⟩
    · intro n hn
      have heq : some n = some ⟨w.world.mailbox.fetch, deletions⟩ := hn.symm.trans hnext
      obtain rfl := Option.some.inj heq
      rfl
    · simp only [World.pending, FlagWorld.synchronize, hnext, map_some, getD_some]
      exact uidOrder_fetch w.world.mailbox

/-- When no change is passed over, nothing is left to be sent for the messages still there. -/
theorem FlagInv.heeded (h : FlagInv w) (hheeds : w.Heeds sends) (hunsent : w.unsent uid = true)
    (hthere : uid ∈ w.world.mailbox.uids) : sends uid = true := by
  rcases hheeds with hnew | hall
  · rw [h.sent hnew.symm hthere] at hunsent
    cases hunsent
  · by_contra hsends
    exact hall uid ⟨h.view uid hunsent, hunsent, hthere, by simpa using hsends⟩

theorem FlagInv.send (h : FlagInv w) (sends : Nat → Bool) : FlagInv (w.send sends) := by
  have hunsent : ∀ uid, (w.send sends).unsent uid = true → w.unsent uid = true := by
    intro uid hsent
    simp only [FlagWorld.send, Bool.and_eq_true] at hsent
    exact hsent.1
  exact ⟨h.inv, h.modseq, h.next, h.found, h.behind, fun uid hu => h.view uid (hunsent uid hu),
    fun uid hu => h.named uid (hunsent uid hu)⟩

theorem FlagInv.synchronize_send (h : FlagInv w) (order : IterationOrder) (hheeds : w.Heeds sends) :
    FlagInv ((w.synchronize order).send sends) := by
  obtain ⟨hmodseq, hnext, hpending⟩ := h.synchronized order
  refine ⟨h.inv.synchronize order, Nat.le_of_eq hmodseq,
    fun n hn => (hnext n hn).trans hmodseq.symm, fun _ => hpending, h.behind, ?_, ?_⟩
  · intro uid hunsent
    simp only [FlagWorld.send, FlagWorld.synchronize, Bool.and_eq_true] at hunsent
    exact h.view uid hunsent.1
  · intro uid hunsent id hitem
    simp only [FlagWorld.send, FlagWorld.synchronize, Bool.and_eq_true, Bool.not_eq_true'] at hunsent
    have hsends := h.heeded hheeds hunsent.1 (List.mem_map.mpr ⟨_, hitem, rfl⟩)
    rw [hsends] at hunsent
    cases hunsent.2

theorem or_and_not (a b c : Bool) : ((a || b) && !c) = ((a && !c || b) && !c) := by
  cases a <;> cases b <;> cases c <;> rfl

theorem FlagInv.command (h : FlagInv w) (order : IterationOrder) (own : Option (Commit w.world.mailbox))
    (hnew : ∀ c, own = some c → ∀ item ∈ w.log, item.1 < c.mailbox.changeId)
    (hheeds : w.Heeds sends) : FlagInv (w.command order own sends) := by
  have hsync := h.synchronize_send order hheeds
  cases own with
  | none => exact hsync
  | some c =>
    have hcommit : FlagInv (((w.synchronize order).send sends).commit c) :=
      hsync.commit c (hnew c rfl)
    -- what is sent after the own commit might as well be sent before it, and again
    have heq : w.command order (some c) sends =
        (((w.synchronize order).send sends).commit c).send sends := by
      simp only [FlagWorld.command, Option.elim, FlagWorld.send, FlagWorld.commit,
        FlagWorld.synchronize, FlagWorld.mk.injEq, true_and]
      funext uid
      exact or_and_not _ _ _
    rw [heq]
    exact hcommit.send sends

/-! ## Announcing -/

theorem FlagInv.announced (h : FlagInv w) (order : IterationOrder) (isQresync : Bool) :
    (w.announce order isQresync).modseq = w.world.mailbox.changeId ∧
      (w.announce order isQresync).world.state.next = none ∧
      (w.announce order isQresync).world.view = w.world.mailbox.uids ∧
      (w.announce order isQresync).world.pending = w.world.mailbox.uids ∧
      Inv (w.announce order isQresync).world := by
  obtain ⟨hmodseq, hnext, hpending⟩ := h.synchronized order
  obtain ⟨hview, hinv⟩ := h.inv.announce order isQresync
  have hstate : (w.announce order isQresync).modseq = w.world.mailbox.changeId ∧
      (w.announce order isQresync).world.state.next = none ∧
      (w.announce order isQresync).world.state.current.uidOrder = w.world.mailbox.uids := by
    simp only [FlagWorld.announce, FlagWorld.modseq, SelectedState.announce]
    cases hn : (w.world.state.synchronize order w.world.mailbox).next with
    | none =>
      simp only [World.pending, FlagWorld.synchronize, hn, map_none, getD_none] at hpending
      exact ⟨hmodseq, hn, hpending⟩
    | some n =>
      simp only [World.pending, FlagWorld.synchronize, hn, map_some, getD_some] at hpending
      exact ⟨hnext n hn, rfl, hpending⟩
  refine ⟨hstate.1, hstate.2.1, hview.trans hstate.2.2, ?_, hinv⟩
  simp only [World.pending, hstate.2.1, map_none, getD_none]
  exact hstate.2.2

theorem FlagInv.of_announced {w' : FlagWorld} (h : FlagInv w) (order : IterationOrder)
    (isQresync : Bool) (hworld : w'.world = (w.announce order isQresync).world)
    (hlog : w'.log = w.log) (hsent : ∀ uid, w'.unsent uid = false) : FlagInv w' := by
  obtain ⟨hmodseq, hnext, -, hpending, hinv⟩ := h.announced order isQresync
  have hmod : w'.modseq = w'.world.mailbox.changeId := by
    rw [FlagWorld.modseq, hworld]
    exact hmodseq
  have hnone : w'.world.state.next = none := by rw [hworld]; exact hnext
  refine ⟨hworld ▸ hinv, Nat.le_of_eq hmod, ?_, fun _ => ?_, ?_, ?_, ?_⟩
  · intro n hn
    rw [hnone] at hn
    cases hn
  · rw [hworld]
    exact hpending
  · rw [hlog, hworld]
    exact h.behind
  all_goals
    intro uid hunsent
    rw [hsent] at hunsent
    cases hunsent

/-- What is unsent after an announcement was unsent before, for a message still there. -/
theorem FlagInv.unsent_announce (h : FlagInv w) (order : IterationOrder) (isQresync : Bool)
    (hunsent : (w.announce order isQresync).unsent uid = true) :
    w.unsent uid = true ∧ uid ∈ w.world.mailbox.uids := by
  have hview := (h.announced order isQresync).2.2.1
  have hboth : w.unsent uid = true ∧ uid ∈ (w.announce order isQresync).world.view := by
    simpa only [FlagWorld.announce, Bool.and_eq_true, decide_eq_true_eq] using hunsent
  rw [hview] at hboth
  exact hboth

theorem FlagInv.announce_sent (h : FlagInv w) (order : IterationOrder) (isQresync : Bool)
    (hheeds : w.Heeds fun _ => false) (uid : Nat) :
    (w.announce order isQresync).unsent uid = false := by
  by_contra hunsent
  obtain ⟨hold, hthere⟩ := h.unsent_announce order isQresync (by simpa using hunsent)
  have hsends := h.heeded hheeds hold hthere
  cases hsends

theorem FlagInv.announce (h : FlagInv w) (order : IterationOrder) (isQresync : Bool)
    (hheeds : w.Heeds fun _ => false) : FlagInv (w.announce order isQresync) :=
  h.of_announced order isQresync rfl rfl (h.announce_sent order isQresync hheeds)

/-! ## Writing the changes -/

theorem lookup_imapFrom {items : List (Nat × Nat)} (hnodup : (items.map Prod.snd).Nodup)
    (h : (uid, id) ∈ items) (k : Nat) :
    ∃ number, (imapFrom k items).lookup id = some ⟨uid, number⟩ := by
  induction items generalizing k with
  | nil => cases h
  | cons item items ih =>
    obtain ⟨uid', id'⟩ := item
    rw [map_cons, nodup_cons] at hnodup
    rw [imapFrom, lookup_cons]
    rcases mem_cons.mp h with heq | hmem
    · obtain ⟨rfl, rfl⟩ := Prod.mk.inj heq
      exact ⟨k + 1, by simp⟩
    · have hne : id ≠ id' := by
        rintro rfl
        exact hnodup.1 (List.mem_map.mpr ⟨_, hmem, rfl⟩)
      rw [show (id == id') = false by simpa using hne]
      exact ih hnodup.2 hmem (k + 1)

theorem containsAny_numbers {uids : List Nat} (h : uid ∈ uids) (maxValue : Nat) :
    Sequence.containsAny (uids.map .number) uid maxValue = true := by
  induction uids with
  | nil => cases h
  | cons u uids ih =>
    rw [map_cons, Sequence.containsAny, Sequence.contains, Bool.or_eq_true, decide_eq_true_eq]
    rcases mem_cons.mp h with rfl | hmem
    · exact Or.inl rfl
    · exact Or.inr (ih hmem)

theorem fetchFlags_sends (hcurrent : w.world.state = ⟨w.world.mailbox.fetch, none⟩)
    {uids : List Nat} (huid : uid ∈ uids) (hitem : (uid, id) ∈ w.world.mailbox.items) :
    (w.fetchFlags order (.list (uids.map .number))).unsent uid = false := by
  have hsame : w.world.state.synchronize order w.world.mailbox = w.world.state :=
    synchronize_same order (by rw [hcurrent]; rfl)
  obtain ⟨number, hlookup⟩ := lookup_imapFrom w.world.mailbox.distinct hitem 0
  obtain ⟨before, after, hsplit, -⟩ := lookup_eq_some_iff.mp hlookup
  have hentry : (id, (⟨uid, number⟩ : ImapId)) ∈ w.world.mailbox.fetch.idToImap := by
    show _ ∈ imapFrom 0 w.world.mailbox.items
    rw [hsplit]
    exact mem_append_right _ mem_cons_self
  simp only [FlagWorld.fetchFlags, FlagWorld.command, FlagWorld.send, Option.elim,
    FlagWorld.synchronize, hsame, Bool.and_eq_false_iff, Bool.not_eq_false', List.any_eq_true]
  refine Or.inr ⟨(id, ⟨uid, number⟩), ?_, ?_⟩
  · rw [hcurrent]
    simp only [SelectedState.sequenceToIds, map_none, getD_none, if_true, mem_filter]
    exact ⟨hentry, containsAny_numbers huid _⟩
  · exact decide_eq_true ⟨rfl, List.mem_map.mpr ⟨_, hitem, rfl⟩⟩

theorem announce_changed (isQresync : Bool) (hnew : w.world.mailbox.changeId ≠ w.modseq) :
    (w.announce order isQresync).world.state = ⟨w.world.mailbox.fetch, none⟩ := by
  obtain ⟨-, deletions, hnext⟩ := synchronize_changed order hnew
  simp [FlagWorld.announce, SelectedState.announce, hnext]

theorem mem_changedIds (h : FlagInv w) (order : IterationOrder) (isQresync : Bool)
    (hnew : w.world.mailbox.changeId ≠ w.modseq) (hunsent : w.unsent uid = true)
    (hitem : (uid, id) ∈ w.world.mailbox.items) :
    uid ∈ (w.announce order isQresync).changedIds w.modseq := by
  obtain ⟨itemId, hid, hkinds⟩ := h.named uid hunsent id hitem
  obtain ⟨kind, hkind⟩ := exists_mem_of_ne_nil _ hkinds
  obtain ⟨number, hlookup⟩ := lookup_imapFrom w.world.mailbox.distinct hitem 0
  refine mem_filterMap.mpr ⟨⟨false, kind, itemId⟩, mem_kindsOf.mp hkind, ?_⟩
  rw [announce_changed order isQresync hnew, hid]
  show ((imapFrom 0 w.world.mailbox.items).lookup id).map ImapId.uid = some uid
  rw [hlookup]
  rfl

theorem FlagInv.writeChanges_sent (h : FlagInv w) (order : IterationOrder) (isQresync : Bool)
    (uid : Nat) : (w.writeChanges order isQresync).unsent uid = false := by
  by_contra hunsent
  rw [Bool.not_eq_false] at hunsent
  have hmodseq := (h.synchronized order).1
  unfold FlagWorld.writeChanges at hunsent
  simp only at hunsent
  split at hunsent
  · rename_i hsame
    rw [hmodseq] at hsame
    rw [h.announce_sent order isQresync (Or.inl hsame)] at hunsent
    cases hunsent
  · rename_i hnew
    rw [hmodseq] at hnew
    split at hunsent
    · rename_i hnone
      obtain ⟨hold, hthere⟩ := h.unsent_announce order isQresync hunsent
      obtain ⟨⟨u, id⟩, hitem, rfl⟩ := List.mem_map.mp hthere
      have hmem := mem_changedIds h order isQresync hnew hold hitem
      rw [hnone] at hmem
      cases hmem
    · have hannounced : (w.announce order isQresync).unsent uid = true := by
        simp only [FlagWorld.fetchFlags, FlagWorld.command, FlagWorld.send, Option.elim,
          FlagWorld.synchronize, Bool.and_eq_true] at hunsent
        exact hunsent.1
      obtain ⟨hold, hthere⟩ := h.unsent_announce order isQresync hannounced
      obtain ⟨⟨u, id⟩, hitem, rfl⟩ := List.mem_map.mp hthere
      have hmem := mem_changedIds h order isQresync hnew hold hitem
      rw [fetchFlags_sends order (announce_changed order isQresync hnew) hmem hitem] at hunsent
      cases hunsent

theorem FlagInv.writeChanges (h : FlagInv w) (order : IterationOrder) (isQresync : Bool) :
    FlagInv (w.writeChanges order isQresync) := by
  have hsent := h.writeChanges_sent order isQresync
  refine h.of_announced order isQresync ?_ ?_ hsent
  · unfold FlagWorld.writeChanges
    simp only
    split
    · rfl
    · rename_i hnew
      rw [(h.synchronized order).1] at hnew
      split
      · rfl
      · have hstate := announce_changed order isQresync hnew
        simp only [FlagWorld.fetchFlags, FlagWorld.command, FlagWorld.send, Option.elim,
          FlagWorld.synchronize]
        rw [synchronize_same order (by rw [hstate]; rfl)]
  · unfold FlagWorld.writeChanges
    simp only
    split
    · rfl
    · split
      · rfl
      · rfl

theorem heedingRun_inv (h : HeedingRun w) : FlagInv w := by
  induction h with
  | select m log hlog => exact FlagInv.select m hlog
  | commit _ c hnew ih => exact ih.commit c hnew
  | containers _ id entry hentry _ hmod ih => exact ih.containers hentry hmod
  | rebuild _ ih => exact ih.rebuild
  | command _ order own sends hnew hheeds ih => exact ih.command order own hnew hheeds
  | announce _ order isQresync hheeds ih => exact ih.announce order isQresync hheeds
  | writeChanges _ order isQresync ih => exact ih.writeChanges order isQresync

def markFirst : Commit threeMessages where
  mailbox := threeMessages.touch
  entry := ⟨[], [], [], [], [], [10], []⟩
  changed := fun document => document = 10
  path := .single .touch
  distinct := by constructor <;> decide
  logged := by
    intro document _ hchanged
    exact ⟨10, Or.inr List.mem_cons_self, List.not_mem_nil, (of_decide_eq_true hchanged).symm⟩
  stays := by
    intro id hid
    cases hid

def selectedWorld : FlagWorld :=
  ⟨⟨threeMessages, ⟨threeMessages.fetch, none⟩, threeMessages.uids⟩, [], fun _ => false⟩

theorem perm_sameOrder (l : List (Nat × ImapId)) : l.Perm l := List.Perm.refl l

def sameOrder : IterationOrder := ⟨fun l => l, perm_sameOrder⟩

theorem heedingRun_marked : HeedingRun (selectedWorld.commit markFirst) :=
  .commit (.select threeMessages [] fun _ h => by cases h) markFirst fun _ h => by cases h

end Bearmail.Imap
