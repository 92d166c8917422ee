import Bearmail.Imap.Sequence
import Bearmail.Lib.Positions

/-!
# The selected mailbox

`imap/src/core/message.rs`: a session keeps the mailbox state it has announced,
and next to it the state it has found since. `synchronize_messages` reads the
mailbox again, `write_mailbox_changes` announces what changed, and
`sequence_to_ids` resolves the numbers of a command.

Message numbers are `u32` in the source; a mailbox has fewer than `2 ^ 32`
messages.

`Step` interleaves what other sessions do to the mailbox with what this session
does. Every command is a sequence of such steps: `FETCH`, `STORE` and `COPY`
synchronize and then resolve their sequence set, `SEARCH` resolves it, `NOOP`,
`IDLE`, `EXPUNGE` and the end of `MOVE` announce.
-/

namespace Bearmail.Imap

structure ImapId where
  uid : Nat
  seqnum : Nat
  deriving DecidableEq

/-! ## The mailbox in the store -/

/-- The messages of a mailbox with their UIDs, in the order of a `BTreeMap` on the
UIDs. UIDs come from a counter and are not used twice. -/
structure StoredMailbox where
  /-- pairs of UID and document id -/
  items : List (Nat × Nat)
  uidNext : Nat
  changeId : Nat
  sorted : (items.map Prod.fst).Pairwise (· < ·)
  distinct : (items.map Prod.snd).Nodup
  bounds : ∀ uid ∈ items.map Prod.fst, 0 < uid ∧ uid < uidNext
  positive : 0 < uidNext

def StoredMailbox.uids (m : StoredMailbox) : List Nat := m.items.map Prod.fst

def StoredMailbox.append (m : StoredMailbox) (id : Nat) (h : id ∉ m.items.map Prod.snd) :
    StoredMailbox where
  items := m.items ++ [(m.uidNext, id)]
  uidNext := m.uidNext + 1
  changeId := m.changeId + 1
  sorted := by
    rw [List.map_append, List.pairwise_append]
    refine ⟨m.sorted, List.pairwise_singleton _ _, ?_⟩
    intro uid huid uid' huid'
    obtain rfl : uid' = m.uidNext := by simpa using huid'
    exact (m.bounds uid huid).2
  distinct := by
    rw [List.map_append, List.nodup_append]
    refine ⟨m.distinct, List.nodup_singleton _, ?_⟩
    intro x hx y hy hxy
    obtain rfl : y = id := by simpa using hy
    exact h (hxy ▸ hx)
  bounds := by
    intro uid huid
    rw [List.map_append, List.mem_append] at huid
    have hpos := m.positive
    rcases huid with huid | huid
    · have := m.bounds uid huid
      omega
    · obtain rfl : uid = m.uidNext := by simpa using huid
      omega
  positive := Nat.succ_pos _

def StoredMailbox.delete (m : StoredMailbox) (gone : Nat → Bool) : StoredMailbox where
  items := m.items.filter fun item => !gone item.1
  uidNext := m.uidNext
  changeId := m.changeId + 1
  sorted := m.sorted.sublist (List.filter_sublist.map _)
  distinct := m.distinct.sublist (List.filter_sublist.map _)
  bounds := fun uid huid => m.bounds uid ((List.filter_sublist.map _).subset huid)
  positive := m.positive

def StoredMailbox.touch (m : StoredMailbox) : StoredMailbox :=
  { m with changeId := m.changeId + 1 }

/-! ## The session -/

/-- `MailboxState`, without the state found next. The maps are lists of their
entries, in the order in which they are iterated. -/
structure MailboxState where
  uidMax : Nat
  idToImap : List (Nat × ImapId)
  uidToId : List (Nat × Nat)
  totalMessages : Nat
  modseq : Nat

structure NextMailboxState where
  nextState : MailboxState
  deletions : List ImapId

structure SelectedState where
  current : MailboxState
  next : Option NextMailboxState

def numberFrom : Nat → List Nat → List ImapId
  | _, [] => []
  | k, uid :: uids => ⟨uid, k + 1⟩ :: numberFrom (k + 1) uids

def imapFrom : Nat → List (Nat × Nat) → List (Nat × ImapId)
  | _, [] => []
  | k, (uid, id) :: items => (id, ⟨uid, k + 1⟩) :: imapFrom (k + 1) items

def StoredMailbox.fetch (m : StoredMailbox) : MailboxState where
  uidMax := m.uids.foldl max 0
  idToImap := imapFrom 0 m.items
  uidToId := m.items
  totalMessages := m.items.length
  modseq := m.changeId

/-- The order in which a hash map happens to be iterated. -/
structure IterationOrder where
  run : List (Nat × ImapId) → List (Nat × ImapId)
  perm : ∀ l, (run l).Perm l

def SelectedState.synchronize (s : SelectedState) (order : IterationOrder) (m : StoredMailbox) :
    SelectedState :=
  if m.changeId = s.current.modseq then s
  else
    let newState := m.fetch
    let deletions := (s.next.map NextMailboxState.deletions).getD []
    let known := order.run s.current.idToImap
    let here := fun entry : Nat × ImapId => decide (entry.2.uid ∈ newState.uidToId.map Prod.fst)
    let gone := (known.filter fun entry => !here entry).map Prod.snd
    { current := { s.current with
        idToImap := known.filter here
        uidToId := s.current.uidToId.filter fun item => decide (item.1 ∉ gone.map ImapId.uid)
        modseq := newState.modseq }
      next := some ⟨newState, deletions ++ gone⟩ }

/-- The untagged responses that change the client's view. -/
inductive Response where
  | expunge (number : Nat)
  | vanished (uids : List (Nat × Nat))
  | exists (totalMessages : Nat)

/-- `expunge::Response::serialize_to`: numbers are sent one by one, each lowered
by the number of deletions sent before it. -/
def expungeResponses (isQresync : Bool) (ids : List Nat) : List Response :=
  if isQresync then [.vanished (compress ids)]
  else lower 0 ids
where
  lower : Nat → List Nat → List Response
    | _, [] => []
    | k, id :: ids => .expunge (id - k) :: lower (k + 1) ids

/-- What `write_mailbox_changes` sends for a found state. -/
def announcement (isQresync : Bool) (current : MailboxState) (next : NextMailboxState) :
    List Response :=
  let ids := (next.deletions.map fun id => if isQresync then id.uid else id.seqnum).mergeSort
    (fun a b => decide (a ≤ b))
  let expunged := if next.deletions = [] then [] else expungeResponses isQresync ids
  expunged ++
    if expunged.isEmpty = false ∨ next.nextState.uidMax - current.uidMax > 0 then
      [.exists next.nextState.totalMessages]
    else []

/-- `write_mailbox_changes`: the new state and the responses sent. -/
def SelectedState.announce (s : SelectedState) (order : IterationOrder) (m : StoredMailbox)
    (isQresync : Bool) : SelectedState × List Response :=
  let s := s.synchronize order m
  match s.next with
  | some next => (⟨next.nextState, none⟩, announcement isQresync s.current next)
  | none => (s, [])

/-- `sequence_to_ids`, for a set that is not a saved search. -/
def SelectedState.sequenceToIds (s : SelectedState) (sequence : Sequence) (isUid : Bool) :
    List (Nat × ImapId) :=
  let state := (s.next.map NextMailboxState.nextState).getD s.current
  if isUid then state.idToImap.filter fun entry => sequence.contains entry.2.uid state.uidMax
  else state.idToImap.filter fun entry => sequence.contains entry.2.seqnum state.totalMessages

/-! ## The client -/

/-- The UIDs of a state in order: what its message numbers stand for. -/
def MailboxState.uidOrder (s : MailboxState) : List Nat :=
  (s.idToImap.map fun entry => entry.2.uid).mergeSort (fun a b => decide (a ≤ b))

/-- What a response does to the client's view. The messages that `EXISTS` adds are
those the announced state has at the new numbers. -/
def Response.apply (announced : List Nat) (view : List Nat) : Response → List Nat
  | .expunge number => view.eraseIdx (number - 1)
  | .vanished uids => view.filter fun uid => decide (uid ∉ expand uids)
  | .exists total => view ++ (announced.drop view.length).take (total - view.length)

/-- A session, the mailbox it has selected and what its client has been told. -/
structure World where
  mailbox : StoredMailbox
  state : SelectedState
  view : List Nat

/-- One step: other sessions change the mailbox, this one synchronizes or announces. -/
inductive Step (w : World) : World → Prop where
  | append (id : Nat) (h : id ∉ w.mailbox.items.map Prod.snd) :
      Step w { w with mailbox := w.mailbox.append id h }
  | delete (gone : Nat → Bool) : Step w { w with mailbox := w.mailbox.delete gone }
  | touch : Step w { w with mailbox := w.mailbox.touch }
  | synchronize (order : IterationOrder) : Step w { w with state := w.state.synchronize order w.mailbox }
  | announce (order : IterationOrder) (isQresync : Bool) : Step w
        { w with
          state := (w.state.announce order w.mailbox isQresync).1
          view := (w.state.announce order w.mailbox isQresync).2.foldl
            (Response.apply (w.state.announce order w.mailbox isQresync).1.current.uidOrder)
            w.view }

inductive Reachable : World → Prop where
  | select (m : StoredMailbox) : Reachable ⟨m, ⟨m.fetch, none⟩, m.uids⟩
  | step {w w' : World} : Reachable w → Step w w' → Reachable w'

end Bearmail.Imap
