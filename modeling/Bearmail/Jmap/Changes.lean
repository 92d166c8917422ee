import Mathlib.Algebra.Group.Nat.Defs
import Bearmail.Sync.Scan

/-!
# The changes of a type of objects

`ChangesLookup::changes` of `jmap/src/changes/get.rs`, with the states of
`jmap-proto/src/types/state.rs`, and what it needs of the caches of `email/src/cache/mod.rs` and
`groupware/src/cache/mod.rs`: the change ids they have for containers and items.

The text of a state is left out, but for the numbers in it and the checks on them. The checks on
the access to an account are those for members; a reader who is not a member has shared access.
-/

namespace Bearmail.Jmap

open Sync
open List hiding after

/-! ## Object types -/

inductive SyncCollection where
  | email
  | thread
  | identity
  | emailSubmission
  | addressBook
  | fileNode
  | calendar
  | calendarEventNotification
  | shareNotification
  deriving DecidableEq

inductive MethodObject where
  | email
  | mailbox
  | thread
  | identity
  | emailSubmission
  | addressBook
  | contactCard
  | fileNode
  | calendar
  | calendarEvent
  | calendarEventNotification
  | shareNotification
  deriving DecidableEq

/-- The log of a type, and whether its objects are the containers in it. -/
def MethodObject.target : MethodObject → SyncCollection × Bool
  | .email => (.email, false)
  | .mailbox => (.email, true)
  | .thread => (.thread, true)
  | .identity => (.identity, false)
  | .emailSubmission => (.emailSubmission, false)
  | .addressBook => (.addressBook, true)
  | .contactCard => (.addressBook, false)
  | .fileNode => (.fileNode, false)
  | .calendar => (.calendar, true)
  | .calendarEvent => (.calendar, false)
  | .calendarEventNotification => (.calendarEventNotification, false)
  | .shareNotification => (.shareNotification, false)

def MethodObject.collection (object : MethodObject) : SyncCollection := object.target.1

def MethodObject.isContainer (object : MethodObject) : Bool := object.target.2

/-- `assert_is_member`; the other types have shared access. -/
def MethodObject.membersOnly : MethodObject → Bool
  | .identity | .emailSubmission | .calendarEventNotification | .shareNotification => true
  | _ => false

def SyncCollection.isShareLog (collection : SyncCollection) : Bool :=
  decide (collection = .shareNotification)

/-! ## States -/

inductive State where
  | initial
  | exact (changeId : Nat)
  | intermediate (fromId toId itemsSent : Nat)
  deriving DecidableEq

inductive StateText where
  | n
  | s (changeId : Nat)
  | r (fromId difference itemsSent : Nat)
  deriving DecidableEq

def State.display : State → StateText
  | .initial => .n
  | .exact changeId => .s changeId
  | .intermediate fromId toId itemsSent => .r fromId (toId - fromId) itemsSent

def State.parse : StateText → Option State
  | .n => some .initial
  | .s changeId => some (.exact changeId)
  | .r fromId difference itemsSent =>
    if 0 < itemsSent then some (.intermediate fromId (fromId + difference) itemsSent) else none

/-! ## Caches -/

inductive CacheKind where
  /-- `get_cached_messages` -/
  | messages
  /-- `fetch_dav_resources` -/
  | resources
  deriving DecidableEq

def SyncCollection.cacheKind : SyncCollection → Option CacheKind
  | .email => some .messages
  | .addressBook | .fileNode | .calendar | .calendarEventNotification => some .resources
  | _ => none

structure CacheIds where
  last : Nat
  containers : Nat
  items : Nat
  deriving DecidableEq

def CacheIds.part (ids : CacheIds) (isContainer : Bool) : Nat :=
  if isContainer then ids.containers else ids.items

def CacheIds.getState (ids : CacheIds) (isContainer : Bool) : State := .exact (ids.part isContainer)

def CacheIds.build (log : Log) : CacheIds :=
  let last := log.lastChangeId.getD 0
  ⟨last, last, last⟩

def CacheKind.partId (kind : CacheKind) (changes : Changes) (isContainer : Bool) (old : Nat) : Nat :=
  match kind with
  | .messages =>
    if partOf isContainer changes.changes = [] then old else changes.changeId isContainer
  | .resources => (changes.partChangeId isContainer).getD old

def CacheIds.fetch (kind : CacheKind) (log : Log) : Option CacheIds → CacheIds
  | none => .build log
  | some ids =>
    let changes := log.changes false (.since ids.last)
    if changes.isTruncated then .build log
    else if changes.changes = [] then ids
    else
      { last := changes.toChangeId
        containers := kind.partId changes true ids.containers
        items := kind.partId changes false ids.items }

/-- Between the change id of a part and the last one that the cache knows, nothing has changed
in that part. -/
structure CacheIds.Follows (ids : CacheIds) (history : History) : Prop where
  last : Known history ids.last
  part : ∀ isContainer, Known history (ids.part isContainer)
  le : ∀ isContainer, ids.part isContainer ≤ ids.last
  unchanged : ∀ isContainer,
    partFold isContainer (after (ids.part isContainer) (upTo ids.last history)) = []

/-- Nothing has changed in a part since its change id. -/
def CacheIds.Current (ids : CacheIds) (history : History) : Prop :=
  ∀ isContainer, partFold isContainer (after (ids.part isContainer) history) = []

section Follow

variable {history : History} {cut : Option Nat} {ids : CacheIds}

theorem CacheIds.Follows.append {commit : Nat × LogEntry} (h : ids.Follows history)
    (hpos : 0 < commit.1) (hnew : ∀ earlier ∈ history, earlier.1 < commit.1) :
    ids.Follows (history ++ [commit]) := by
  refine ⟨h.last.append _, fun isContainer => (h.part isContainer).append _, h.le, ?_⟩
  intro isContainer
  rw [upTo_append_new (h.last.lt hpos hnew)]
  exact h.unchanged isContainer

theorem CacheIds.part_same (last : Nat) (isContainer : Bool) :
    CacheIds.part ⟨last, last, last⟩ isContainer = last := by
  cases isContainer with
  | false | true => rfl

theorem build_follows (hascending : Ascending history)
    (hcut : ∀ k, cut = some k → k ∈ history.map Prod.fst) :
    (CacheIds.build (recorded cut history)).Follows history ∧
      (CacheIds.build (recorded cut history)).Current history := by
  have hlast := recorded_lastChangeId hascending hcut
  have hbuild : ∀ last, Known history last → after last history = [] →
      CacheIds.Follows ⟨last, last, last⟩ history ∧ CacheIds.Current ⟨last, last, last⟩ history := by
    intro last hknown hafter
    refine ⟨⟨hknown, fun isContainer => ?_, fun isContainer => ?_, fun isContainer => ?_⟩,
      fun isContainer => ?_⟩
    · rw [CacheIds.part_same]
      exact hknown
    · exact Nat.le_of_eq (CacheIds.part_same last isContainer)
    · rw [CacheIds.part_same]
      have hnone : after last (upTo last history) = [] := by
        refine filter_eq_nil_iff.mpr fun commit hmem => ?_
        have := (mem_upTo.mp hmem).2
        simp only [decide_eq_true_eq]
        omega
      rw [hnone]
      rfl
    · rw [CacheIds.part_same, hafter]
      rfl
  unfold CacheIds.build
  cases hid : (recorded cut history).lastChangeId with
  | none =>
    rw [hid] at hlast
    obtain rfl : history = [] := hlast
    exact hbuild 0 (Or.inl rfl) rfl
  | some changeId =>
    rw [hid] at hlast
    exact hbuild changeId (Or.inr hlast.1) hlast.2

theorem after_lastChange {isContainer : Bool} {changeId : Nat} {before after' : History}
    {last : Nat × LogEntry} (hascending : Ascending history)
    (hsplit : after changeId history = before ++ last :: after')
    (h : ∀ commit ∈ after', commit.2.hasChanges isContainer = false) :
    Known history last.1 ∧ partFold isContainer (after last.1 history) = [] := by
  have hmem : last ∈ after changeId history := by
    rw [hsplit]
    exact mem_append_right _ mem_cons_self
  have hrest : after last.1 history = after' := by
    rw [← after_after (Nat.le_of_lt (mem_after.mp hmem).2), hsplit]
    exact after_of_split (by rw [← hsplit]; exact hascending.filter _)
  refine ⟨Or.inr (mem_map_of_mem (mem_after.mp hmem).1), ?_⟩
  rw [hrest, ← nil_append after', partFold_append_unchanged h]
  rfl

theorem partId_current {base changes : Changes} (hascending : Ascending history)
    (hfollows : ids.Follows history)
    (hscan : Scanned false base changes (after ids.last history))
    (hne : after ids.last history ≠ []) (kind : CacheKind) (isContainer : Bool) :
    Known history (kind.partId changes isContainer (ids.part isContainer)) ∧ partFold isContainer
        (after (kind.partId changes isContainer (ids.part isContainer)) history) = [] := by
  have hlist : partOf isContainer changes.changes = partFold isContainer (after ids.last history) := by
    rw [hscan.changes, effects_false, partOf_foldAll]
  -- the old change id stays right when nothing is listed
  have hold : partFold isContainer (after ids.last history) = [] →
      partFold isContainer (after (ids.part isContainer) history) = [] := by
    intro hnone
    rw [after_eq_append hascending (hfollows.le isContainer),
      partFold_append_nil (hfollows.unchanged isContainer), hnone]
  cases kind with
  | messages =>
    unfold CacheKind.partId
    dsimp only
    split
    · rename_i hnone
      exact ⟨hfollows.part isContainer, hold (hlist.symm.trans hnone)⟩
    · obtain ⟨before, last, after', hsplit, hid, hunchanged⟩ := hscan.changeId isContainer hne
      rw [← hid]
      exact after_lastChange hascending hsplit hunchanged
  | resources =>
    unfold CacheKind.partId
    cases hid : changes.partChangeId isContainer with
    | none =>
      refine ⟨hfollows.part isContainer, hold ?_⟩
      rw [← nil_append (after ids.last history), partFold_append_unchanged
        (hscan.silent rfl isContainer hid)]
      rfl
    | some changeId =>
      obtain ⟨-, before, last, after', hsplit, rfl, hunchanged⟩ :=
        hscan.parts isContainer changeId hid
      exact after_lastChange hascending hsplit hunchanged

theorem update_follows {base changes : Changes} (hascending : Ascending history)
    (hfollows : ids.Follows history)
    (hscan : Scanned false base changes (after ids.last history))
    (hne : after ids.last history ≠ []) (kind : CacheKind) :
    CacheIds.Follows
        { last := changes.toChangeId
          containers := kind.partId changes true ids.containers
          items := kind.partId changes false ids.items } history ∧
      CacheIds.Current
        { last := changes.toChangeId
          containers := kind.partId changes true ids.containers
          items := kind.partId changes false ids.items } history := by
  obtain ⟨before, last, hsplit, hlast⟩ := hscan.stop hne
  have hknown := (@after_lastChange history true ids.last before [] last hascending hsplit
    fun _ h => (by cases h)).1
  have hall : upTo last.1 history = history := by
    have hwhole : history = upTo ids.last history ++ before ++ last :: [] := by
      simp [← hsplit, upTo_append_after hascending]
    rw [hwhole] at hascending ⊢
    exact upTo_of_split hascending
  have hpart := partId_current hascending hfollows hscan hne kind
  have hids : ∀ isContainer, CacheIds.part
      { last := changes.toChangeId
        containers := kind.partId changes true ids.containers
        items := kind.partId changes false ids.items } isContainer =
      kind.partId changes isContainer (ids.part isContainer) := by
    intro isContainer
    cases isContainer with
    | false | true => rfl
  refine ⟨⟨?_, fun isContainer => ?_, fun isContainer => ?_, fun isContainer => ?_⟩,
    fun isContainer => ?_⟩
  · rw [← hlast]
    exact hknown
  · rw [hids]
    exact (hpart isContainer).1
  · rw [hids]
    rw [← hlast]
    rcases (hpart isContainer).1 with hzero | hmem
    · omega
    · obtain ⟨commit, hcommit, heq⟩ := mem_map.mp hmem
      rw [← hall] at hcommit
      rw [← heq]
      exact (mem_upTo.mp hcommit).2
  · rw [hids]
    rw [← hlast, hall]
    exact (hpart isContainer).2
  · rw [hids]
    exact (hpart isContainer).2

theorem fetch_follows (kind : CacheKind) (hascending : Ascending history)
    (hcut : ∀ k, cut = some k → k ∈ history.map Prod.fst) {cache : Option CacheIds}
    (hcache : ∀ ids, cache = some ids → ids.Follows history) :
    (CacheIds.fetch kind (recorded cut history) cache).Follows history ∧
      (CacheIds.fetch kind (recorded cut history) cache).Current history := by
  cases cache with
  | none => exact build_follows hascending hcut
  | some ids =>
    have hfollows := hcache ids rfl
    unfold CacheIds.fetch
    dsimp only
    split
    · exact build_follows hascending hcut
    · rename_i htruncated
      obtain ⟨base, hbase, hscan⟩ := @changes_since ids.last cut history false hascending
        (cut_le_of_since (Bool.eq_false_iff.mpr htruncated))
      split
      · rename_i hnone
        refine ⟨hfollows, fun isContainer => ?_⟩
        rw [after_eq_append hascending (hfollows.le isContainer),
          partFold_append_nil (hfollows.unchanged isContainer), ← partOf_foldAll,
          ← effects_false (after ids.last history), ← hscan.changes, hnone]
        rfl
      · rename_i hsome
        refine update_follows hascending hfollows hscan (fun hnil => hsome ?_) kind
        rw [hscan.changes, hnil]
        rfl

end Follow

def logState (log : Log) : State :=
  match log.lastChangeId with
  | some changeId => .exact changeId
  | none => .initial

/-! ## Changes -/

def documentId (id : Nat) : Nat := id % 2 ^ 32

/-- Who reads an account: a member, or someone who may read these documents of the type. -/
abbrev Reader := Option (Nat → Bool)

def Reader.allows (reader : Reader) (id : Nat) : Bool :=
  match reader with
  | none => true
  | some allowedIds => allowedIds (documentId id)

inductive ChangesError where
  | forbidden
  | truncated
  | invalidState
  deriving DecidableEq

structure ChangesResponse where
  oldState : State
  newState : State
  hasMoreChanges : Bool
  created : List Nat
  updated : List Nat
  destroyed : List Nat
  onlyContainerChanges : Bool
  deriving DecidableEq

/-- `min(max_changes.filter(|n| *n != 0).unwrap_or(usize::MAX), changes_max_results)`. -/
def effectiveMax (maxResults : Nat) (maxChanges : Option Nat) : Nat :=
  match maxChanges.filter fun n => decide (n ≠ 0) with
  | some n => min n maxResults
  | none => maxResults

def idsOf (page : List Change) (kinds : List ChangeKind) : List Nat :=
  (page.filter fun change => decide (change.kind ∈ kinds)).map Change.id

def changesPage (object : MethodObject) (reader : Reader) (sinceState newState : State)
    (maxChanges itemsSent : Nat) (changelog : Changes) : ChangesResponse :=
  let isContainer := object.isContainer
  let changes := ((partOf isContainer changelog.changes).filter fun change =>
    reader.allows change.id).drop itemsSent
  let page := changes.take maxChanges
  let changeId := changelog.changeId isContainer
  let hasMoreChanges := decide (maxChanges < changes.length)
  let updated := idsOf page [.update, .updateProperty]
  { oldState := sinceState
    newState :=
      if hasMoreChanges then
        .intermediate changelog.fromChangeId changeId (itemsSent + maxChanges)
      else if newState = .initial then .exact changeId
      else newState
    hasMoreChanges
    created := idsOf page [.insert]
    updated
    destroyed := idsOf page [.delete]
    onlyContainerChanges := isContainer && !updated.isEmpty && (idsOf page [.update]).isEmpty }

def ChangesResponse.none (sinceState newState : State) : ChangesResponse :=
  ⟨sinceState, newState, false, [], [], [], false⟩

def checkLog (changelog : Changes) (response : ChangesResponse) :
    Except ChangesError ChangesResponse :=
  if changelog.isTruncated then .error .truncated
  else if changelog.fromChangeId = 0 then .error .invalidState
  else .ok response

/-- The types for which `changes` takes the state of a cache. -/
def MethodObject.usesCachedState (object : MethodObject) : Bool :=
  match object.collection with
  | .calendar | .addressBook | .email => true
  | _ => false

def cachedState (object : MethodObject) (ids : CacheIds) : Option State :=
  if object.usesCachedState then some (ids.getState object.isContainer) else none

def changes (object : MethodObject) (reader : Reader) (maxResults : Nat) (log : Log)
    (ids : CacheIds) (sinceState : State) (maxChanges : Option Nat) :
    Except ChangesError ChangesResponse :=
  let isContainer := object.isContainer
  let isShareLog := object.collection.isShareLog
  let maxChanges := effectiveMax maxResults maxChanges
  if object.membersOnly && reader.isSome then .error .forbidden
  else
    match sinceState with
    | .initial =>
      let changelog := log.changes isShareLog .all
      if changelog.changes = [] ∧ changelog.fromChangeId = 0 then .ok (.none sinceState .initial)
      else .ok (changesPage object reader sinceState .initial maxChanges 0 changelog)
    | .exact changeId =>
      let newState := (cachedState object ids).getD .initial
      if newState = .exact changeId then .ok (.none sinceState newState)
      else
        let changelog := log.changes isShareLog (.since changeId)
        checkLog changelog (changesPage object reader sinceState newState maxChanges 0 changelog)
    | .intermediate fromId toId itemsSent =>
      let changelog := log.changes isShareLog (.rangeInclusive fromId toId)
      if (partOf isContainer changelog.changes).length ≤ itemsSent then
        let changelog := log.changes isShareLog (.since toId)
        checkLog changelog (changesPage object reader sinceState .initial maxChanges 0 changelog)
      else
        checkLog changelog (changesPage object reader sinceState .initial maxChanges itemsSent changelog)

end Bearmail.Jmap
