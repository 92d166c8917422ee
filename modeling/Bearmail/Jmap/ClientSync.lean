import Bearmail.Jmap.Client

/-!
# When a client is in sync
-/

namespace Bearmail.Jmap

open Sync
open Option
open List hiding after

/-! ## Careful runs -/

def MethodObject.inserts (object : MethodObject) (changeId : Nat) (entry : LogEntry) : List Nat :=
  (effect object.collection.isShareLog (changeId, entry)).2.inserts object.isContainer

/-- The log has what the client asks for, or the request notices that it has not. -/
def Answerable (object : MethodObject) (w : World) : Prop :=
  match State.parse w.client.state with
  | some .initial => (w.log.changes object.collection.isShareLog .all).isTruncated = false
  | some (.intermediate fromId toId itemsSent) =>
    let left := w.log.changes object.collection.isShareLog (.rangeInclusive fromId toId)
    left.isTruncated = true → itemsSent < (partOf object.isContainer left.changes).length
  | _ => True

/-- No id is used again, what the reader may read does not change, notifications stay, and the
log is not asked for what was cut off. -/
def Careful (object : MethodObject) (w : World) : Label → Prop
  | .commit changeId commit reader =>
    (∀ id ∈ object.inserts changeId commit.entry, ¬ Mentioned object.isContainer id (w.effects object)) ∧
    ∀ id, Mentioned object.isContainer id (w.effects object) → reader.allows id = w.reader.allows id
  | .clearNotification _ => False
  | .changes _ => Answerable object w
  | _ => True

/-- Nothing was committed behind the range that the client is reading. -/
def Settled (object : MethodObject) (w : World) : Prop :=
  match State.parse w.client.state with
  | some (.intermediate _ toId _) =>
    partOf object.isContainer (w.log.changes object.collection.isShareLog (.since toId)).changes = []
  | _ => True

/-! ## The invariant -/

def World.pending (object : MethodObject) (w : World) (fromId toId : Nat) : List Change :=
  allowedChanges w.reader (partFold object.isContainer
    (Sync.effects object.collection.isShareLog (within fromId toId w.history)))

def Holds (object : MethodObject) (w : World) (client : Client) : State → Prop
  | .initial => InStep object.isContainer w.reader client (w.effects object) [] []
  | .exact changeId => Known w.history changeId ∧
    InStep object.isContainer w.reader client (w.effects object)
      (effects object.collection.isShareLog (upTo changeId w.history)) []
  | .intermediate fromId toId itemsSent => fromId ≤ toId ∧ Known w.history toId ∧
    itemsSent < (w.pending object fromId toId).length ∧
    InStep object.isContainer w.reader client (w.effects object)
      (effects object.collection.isShareLog (upTo toId w.history))
      ((w.pending object fromId toId).drop itemsSent)

structure Inv (object : MethodObject) (w : World) : Prop where
  ascending : Ascending w.history
  distinct : ∀ commit ∈ w.history, commit.2.Distinct
  fresh : Fresh object.isContainer (w.effects object)
  log : ∃ cut, w.log = recorded cut w.history ∧ ∀ k, cut = some k → k ∈ w.history.map Prod.fst
  gone : ∀ id, w.gone id = false
  cache : ∀ ids, w.cache = some ids → ids.Follows w.history
  client : ∃ sinceState, w.client.state = sinceState.display ∧ Holds object w w.client sinceState

abbrev changeList (object : MethodObject) (w : World) (commits : History) : List Change :=
  allowedChanges w.reader (partFold object.isContainer (effects object.collection.isShareLog commits))

/-- The client is in step with a part of the history, but for the rest of a list. -/
abbrev At (object : MethodObject) (w : World) (client : Client) (position : History)
    (rest : List Change) : Prop :=
  InStep object.isContainer w.reader client (w.effects object)
    (effects object.collection.isShareLog position) rest

variable {isShareLog isContainer : Bool} {history position tail : History} {sinceState : State}
  {rest : List Change} {reader : Reader}

section Basics

variable {object : MethodObject} {w : World}

theorem effect_distinct {commit : Nat × LogEntry} (h : commit.2.Distinct) :
    (effect isShareLog commit).2.Distinct := by
  cases isShareLog with
  | false => exact h
  | true =>
    exact ⟨nodup_nil, nodup_nil, nodup_nil, nodup_nil, nodup_singleton _, nodup_nil, nodup_nil⟩

theorem effects_distinct (h : ∀ commit ∈ history, commit.2.Distinct) :
    ∀ commit ∈ effects isShareLog history, commit.2.Distinct := by
  intro commit hmem
  obtain ⟨commit, hcommit, rfl⟩ := List.mem_map.mp hmem
  exact effect_distinct (h commit hcommit)

theorem effects_ascending (h : Ascending history) : Ascending (effects isShareLog history) :=
  pairwise_map.mpr h

theorem parse_of_holds {client : Client} {sinceState' : State} (h : Holds object w client sinceState)
    (hparse : State.parse sinceState.display = some sinceState') : sinceState' = sinceState := by
  cases sinceState with
  | initial | exact changeId =>
    cases hparse
    rfl
  | intermediate fromId toId itemsSent =>
    rw [State.display, State.parse] at hparse
    split at hparse
    · cases hparse
      rw [Nat.add_sub_cancel' h.1]
    · cases hparse

variable {before after : History}

theorem effects_eq (h : w.history = before ++ after) :
    w.effects object = effects object.collection.isShareLog before ++
      effects object.collection.isShareLog after := by
  rw [World.effects, h, effects_append]

theorem Inv.fresh_append (h : Inv object w) (hhistory : w.history = before ++ after) :
    Fresh object.isContainer (effects object.collection.isShareLog before ++
      effects object.collection.isShareLog after) := by
  rw [← effects_eq hhistory]
  exact h.fresh

theorem Inv.lastChange_le (h : Inv object w) (hhistory : w.history = before ++ after) (id : Nat) :
    lastChange object.isContainer id (effects object.collection.isShareLog before) ≤
      lastChange object.isContainer id (w.effects object) := by
  have hascending : Ascending (w.effects object) := effects_ascending h.ascending
  rw [effects_eq hhistory] at hascending ⊢
  exact lastChange_le_append hascending

theorem objects_append_unchanged
    (h : ∀ commit ∈ after, (effect isShareLog commit).2.hasChanges isContainer = false) (id : Nat) :
    existing isContainer id (effects isShareLog (before ++ after)) =
        existing isContainer id (effects isShareLog before) ∧
      lastChange isContainer id (effects isShareLog (before ++ after)) =
        lastChange isContainer id (effects isShareLog before) := by
  rw [effects_append]
  exact objects_append_unmentioned fun commit hmem =>
    LogEntry.mentions_of_hasChanges (effects_hasChanges h commit hmem)

theorem mentioned_of_mem_partFold (hdistinct : ∀ commit ∈ history, commit.2.Distinct)
    {change : Change} (hmem : change ∈ partFold isContainer history)
    (hpart : change.isContainer = isContainer) : Mentioned isContainer change.id history := by
  subst hpart
  by_contra hnot
  have hnone := kindsOf_partFold_unmentioned hdistinct
    (fun commit hcommit hmentions => hnot ⟨commit, hcommit, hmentions⟩)
  have hkind := mem_kindsOf.mpr hmem
  rw [hnone] at hkind
  cases hkind

theorem partFold_isContainer {change : Change} (hmem : change ∈ partFold isContainer history) :
    change.isContainer = isContainer := by
  rw [← partOf_foldAll] at hmem
  exact (mem_partOf.mp hmem).2

end Basics

/-! ## One page -/

section Page

variable {object : MethodObject} {w : World} {client : Client} {left visited right : History}
  {base changelog : Changes}

theorem position_of_scan (hascending : Ascending w.history)
    (hhistory : w.history = left ++ visited ++ right)
    (hscan : Scanned object.collection.isShareLog base changelog visited) (hne : visited ≠ [])
    (hstep : At object w client (left ++ visited) rest) :
    Known w.history (changelog.changeId object.isContainer) ∧
      At object w client (upTo (changelog.changeId object.isContainer) w.history) rest := by
  obtain ⟨before, unchanged, hsplit, hunchanged, hposition, commit, hmem, hid⟩ :=
    hscan.position object.isContainer (by rw [← hhistory]; exact hascending) hne
  have hobjects := @objects_append_unchanged object.collection.isShareLog object.isContainer
    (left ++ before) unchanged hunchanged
  refine ⟨Or.inr ?_, ?_⟩
  · rw [← hid, hhistory]
    exact List.mem_map_of_mem (mem_append_left _ (mem_append_right _ hmem))
  · rw [hhistory, hposition]
    rw [hsplit, ← append_assoc] at hstep
    exact hstep.move (fun id => (hobjects id).1.symm) fun id _ => Nat.le_of_eq (hobjects id).2.symm

theorem Scanned.changeList_eq (hscan : Scanned object.collection.isShareLog base changelog visited) :
    changeList object w visited =
      allowedChanges w.reader (partOf object.isContainer changelog.changes) := by
  rw [hscan.changes, partOf_foldAll]

theorem page_applied (h : Inv object w) (hhistory : w.history = left ++ visited ++ right)
    (hscan : Scanned object.collection.isShareLog base changelog visited) {itemsSent : Nat}
    (hstep : At object w client (left ++ visited) ((changeList object w visited).drop itemsSent))
    (sinceState newState : State) (maxChanges : Nat) :
    At object w (client.apply (w.lastChange object)
        (changesPage object w.reader sinceState newState maxChanges itemsSent changelog))
      (left ++ visited) ((changeList object w visited).drop (itemsSent + maxChanges)) := by
  have hfresh : Fresh object.isContainer (effects object.collection.isShareLog left ++
      effects object.collection.isShareLog visited) := by
    have := h.fresh_append hhistory
    rw [effects_append] at this
    exact (pairwise_append.mp this).1
  have hdistinct : ∀ commit ∈ effects object.collection.isShareLog visited,
      commit.2.Distinct := by
    refine effects_distinct fun commit hmem => h.distinct commit ?_
    rw [hhistory]
    exact mem_append_left _ (mem_append_right _ hmem)
  have hmemAll : ∀ change ∈ (changeList object w visited).drop itemsSent,
      change ∈ partFold object.isContainer (effects object.collection.isShareLog visited) ∧
        w.reader.allows change.id = true :=
    fun change hmem => mem_allowedChanges.mp (mem_of_mem_drop hmem)
  rw [← take_append_drop maxChanges ((changeList object w visited).drop itemsSent), drop_drop] at hstep
  have hboth : ∀ change ∈ ((changeList object w visited).drop itemsSent).take maxChanges ++
      (changeList object w visited).drop (itemsSent + maxChanges),
      change ∈ (changeList object w visited).drop itemsSent := by
    intro change hmem
    rw [← drop_drop, take_append_drop] at hmem
    exact hmem
  refine hstep.page ?_ ?_ ?_ (h.lastChange_le hhistory) ?_ ?_ ?_
  · intro id hinsert hdelete
    have hinsert := mem_kindsOf.mpr (hmemAll _ (hboth _ hinsert)).1
    have hdelete := mem_kindsOf.mpr (hmemAll _ (hboth _ hdelete)).1
    rw [((fold_means hfresh hdistinct id).inserted hinsert).1] at hdelete
    cases mem_singleton.mp hdelete
  · exact fun change hmem => partFold_isContainer (hmemAll change (mem_of_mem_take hmem)).1
  · exact fun change hmem => (hmemAll change (mem_of_mem_take hmem)).2
  all_goals
    rw [Scanned.changeList_eq hscan]
    rfl

/-- The state behind a page: the next page, or what is given at the end of the list. -/
theorem page_answered (h : Inv object w) (hhistory : w.history = left ++ visited ++ right)
    (hscan : Scanned object.collection.isShareLog base changelog visited) {itemsSent : Nat}
    (hstep : At object w client (left ++ visited) ((changeList object w visited).drop itemsSent))
    {newState : State} {maxChanges : Nat} {response : ChangesResponse} (hresponse : response =
      changesPage object w.reader sinceState newState maxChanges itemsSent changelog)
    (hend : ∀ client, At object w client (left ++ visited) [] → Holds object w client
      (if newState = .initial then .exact (changelog.changeId object.isContainer)
      else newState)) :
    Holds object w (client.apply (w.lastChange object) response) response.newState ∧
      (response.hasMoreChanges = false →
        At object w (client.apply (w.lastChange object) response) (left ++ visited) []) := by
  have hpage := page_applied h hhistory hscan hstep sinceState newState maxChanges
  rw [← hresponse] at hpage
  have hmore : response.hasMoreChanges =
      decide (maxChanges < (changeList object w visited).length - itemsSent) := by
    rw [hresponse, Scanned.changeList_eq hscan, ← length_drop]
    rfl
  have hstate : response.newState = if response.hasMoreChanges = true then
      .intermediate changelog.fromChangeId (changelog.changeId object.isContainer)
        (itemsSent + maxChanges)
      else if newState = .initial then .exact (changelog.changeId object.isContainer)
      else newState := by
    rw [hresponse]
    rfl
  rw [hstate]
  cases hhas : response.hasMoreChanges with
  | true =>
    refine ⟨?_, fun hfalse => by cases hfalse⟩
    rw [hhas, eq_comm, decide_eq_true_eq] at hmore
    have hne : partFold object.isContainer (effects object.collection.isShareLog visited) ≠ [] := by
      intro hnil
      rw [changeList, hnil] at hmore
      change maxChanges < 0 - itemsSent at hmore
      omega
    have hvisited : visited ≠ [] := by
      rintro rfl
      exact hne rfl
    obtain ⟨hle, hreread⟩ := hscan.reread object.isContainer (by rw [← hhistory]; exact h.ascending) hne
    rw [← hhistory] at hreread
    have hpending : w.pending object changelog.fromChangeId
        (changelog.changeId object.isContainer) = changeList object w visited := by
      rw [World.pending, hreread]
    obtain ⟨hknown, hposition⟩ := position_of_scan h.ascending hhistory hscan hvisited hpage
    refine ⟨hle, hknown, ?_, ?_⟩
    · rw [hpending]
      omega
    · rw [hpending]
      exact hposition
  | false =>
    rw [hhas, eq_comm, decide_eq_false_iff_not] at hmore
    rw [drop_eq_nil_of_le (by omega)] at hpage
    exact ⟨hend _ hpage, fun _ => hpage⟩

end Page

/-! ## One call -/

section Call

variable {object : MethodObject} {w : World} {client : Client}

theorem InStep.apply_none {now : History} (h : InStep isContainer reader client now position rest)
    (lastChange : Nat → Nat) (sinceState newState : State) :
    InStep isContainer reader (client.apply lastChange (.none sinceState newState)) now position
      rest := by
  have hhas : ∀ id, (client.apply lastChange (.none sinceState newState)).has id = client.has id := by
    simp [Client.apply, ChangesResponse.none]
  have hseen : ∀ id, (client.apply lastChange (.none sinceState newState)).seen id =
      client.seen id := by
    simp [Client.apply, ChangesResponse.none]
  refine ⟨fun id hallows => ?_, fun id hallows hexists => ?_, fun id hother => ?_, fun id => ?_⟩
  · rw [hhas]
    exact h.has id hallows
  · rw [hseen]
    exact h.seen id hallows hexists
  · rw [hhas]
    exact h.others id hother
  · rw [hseen]
    exact h.bound id

variable (h : Inv object w)
include h

theorem objects_of_unchanged (hhistory : w.history = position ++ tail)
    (hnil : partFold object.isContainer (effects object.collection.isShareLog tail) = [])
    (id : Nat) :
    existing object.isContainer id (w.effects object) =
        existing object.isContainer id (effects object.collection.isShareLog position) ∧
      (existing object.isContainer id (effects object.collection.isShareLog position) = true →
        lastChange object.isContainer id (w.effects object) =
          lastChange object.isContainer id (effects object.collection.isShareLog position)) := by
  rw [effects_eq hhistory]
  refine objects_of_partFold_nil (h.fresh_append hhistory) (effects_distinct fun commit hmem =>
    h.distinct commit ?_) hnil id
  rw [hhistory]
  exact mem_append_right _ hmem

theorem inStep_now (hhistory : w.history = position ++ tail)
    (hnil : partFold object.isContainer (effects object.collection.isShareLog tail) = [])
    (hstep : At object w client position []) :
    InStep object.isContainer w.reader client (w.effects object) (w.effects object) [] := by
  have hobjects := objects_of_unchanged h hhistory hnil
  exact hstep.move (fun id => (hobjects id).1) fun id hexists =>
    Nat.le_of_eq ((hobjects id).2 hexists)

theorem inStep_back (hhistory : w.history = position ++ tail)
    (hnil : partFold object.isContainer (effects object.collection.isShareLog tail) = [])
    (hstep : InStep object.isContainer w.reader client (w.effects object) (w.effects object) []) :
    At object w client position [] := by
  have hobjects := objects_of_unchanged h hhistory hnil
  exact hstep.move (fun id => (hobjects id).1.symm) fun id _ => h.lastChange_le hhistory id

theorem Inv.upTo_append_after (changeId : Nat) :
    w.history = upTo changeId w.history ++ after changeId w.history :=
  (Sync.upTo_append_after h.ascending changeId).symm

theorem fetched_follows {kind : CacheKind} : (CacheIds.fetch kind w.log w.cache).Follows w.history ∧
      (CacheIds.fetch kind w.log w.cache).Current w.history := by
  obtain ⟨cut, hlog, hcut⟩ := h.log
  rw [hlog]
  exact fetch_follows kind h.ascending hcut h.cache

omit h

theorem isShareLog_of_cacheKind {kind : CacheKind} (h : object.collection.cacheKind = some kind) :
    object.collection.isShareLog = false := by
  cases object with
  | email | mailbox | thread | identity | emailSubmission | addressBook | contactCard
  | fileNode | calendar | calendarEvent | calendarEventNotification => rfl
  | shareNotification => cases h

theorem inStep_cached (h : Inv object w) {kind : CacheKind}
    (hkind : object.collection.cacheKind = some kind)
    (hstep : InStep object.isContainer w.reader client (w.effects object) (w.effects object) []) :
    Holds object w client ((CacheIds.fetch kind w.log w.cache).getState object.isContainer) := by
  obtain ⟨hfollows, hcurrent⟩ := @fetched_follows object w h kind
  refine ⟨hfollows.part object.isContainer, inStep_back h (h.upTo_append_after _) ?_ hstep⟩
  rw [isShareLog_of_cacheKind hkind, effects_false]
  exact hcurrent object.isContainer

theorem checkLog_ok {changelog : Changes} {response response' : ChangesResponse}
    (h : checkLog changelog response = .ok response') :
    changelog.isTruncated = false ∧ changelog.fromChangeId ≠ 0 ∧ response' = response := by
  unfold checkLog at h
  split at h
  · cases h
  · rename_i htruncated
    split at h
    · cases h
    · rename_i hfrom
      cases h
      exact ⟨Bool.eq_false_iff.mpr htruncated, hfrom, rfl⟩

def Answered (object : MethodObject) (w : World) (response : ChangesResponse) : Prop :=
  Holds object w (w.client.apply (w.lastChange object) response) response.newState ∧
    (response.hasMoreChanges = false → Settled object w →
      InStep object.isContainer w.reader (w.client.apply (w.lastChange object) response)
        (w.effects object) (w.effects object) [])

variable {maxResults : Nat} {maxChanges : Option Nat} {response : ChangesResponse}

theorem call_initial (h : Inv object w) (hholds : Holds object w w.client .initial)
    (hwhole : (w.log.changes object.collection.isShareLog .all).isTruncated = false)
    (hcall : w.call object maxResults .initial maxChanges = .ok response) :
    Answered object w response := by
  obtain ⟨cut, hlog, hcut⟩ := h.log
  have huncut : cut = none := by
    cases cut with
    | none => rfl
    | some k =>
      rw [hlog, changes_isTruncated (by simp [Query.scans, Query.fromChangeId]) (Or.inl rfl)] at hwhole
      cases hwhole
  subst huncut
  have hscan := @changes_all object.collection.isShareLog w.history
  rw [← hlog] at hscan
  have hhistory : w.history = [] ++ w.history ++ [] := by simp
  unfold World.call changes at hcall
  dsimp only at hcall
  split at hcall
  · cases hcall
  · split at hcall
    · -- nothing has been logged
      rename_i hnone
      cases hcall
      have hsame := hholds.apply_none (w.lastChange object) .initial .initial
      refine ⟨hsame, fun _ _ => inStep_now h (nil_append w.history).symm ?_ hsame⟩
      rw [← partOf_foldAll, ← hscan.changes, hnone.1]
      rfl
    · rename_i hsome
      cases hcall
      have hne : w.history ≠ [] := by
        intro hnil
        rw [hscan.empty hnil] at hsome
        exact hsome ⟨rfl, rfl⟩
      have hstep : At object w w.client ([] ++ w.history)
          ((changeList object w w.history).drop 0) :=
        InStep.scan hholds h.fresh (effects_distinct h.distinct)
      obtain ⟨hnext, hdone⟩ := page_answered h hhistory hscan hstep rfl fun client hend => by
        rw [if_pos rfl]
        exact position_of_scan h.ascending hhistory hscan hne hend
      exact ⟨hnext, fun hfalse _ => hdone hfalse⟩

theorem call_exact (h : Inv object w) {changeId : Nat}
    (hholds : Holds object w w.client (.exact changeId))
    (hcall : w.call object maxResults (.exact changeId) maxChanges = .ok response) :
    Answered object w response := by
  obtain ⟨cut, hlog, hcut⟩ := h.log
  obtain ⟨hknown, hstep⟩ := hholds
  have hhistory := h.upTo_append_after changeId
  -- the state of the cache, for the types that use it
  have hcached : ∀ state, cachedState object
      ((w.fetchedBy object (.exact changeId)).getD (.build w.log)) = some state →
      ∃ kind, object.collection.cacheKind = some kind ∧
        state = (CacheIds.fetch kind w.log w.cache).getState object.isContainer := by
    intro state hstate
    unfold cachedState at hstate
    split at hstate
    · rename_i huses
      cases hstate
      have hmembers : object.membersOnly = false := by
        revert huses
        cases object <;> decide
      have hkind : ∃ kind, object.collection.cacheKind = some kind := by
        revert huses
        cases object <;> simp [MethodObject.usesCachedState, MethodObject.collection,
          MethodObject.target, SyncCollection.cacheKind]
      obtain ⟨kind, hkind⟩ := hkind
      simp [World.fetchedBy, hmembers, huses, World.fetched, hkind]
    · cases hstate
  unfold World.call changes at hcall
  dsimp only at hcall
  generalize cachedState object ((w.fetchedBy object (.exact changeId)).getD (.build w.log)) =
    state at hcached hcall
  split at hcall
  · cases hcall
  · split at hcall
    · -- the cache has the same state
      rename_i hsame
      cases hcall
      have hstate : state = some (.exact changeId) := by
        cases state with
        | none => cases hsame
        | some state => exact congrArg some hsame
      subst hstate
      obtain ⟨kind, hkind, hid⟩ := hcached _ rfl
      have happly := hstep.apply_none (w.lastChange object) (.exact changeId) (.exact changeId)
      refine ⟨⟨hknown, happly⟩, fun _ _ => inStep_now h hhistory ?_ happly⟩
      obtain ⟨-, hcurrent⟩ := @fetched_follows object w h kind
      rw [isShareLog_of_cacheKind hkind, effects_false]
      cases hid
      exact hcurrent object.isContainer
    · obtain ⟨htruncated, hfrom, rfl⟩ := checkLog_ok hcall
      rw [hlog] at htruncated
      obtain ⟨base, hbase, hscan⟩ := changes_since h.ascending (cut_le_of_since htruncated)
      rw [← hlog] at hscan
      have hhistory' : w.history = upTo changeId w.history ++ after changeId w.history ++ [] := by
        rw [List.append_nil]
        exact hhistory
      have hdistinct : ∀ commit ∈ after changeId w.history, commit.2.Distinct :=
        fun commit hmem => h.distinct commit (mem_after.mp hmem).1
      have hscanned : At object w w.client (upTo changeId w.history ++ after changeId w.history)
          ((changeList object w (after changeId w.history)).drop 0) := by
        rw [At, effects_append]
        exact hstep.scan (h.fresh_append hhistory) (effects_distinct hdistinct)
      have hend : ∀ client, At object w client (upTo changeId w.history ++ after changeId w.history) [] →
          Holds object w client (if state.getD .initial = .initial then
            .exact ((w.log.changes object.collection.isShareLog (.since changeId)).changeId
              object.isContainer)
            else state.getD .initial) := by
        intro client hend
        cases state with
        | some state =>
          obtain ⟨kind, hkind, rfl⟩ := hcached state rfl
          rw [← hhistory] at hend
          exact inStep_cached h hkind hend
        | none =>
          by_cases hne : after changeId w.history = []
          · -- nothing is behind the change id, which is in the log
            have hid : (w.log.changes object.collection.isShareLog (.since changeId)).changeId
                object.isContainer = changeId := by
              rw [hscan.empty hne] at hfrom ⊢
              rw [Changes.changeId, hbase.parts, hbase.stop]
              exact hbase.start.resolve_right hfrom
            rw [hid]
            refine ⟨hknown, ?_⟩
            rw [hne, List.append_nil] at hend
            exact hend
          · exact position_of_scan h.ascending hhistory' hscan hne hend
      obtain ⟨hnext, hdone⟩ := page_answered h hhistory' hscan hscanned rfl hend
      rw [← hhistory] at hdone
      exact ⟨hnext, fun hfalse _ => hdone hfalse⟩

theorem call_intermediate (h : Inv object w) {fromId toId itemsSent : Nat}
    (hholds : Holds object w w.client (.intermediate fromId toId itemsSent))
    (hparse : State.parse w.client.state = some (.intermediate fromId toId itemsSent))
    (hanswerable : Answerable object w)
    (hcall : w.call object maxResults (.intermediate fromId toId itemsSent) maxChanges = .ok response) :
    Answered object w response := by
  obtain ⟨cut, hlog, hcut⟩ := h.log
  obtain ⟨hle, hknown, hlength, hstep⟩ := hholds
  rw [Answerable, hparse] at hanswerable
  unfold World.call changes at hcall
  dsimp only at hcall
  split at hcall
  · cases hcall
  · by_cases hkept : ∀ k, cut = some k → k < fromId
    · -- the range is as it was
      have hscan := @changes_within fromId toId cut w.history object.collection.isShareLog hkept
      rw [← hlog] at hscan
      have hlist : partOf object.isContainer
          (w.log.changes object.collection.isShareLog (.rangeInclusive fromId toId)).changes =
          partFold object.isContainer
            (effects object.collection.isShareLog (within fromId toId w.history)) := by
        rw [hscan.changes, partOf_foldAll]
      have htotal : itemsSent < (partOf object.isContainer
          (w.log.changes object.collection.isShareLog (.rangeInclusive fromId toId)).changes).length := by
        rw [hlist]
        exact Nat.lt_of_lt_of_le hlength (length_filter_le _ _)
      rw [if_neg (Nat.not_le.mpr htotal)] at hcall
      obtain ⟨-, -, rfl⟩ := checkLog_ok hcall
      obtain ⟨left, hleft⟩ := @upTo_eq_append_within fromId toId w.history h.ascending
      have hhistory : w.history = left ++ within fromId toId w.history ++ after toId w.history := by
        rw [← hleft]
        exact h.upTo_append_after toId
      have hne : within fromId toId w.history ≠ [] := by
        intro hnil
        rw [hlist, hnil] at htotal
        exact Nat.not_lt_zero _ htotal
      rw [hleft] at hstep
      obtain ⟨hnext, hdone⟩ := page_answered h hhistory hscan hstep rfl fun client hend => by
        rw [if_pos rfl]
        exact position_of_scan h.ascending hhistory hscan hne hend
      refine ⟨hnext, fun hfalse hsettled => ?_⟩
      rw [Settled, hparse] at hsettled
      obtain ⟨base, -, hbehind⟩ := @changes_since toId cut w.history
        object.collection.isShareLog h.ascending
        fun k hk => Nat.le_trans (Nat.le_of_lt (hkept k hk)) hle
      rw [← hlog] at hbehind
      dsimp only at hsettled
      rw [hbehind.changes, partOf_foldAll] at hsettled
      exact inStep_now h hhistory hsettled (hdone hfalse)
    · -- the log was cut in the range, or behind it
      simp only [not_forall, Nat.not_lt] at hkept
      obtain ⟨k, rfl, hfrom⟩ := hkept
      by_cases hto : k ≤ toId
      · have hscans : (Query.rangeInclusive fromId toId).scans k = true :=
          decide_eq_true ⟨hfrom, hto⟩
        have htruncated : (w.log.changes object.collection.isShareLog
            (.rangeInclusive fromId toId)).isTruncated = true := by
          rw [hlog]
          exact changes_isTruncated hscans (Or.inl rfl)
        rw [if_neg (Nat.not_le.mpr (hanswerable htruncated))] at hcall
        rw [(checkLog_ok hcall).1] at htruncated
        cases htruncated
      · have hnone : partOf object.isContainer (w.log.changes object.collection.isShareLog
            (.rangeInclusive fromId toId)).changes = [] := by
          rw [hlog, changes_within_lost (Nat.lt_of_not_le hto)]
          rfl
        rw [hnone] at hcall
        have htruncated := (checkLog_ok hcall).1
        rw [hlog] at htruncated
        exact absurd (cut_le_of_since htruncated k rfl) hto

end Call

/-! ## Runs -/

section Runs

variable {object : MethodObject} {maxResults : Nat} {w w' : World}

theorem inv_new (reader : Reader) : Inv object (World.new reader) := by
  refine ⟨List.Pairwise.nil, fun _ h => (by cases h), List.Pairwise.nil,
    ⟨none, rfl, fun _ h => by cases h⟩, fun _ => rfl, fun _ h => (by cases h), .initial, rfl, ?_⟩
  exact ⟨fun id _ => (by simp [existing, World.new]), fun id _ h => (by cases h), fun _ _ => rfl,
    fun _ => Nat.zero_le _⟩

theorem InStep.commit {reader' : Reader} {client : Client} {now now' : History}
    (h : InStep isContainer reader client now position rest)
    (hsub : ∀ commit ∈ position, commit ∈ now) (hrest : ∀ change ∈ rest,
      change.isContainer = isContainer → Mentioned isContainer change.id now)
    (hreader : ∀ id, Mentioned isContainer id now → reader'.allows id = reader.allows id)
    (hlast : ∀ id, lastChange isContainer id now ≤ lastChange isContainer id now') :
    InStep isContainer reader' client now' position rest := by
  -- an id that no commit names is unknown to the client
  have hunknown : ∀ id, ¬ Mentioned isContainer id now →
      existing isContainer id position = false ∧ client.has id = false ∧
        ∀ kind, ⟨isContainer, kind, id⟩ ∉ rest := by
    intro id hnot
    have hempty := @objects_append_unmentioned isContainer id [] position fun commit hmem hmentions =>
      hnot ⟨commit, hsub commit hmem, hmentions⟩
    have hnone : ∀ kind, ⟨isContainer, kind, id⟩ ∉ rest :=
      fun kind hmem => hnot (hrest _ hmem rfl)
    refine ⟨hempty.1, ?_, hnone⟩
    cases hallows : reader.allows id with
    | false => exact h.others id hallows
    | true =>
      have hhas := h.has id hallows
      rw [show existing isContainer id position = false from hempty.1] at hhas
      refine Bool.eq_false_iff.mpr fun htrue => ?_
      exact Bool.false_ne_true (hhas.mpr ⟨Or.inl htrue, hnone _⟩)
  refine ⟨fun id hallows => ?_, fun id hallows hexists => ?_, fun id hother => ?_, fun id => ?_⟩
  · by_cases hmentioned : Mentioned isContainer id now
    · exact h.has id ((hreader id hmentioned).symm.trans hallows)
    · obtain ⟨hexists, hhas, hnone⟩ := hunknown id hmentioned
      rw [hexists, hhas]
      simp [hnone]
  · by_cases hmentioned : Mentioned isContainer id now
    · exact h.seen id ((hreader id hmentioned).symm.trans hallows) hexists
    · rw [(hunknown id hmentioned).1] at hexists
      cases hexists
  · by_cases hmentioned : Mentioned isContainer id now
    · exact h.others id ((hreader id hmentioned).symm.trans hother)
    · exact (hunknown id hmentioned).2.1
  · exact Nat.le_trans (h.bound id) (hlast id)

theorem holds_commit (h : Inv object w) {changeId : Nat} {commit : Commit} (hpos : 0 < changeId)
    (hnew : ∀ earlier ∈ w.history, earlier.1 < changeId)
    (hreader : ∀ id, Mentioned object.isContainer id (w.effects object) →
      reader.allows id = w.reader.allows id)
    (hhistory : w'.history = w.history ++ [(changeId, commit.entry)]) (hread : w'.reader = reader)
    {client : Client} (hholds : Holds object w client sinceState) :
    Holds object w' client sinceState := by
  have hlast : ∀ id, lastChange object.isContainer id (w.effects object) ≤
      lastChange object.isContainer id (w'.effects object) := by
    intro id
    have hascending : Ascending w'.history := by
      rw [hhistory]
      exact ascending_append h.ascending hnew
    rw [effects_eq hhistory]
    refine lastChange_le_append ?_
    have heffects : Ascending (w'.effects object) := effects_ascending hascending
    rw [effects_eq hhistory] at heffects
    exact heffects
  have hposition : ∀ changeId commit, commit ∈ effects object.collection.isShareLog
      (upTo changeId w.history) → commit ∈ w.effects object := by
    intro changeId commit hmem
    exact map_subset _ (filter_subset_self _) hmem
  subst hread
  cases sinceState with
  | initial =>
    exact InStep.commit hholds (fun _ hmem => (by cases hmem)) (fun _ hmem => (by cases hmem))
      hreader hlast
  | exact changeId' =>
    obtain ⟨hknown, hstep⟩ := hholds
    refine ⟨?_, ?_⟩
    · rw [hhistory]
      exact hknown.append _
    · rw [hhistory, upTo_append_new (hknown.lt hpos hnew)]
      exact hstep.commit (hposition changeId') (fun _ hmem => (by cases hmem)) hreader hlast
  | intermediate fromId toId itemsSent =>
    obtain ⟨hle, hknown, hlength, hstep⟩ := hholds
    have hmentioned : ∀ change ∈ partFold object.isContainer
        (effects object.collection.isShareLog (within fromId toId w.history)),
        Mentioned object.isContainer change.id (w.effects object) := by
      intro change hmem
      have hdistinct : ∀ commit ∈ within fromId toId w.history, commit.2.Distinct :=
        fun commit hmem => h.distinct commit (mem_of_mem_filter hmem)
      obtain ⟨commit, hcommit, hmentions⟩ := mentioned_of_mem_partFold
        (effects_distinct hdistinct) hmem (partFold_isContainer hmem)
      exact ⟨commit, map_subset _ (filter_subset_self _) hcommit, hmentions⟩
    have hpending : w'.pending object fromId toId = w.pending object fromId toId := by
      rw [World.pending, hhistory, within_append_new (hknown.lt hpos hnew)]
      refine filter_congr fun change hmem => ?_
      exact hreader change.id (hmentioned change hmem)
    refine ⟨hle, ?_, ?_, ?_⟩
    · rw [hhistory]
      exact hknown.append _
    · rw [hpending]
      exact hlength
    · rw [hpending, hhistory, upTo_append_new (hknown.lt hpos hnew)]
      refine hstep.commit (hposition toId) (fun change hmem _ => ?_) hreader hlast
      exact hmentioned change (mem_allowedChanges.mp (mem_of_mem_drop hmem)).1

theorem inv_commit (h : Inv object w) {changeId : Nat} {commit : Commit}
    (hcareful : Careful object w (.commit changeId commit reader))
    (hstep : w.step object maxResults (.commit changeId commit reader) = some w') :
    Inv object w' := by
  simp only [World.step] at hstep
  split at hstep
  case isFalse => cases hstep
  case isTrue hvalid =>
    cases hstep
    obtain ⟨hpos, hnew⟩ := hvalid
    obtain ⟨hfresh, hreader⟩ := hcareful
    obtain ⟨cut, hlog, hcut⟩ := h.log
    obtain ⟨sinceState, hstate, hholds⟩ := h.client
    refine ⟨?_, ?_, ?_, ⟨cut, ?_, ?_⟩, h.gone, ?_, sinceState, hstate, ?_⟩
    · exact ascending_append h.ascending hnew
    · intro commit' hmem
      rcases mem_append.mp hmem with hmem | hmem
      · exact h.distinct commit' hmem
      · rw [mem_singleton.mp hmem]
        exact commit.distinct
    · rw [World.effects, effects_append]
      refine pairwise_append.mpr ⟨h.fresh, pairwise_singleton _ _, ?_⟩
      intro earlier hmem new hsingle id hinserted hmentions
      rw [mem_singleton.mp hsingle] at hinserted
      exact hfresh id hinserted ⟨earlier, hmem, hmentions⟩
    · have hbelow : ∀ k, cut = some k → k < changeId :=
        fun k hk => Known.lt (Or.inr (hcut k hk)) hpos hnew
      rw [recorded_append hbelow, ← hlog]
      rfl
    · intro k hk
      rw [List.map_append]
      exact mem_append_left _ (hcut k hk)
    · exact fun ids hids => (h.cache ids hids).append hpos hnew
    · exact holds_commit h hpos hnew hreader rfl rfl hholds

theorem Holds.congr (hhistory : w'.history = w.history) (hreader : w'.reader = w.reader)
    {client : Client} (h : Holds object w client sinceState) :
    Holds object w' client sinceState := by
  cases sinceState with
  | initial | exact changeId =>
    simp only [Holds, World.effects, hhistory, hreader] at h ⊢
    exact h
  | intermediate fromId toId itemsSent =>
    simp only [Holds, World.effects, World.pending, hhistory, hreader] at h ⊢
    exact h

variable (h : Inv object w)
include h

theorem Inv.congr (hhistory : w'.history = w.history)
    (hreader : w'.reader = w.reader) (hgone : w'.gone = w.gone)
    (hlog : ∃ cut, w'.log = recorded cut w'.history ∧ ∀ k, cut = some k → k ∈ w'.history.map Prod.fst)
    (hcache : ∀ ids, w'.cache = some ids → ids.Follows w'.history)
    (hclient : ∃ sinceState, w'.client.state = sinceState.display ∧
      Holds object w w'.client sinceState) : Inv object w' := by
  obtain ⟨sinceState, hstate, hholds⟩ := hclient
  refine ⟨?_, ?_, ?_, hlog, ?_, hcache, sinceState, hstate, hholds.congr hhistory hreader⟩
  · rw [hhistory]
    exact h.ascending
  · rw [hhistory]
    exact h.distinct
  · rw [World.effects, hhistory]
    exact h.fresh
  · rw [hgone]
    exact h.gone

theorem fetched_cache : ∀ ids, w.fetched object = some ids → ids.Follows w.history := by
  intro ids hids
  unfold World.fetched at hids
  split at hids
  · cases hids
    exact (fetched_follows h).1
  · exact h.cache ids hids

theorem fetchedBy_cache (sinceState : State) :
    ∀ ids, w.fetchedBy object sinceState = some ids → ids.Follows w.history := by
  intro ids hids
  have hcases : w.fetchedBy object sinceState = w.fetched object ∨
      w.fetchedBy object sinceState = w.cache := ite_eq_or_eq _ _ _
  rcases hcases with heq | heq
  · exact fetched_cache h ids (heq.symm.trans hids)
  · exact h.cache ids (heq.symm.trans hids)

theorem holds_list (text : StateText) :
    Holds object w ⟨w.mayRead object, w.lastChange object, text⟩ (w.listState object) := by
  have hnow : InStep object.isContainer w.reader ⟨w.mayRead object, w.lastChange object, text⟩
      (w.effects object) (w.effects object) [] := by
    refine ⟨fun id hallows => ?_, fun id _ _ => Or.inl (Nat.le_refl _), fun id hother => ?_,
      fun id => Nat.le_refl _⟩
    · simp [World.mayRead, World.present, h.gone id, hallows]
    · simp [World.mayRead, hother]
  unfold World.listState
  cases hkind : object.collection.cacheKind with
  | some kind => exact inStep_cached h hkind hnow
  | none =>
    obtain ⟨cut, hlog, hcut⟩ := h.log
    have hlast := recorded_lastChangeId h.ascending hcut
    rw [← hlog] at hlast
    unfold logState
    cases hid : w.log.lastChangeId with
    | none =>
      rw [hid] at hlast
      have hempty : w.effects object = [] := by
        rw [World.effects, show w.history = [] from hlast]
        rfl
      simp only [Holds]
      rw [hempty] at hnow ⊢
      exact hnow
    | some changeId =>
      rw [hid] at hlast
      refine ⟨Or.inr hlast.1, inStep_back h (h.upTo_append_after changeId) ?_ hnow⟩
      rw [hlast.2]
      rfl

theorem call_answered (hparse : State.parse w.client.state = some sinceState)
    (hanswerable : Answerable object w) {maxChanges : Option Nat} {response : ChangesResponse}
    (hcall : w.call object maxResults sinceState maxChanges = .ok response) :
    Answered object w response := by
  obtain ⟨sinceState', hstate, hholds⟩ := h.client
  have heq : sinceState = sinceState' := parse_of_holds hholds (hstate ▸ hparse)
  subst heq
  cases sinceState with
  | initial =>
    rw [Answerable, hparse] at hanswerable
    exact call_initial h hholds hanswerable hcall
  | exact changeId => exact call_exact h hholds hcall
  | intermediate fromId toId itemsSent =>
    exact call_intermediate h hholds hparse hanswerable hcall

omit h

theorem inv_step {label : Label} (h : Inv object w) (hcareful : Careful object w label)
    (hstep : w.step object maxResults label = some w') : Inv object w' := by
  obtain ⟨cut, hlog, hcut⟩ := h.log
  cases label with
  | commit changeId commit reader => exact inv_commit h hcareful hstep
  | deleteChanges maxEntries =>
    simp only [World.step] at hstep
    split at hstep
    · cases hstep
    · cases hstep
      obtain ⟨cut', hlog', hcut'⟩ := recorded_deleteChanges h.ascending hcut maxEntries
      exact h.congr rfl rfl rfl ⟨cut', by rw [← hlog', ← hlog], hcut'⟩ h.cache h.client
  | clearNotification id => cases hcareful
  | evict =>
    cases hstep
    exact h.congr rfl rfl rfl h.log (fun _ hids => by cases hids) h.client
  | fetch =>
    cases hstep
    exact h.congr rfl rfl rfl h.log (fetched_cache h) h.client
  | list =>
    cases hstep
    exact h.congr rfl rfl rfl h.log (fetched_cache h) ⟨w.listState object, rfl, holds_list h _⟩
  | changes maxChanges =>
    simp only [World.step] at hstep
    cases hparse : State.parse w.client.state with
    | none =>
      rw [hparse] at hstep
      cases hstep
      exact h
    | some sinceState =>
      rw [hparse] at hstep
      dsimp only at hstep
      cases hcall : w.call object maxResults sinceState maxChanges with
      | error e =>
        rw [hcall] at hstep
        cases hstep
        exact h.congr rfl rfl rfl h.log (fetchedBy_cache h sinceState) h.client
      | ok response =>
        rw [hcall] at hstep
        cases hstep
        exact h.congr rfl rfl rfl h.log (fetchedBy_cache h sinceState)
          ⟨response.newState, rfl, (call_answered h hparse hcareful hcall).1⟩

end Runs

/-- In every run of careful steps, a call that succeeds without more changes leaves the client in
sync, when nothing was committed behind the range it was reading. -/
theorem changes_in_sync (object : MethodObject) (maxResults : Nat) (reader : Reader)
    (labels : List Label)
    (hcareful : Runs.Along (World.step object maxResults) (Careful object) (World.new reader) labels)
    (w : World)
    (hrun : Runs.run (World.step object maxResults) (World.new reader) labels = some w)
    (hanswerable : Answerable object w) (hsettled : Settled object w) (sinceState : State)
    (hstate : State.parse w.client.state = some sinceState) (maxChanges : Option Nat)
    (response : ChangesResponse)
    (hcall : w.call object maxResults sinceState maxChanges = .ok response)
    (hmore : response.hasMoreChanges = false) (w' : World)
    (hstep : w.step object maxResults (.changes maxChanges) = some w') : InSync object w' := by
  have hinv : Inv object w :=
    Runs.run_invariant (Inv object) (fun _ _ _ h hcond hstep => inv_step h hcond hstep) hcareful
      (inv_new reader) hrun
  simp only [World.step, hstate, hcall] at hstep
  cases hstep
  intro id
  have hsync := ((call_answered hinv hstate hanswerable hcall).2 hmore hsettled).sync id
  simp only [World.mayRead, World.present, hinv.gone id, Bool.not_false, Bool.and_true]
  exact hsync

def itemCommit (inserts updates deletes : List Nat) (hinserts : inserts.Nodup)
    (hupdates : updates.Nodup) (hdeletes : deletes.Nodup) : Commit :=
  ⟨⟨[], [], [], [], inserts, updates, deletes⟩, ⟨List.nodup_nil, List.nodup_nil, List.nodup_nil,
    List.nodup_nil, hinserts, hupdates, hdeletes⟩⟩

def insertCommit (inserts : List Nat) (h : inserts.Nodup) : Commit :=
  itemCommit inserts [] [] h List.nodup_nil List.nodup_nil

def pagedRun : List Label :=
  [.commit 1 (insertCommit [1, 2] (by decide)) none, .changes (some 1)]

theorem changes_in_sync_pagedRun :
    Runs.Along (World.step .email 100) (Careful .email) (World.new none) pagedRun ∧
      ∃ w response w', Runs.run (World.step .email 100) (World.new none) pagedRun = some w ∧
        w.call .email 100 (.intermediate 1 1 1) (some 1) = .ok response ∧
        response.hasMoreChanges = false ∧ w.step .email 100 (.changes (some 1)) = some w' ∧
        w'.client.has 1 = true ∧ w'.client.has 2 = true ∧ InSync .email w' := by
  have hcareful : Runs.Along (World.step .email 100) (Careful .email) (World.new none) pagedRun := by
    refine ⟨⟨?_, ?_⟩, fun w₁ h₁ => ⟨?_, fun _ _ => trivial⟩⟩
    · rintro id - ⟨commit, hmem, -⟩
      cases hmem
    · rintro id ⟨commit, hmem, -⟩
      cases hmem
    · cases h₁
      change Changes.isTruncated _ = false
      decide
  have hstate : ((Runs.run (World.step .email 100) (World.new none) pagedRun).map fun w =>
      (w.client.state, w.log)) = some (.r 1 0 1, [(1, some (insertCommit [1, 2] (by decide)).entry)]) := by
    decide
  have hafter : ((Runs.run (World.step .email 100) (World.new none) pagedRun).bind fun w =>
      (w.step .email 100 (.changes (some 1))).map fun w' => (w'.client.has 1, w'.client.has 2)) =
        some (true, true) := by
    decide
  have hcall : ((Runs.run (World.step .email 100) (World.new none) pagedRun).map fun w =>
      match w.call .email 100 (.intermediate 1 1 1) (some 1) with
      | .ok response => some response.hasMoreChanges
      | .error _ => none) = some (some false) := by
    decide
  obtain ⟨w, hrun, hstate⟩ := map_eq_some_iff.mp hstate
  rw [hrun] at hafter hcall
  obtain ⟨w', hstep, hhas⟩ := map_eq_some_iff.mp hafter
  obtain ⟨hclient, hlog⟩ := Prod.mk.inj hstate
  obtain ⟨hone, htwo⟩ := Prod.mk.inj hhas
  have hparse : State.parse w.client.state = some (.intermediate 1 1 1) := by
    rw [hclient]
    rfl
  have hanswerable : Answerable .email w := by
    rw [Answerable, hparse, hlog]
    decide
  have hsettled : Settled .email w := by
    rw [Settled, hparse, hlog]
    decide
  cases hresponse : w.call .email 100 (.intermediate 1 1 1) (some 1) with
  | error e =>
    rw [map_some, hresponse] at hcall
    cases hcall
  | ok response =>
    rw [map_some, hresponse] at hcall
    have hmore : response.hasMoreChanges = false := Option.some.inj (Option.some.inj hcall)
    exact ⟨hcareful, w, response, w', hrun, hresponse, hmore, hstep, hone, htwo,
      changes_in_sync .email 100 none pagedRun hcareful w hrun hanswerable hsettled _ hparse
        (some 1) response hresponse hmore w' hstep⟩

/-- A last call behind a run: whether there are more changes, and whether the client then has an
object, and may read it. -/
def outcome (object : MethodObject) (reader : Reader) (labels : List Label)
    (maxChanges : Option Nat) (id : Nat) : Option (Bool × Bool × Bool) :=
  (Runs.run (World.step object 100) (World.new reader) labels).bind fun w =>
    (State.parse w.client.state).bind fun sinceState =>
      match w.call object 100 sinceState maxChanges with
      | .error _ => none
      | .ok response => (w.step object 100 (.changes maxChanges)).map fun w' =>
        (response.hasMoreChanges, w'.client.has id, w'.mayRead object id)

/-- The last page of a range is given as the last of all when there are newer commits; a reader
who is not a member is not told what was deleted; a log that has been cut is read from the
initial state; a cut in the range that is being read is not noticed; and share notifications are
destroyed without a change. -/
theorem changes_out_of_sync :
    outcome .email none
      [.commit 1 (insertCommit [1, 2] (by decide)) none, .changes (some 1),
        .commit 2 (insertCommit [3] (by decide)) none] (some 1) 3 =
      some (false, false, true) ∧
    outcome .email (some fun _ => true)
      [.commit 1 (insertCommit [1, 2] (by decide)) (some fun _ => true), .list,
        .commit 2 (itemCommit [] [] [1] (by decide) (by decide) (by decide))
          (some fun id => decide (id = 2))] none 1 =
      some (false, true, false) ∧
    outcome .email none
      [.commit 1 (insertCommit [1] (by decide)) none, .commit 2 (insertCommit [2] (by decide)) none,
        .deleteChanges 1] none 1 =
      some (false, false, true) ∧
    outcome .email none
      [.commit 1 (insertCommit [1, 2, 3] (by decide)) none,
        .commit 2 (insertCommit [4] (by decide)) none, .changes (some 2), .deleteChanges 0] none 3 =
      some (false, false, true) ∧
    outcome .shareNotification none
      [.commit 1 (insertCommit [] (by decide)) none, .list, .clearNotification 1,
        .commit 2 (insertCommit [] (by decide)) none] none 1 =
      some (false, true, false) := by
  decide

end Bearmail.Jmap
