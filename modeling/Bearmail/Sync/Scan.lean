import Bearmail.Sync.Log
import Mathlib.Data.List.Induction

/-!
# Scans of the change log

What `Store::changes` gives, in terms of the commits of the account. A log is the list of all
commits, or what `delete_changes` leaves of it: the newer entries, behind an empty one at the cut.

The containers and the items of a log are folded independently of each other (`partOf_foldAll`).
A scan tells where its list starts and ends (`Scanned`): reading that range again gives the same
list, whatever has been committed behind it.
-/

namespace Bearmail.Sync

open List

/-- The commits of an account, with what each of them logs. -/
abbrev History := List (Nat × LogEntry)

/-! ## Containers and items apart -/

section Parts

variable {isContainer : Bool}

def partOf (isContainer : Bool) (changes : List Change) : List Change :=
  changes.filter fun c => decide (c.isContainer = isContainer)

theorem mem_partOf {c : Change} {changes : List Change} :
    c ∈ partOf isContainer changes ↔ c ∈ changes ∧ c.isContainer = isContainer := by
  simp [partOf]

theorem partOf_append (changes changes' : List Change) : partOf isContainer (changes ++ changes') =
      partOf isContainer changes ++ partOf isContainer changes' :=
  filter_append _ _

theorem partOf_single_self (kind : ChangeKind) (id : Nat) :
    partOf isContainer [⟨isContainer, kind, id⟩] = [⟨isContainer, kind, id⟩] := by
  simp [partOf]

theorem partOf_erase_self (kind : ChangeKind) (id : Nat) (changes : List Change) :
    partOf isContainer (changes.erase ⟨isContainer, kind, id⟩) =
      (partOf isContainer changes).erase ⟨isContainer, kind, id⟩ := by
  rw [partOf, partOf, erase_filter]

theorem partOf_find? (q : Change → Prop) [DecidablePred q] (id : Nat) (changes : List Change) :
    ((partOf isContainer changes).find? fun c =>
        decide (c.isContainer = isContainer ∧ c.id = id ∧ q c)) =
      changes.find? fun c => decide (c.isContainer = isContainer ∧ c.id = id ∧ q c) := by
  rw [partOf, List.find?_filter]
  congr 1
  funext c
  by_cases hpart : c.isContainer = isContainer
  · simp [hpart]
  · simp [hpart]

theorem partOf_pushInsert (changes : List Change) (id : Nat) :
    partOf isContainer (pushInsert isContainer changes id) =
      pushInsert isContainer (partOf isContainer changes) id := by
  rw [pushInsert, pushInsert, partOf_append, partOf_single_self]

theorem partOf_pushUpdate (isProperty : Bool) (changes : List Change) (id : Nat) :
    partOf isContainer (pushUpdate isContainer isProperty changes id) =
      pushUpdate isContainer isProperty (partOf isContainer changes) id := by
  unfold pushUpdate
  rw [partOf_find? fun c => c.kind ≠ .delete]
  split
  · rfl
  · rw [partOf_append, partOf_erase_self, partOf_single_self]
  · rw [partOf_append, partOf_erase_self, partOf_single_self]
  · rw [partOf_append, partOf_single_self]

theorem partOf_pushDelete (changes : List Change) (id : Nat) :
    partOf isContainer (pushDelete isContainer changes id) =
      pushDelete isContainer (partOf isContainer changes) id := by
  unfold pushDelete
  rw [partOf_find? fun c => c.kind = .insert ∨ c.kind = .update]
  split
  · rw [partOf_erase_self]
  · rw [partOf_append, partOf_erase_self, partOf_single_self]
  · rw [partOf_append, partOf_single_self]

theorem partOf_foldl {step : List Change → Nat → List Change}
    (hstep : ∀ changes id, partOf isContainer (step changes id) =
      step (partOf isContainer changes) id) (ids : List Nat) (changes : List Change) :
    partOf isContainer (ids.foldl step changes) = ids.foldl step (partOf isContainer changes) := by
  induction ids generalizing changes with
  | nil => rfl
  | cons id ids ih => rw [foldl_cons, ih, hstep, foldl_cons]

theorem partOf_pushAll_self (inserts updates propertyChanges deletes : List Nat)
    (changes : List Change) :
    partOf isContainer (pushAll isContainer inserts updates propertyChanges deletes changes) =
      pushAll isContainer inserts updates propertyChanges deletes (partOf isContainer changes) := by
  unfold pushAll
  rw [partOf_foldl partOf_pushDelete, partOf_foldl (partOf_pushUpdate true),
    partOf_foldl (partOf_pushUpdate false), partOf_foldl partOf_pushInsert]

def LogEntry.push (entry : LogEntry) (isContainer : Bool) (changes : List Change) : List Change :=
  pushAll isContainer (entry.inserts isContainer) (entry.updates isContainer)
    (entry.propertyChanges isContainer) (entry.deletes isContainer) changes

def LogEntry.hasChanges (entry : LogEntry) (isContainer : Bool) : Bool :=
  if isContainer then entry.hasContainerChanges else entry.hasItemChanges

theorem LogEntry.push_of_not_hasChanges {entry : LogEntry}
    (h : entry.hasChanges isContainer = false) (changes : List Change) :
    entry.push isContainer changes = changes := by
  cases isContainer with
  | false =>
    have hlengths : entry.itemInserts.length + entry.itemUpdates.length +
        entry.itemDeletes.length = 0 := by
      simpa [LogEntry.hasChanges, LogEntry.hasItemChanges] using h
    have hinserts : entry.itemInserts = [] := length_eq_zero_iff.mp (by omega)
    have hupdates : entry.itemUpdates = [] := length_eq_zero_iff.mp (by omega)
    have hdeletes : entry.itemDeletes = [] := length_eq_zero_iff.mp (by omega)
    simp [LogEntry.push, LogEntry.inserts, LogEntry.updates, LogEntry.propertyChanges,
      LogEntry.deletes, hinserts, hupdates, hdeletes, pushAll]
  | true =>
    have hlengths : entry.containerInserts.length + entry.containerUpdates.length +
        entry.containerPropertyChanges.length + entry.containerDeletes.length = 0 := by
      simpa [LogEntry.hasChanges, LogEntry.hasContainerChanges] using h
    have hinserts : entry.containerInserts = [] := length_eq_zero_iff.mp (by omega)
    have hupdates : entry.containerUpdates = [] := length_eq_zero_iff.mp (by omega)
    have hproperties : entry.containerPropertyChanges = [] :=
      length_eq_zero_iff.mp (by omega)
    have hdeletes : entry.containerDeletes = [] := length_eq_zero_iff.mp (by omega)
    simp [LogEntry.push, LogEntry.inserts, LogEntry.updates, LogEntry.propertyChanges,
      LogEntry.deletes, hinserts, hupdates, hproperties, hdeletes, pushAll]

section Others

variable {isContainer' : Bool} (h : isContainer' ≠ isContainer)

include h

theorem partOf_single_other (kind : ChangeKind) (id : Nat) :
    partOf isContainer [⟨isContainer', kind, id⟩] = [] := by
  simp [partOf, h]

theorem partOf_erase_other (kind : ChangeKind) (id : Nat) (changes : List Change) :
    partOf isContainer (changes.erase ⟨isContainer', kind, id⟩) = partOf isContainer changes := by
  have hmem : ⟨isContainer', kind, id⟩ ∉ partOf isContainer changes :=
    fun hmem => h (mem_partOf.mp hmem).2
  rw [partOf, ← erase_filter]
  exact erase_of_not_mem hmem

theorem partOf_pushUpdate_other (isProperty : Bool) (changes : List Change) (id : Nat) :
    partOf isContainer (pushUpdate isContainer' isProperty changes id) =
      partOf isContainer changes := by
  unfold pushUpdate
  split
  · rfl
  · simp [partOf_append, partOf_erase_other h, partOf_single_other h]
  · simp [partOf_append, partOf_erase_other h, partOf_single_other h]
  · simp [partOf_append, partOf_single_other h]

theorem partOf_pushDelete_other (changes : List Change) (id : Nat) :
    partOf isContainer (pushDelete isContainer' changes id) = partOf isContainer changes := by
  unfold pushDelete
  split
  · rw [partOf_erase_other h]
  · simp [partOf_append, partOf_erase_other h, partOf_single_other h]
  · simp [partOf_append, partOf_single_other h]

omit h in
theorem partOf_foldl_other {step : List Change → Nat → List Change}
    (hstep : ∀ changes id, partOf isContainer (step changes id) = partOf isContainer changes)
    (ids : List Nat) (changes : List Change) :
    partOf isContainer (ids.foldl step changes) = partOf isContainer changes := by
  induction ids generalizing changes with
  | nil => rfl
  | cons id ids ih => rw [foldl_cons, ih, hstep]

theorem partOf_pushAll_other (inserts updates propertyChanges deletes : List Nat)
    (changes : List Change) :
    partOf isContainer (pushAll isContainer' inserts updates propertyChanges deletes changes) =
      partOf isContainer changes := by
  unfold pushAll
  rw [partOf_foldl_other (partOf_pushDelete_other h),
    partOf_foldl_other (partOf_pushUpdate_other h true),
    partOf_foldl_other (partOf_pushUpdate_other h false), partOf_foldl_other]
  simp [pushInsert, partOf_append, partOf_single_other h]

end Others

theorem partOf_deserialize (changes : List Change) (entry : LogEntry) :
    partOf isContainer (deserialize changes entry) =
      entry.push isContainer (partOf isContainer changes) := by
  unfold deserialize
  cases isContainer with
  | false =>
    rw [partOf_pushAll_self, partOf_pushAll_other (by decide)]
    rfl
  | true =>
    rw [partOf_pushAll_other (by decide), partOf_pushAll_self]
    rfl

def foldAll (history : History) : List Change :=
  history.foldl (fun changes commit => deserialize changes commit.2) []

def partFold (isContainer : Bool) (history : History) : List Change :=
  history.foldl (fun changes commit => commit.2.push isContainer changes) []

theorem partOf_foldAll (history : History) :
    partOf isContainer (foldAll history) = partFold isContainer history := by
  induction history using List.reverseRecOn with
  | nil => rfl
  | append_singleton history commit ih =>
    rw [foldAll, partFold, foldl_append, foldl_append]
    simp only [foldl_cons, foldl_nil]
    rw [partOf_deserialize]
    exact congrArg _ ih

theorem partFold_append_nil {history history' : History} (h : partFold isContainer history = []) :
    partFold isContainer (history ++ history') = partFold isContainer history' := by
  unfold partFold at h ⊢
  rw [foldl_append, h]

theorem partFold_append_unchanged {history history' : History}
    (h : ∀ commit ∈ history', commit.2.hasChanges isContainer = false) :
    partFold isContainer (history ++ history') = partFold isContainer history := by
  unfold partFold
  rw [foldl_append]
  induction history' with
  | nil => rfl
  | cons commit history' ih =>
    rw [foldl_cons, LogEntry.push_of_not_hasChanges (h commit mem_cons_self)]
    exact ih fun commit' hmem => h commit' (mem_cons_of_mem _ hmem)

end Parts

/-! ## Where a list starts and ends -/

/-- In the log of share notifications a commit is itself a new item. -/
def notificationEntry (changeId : Nat) : LogEntry := ⟨[], [], [], [], [changeId], [], []⟩

def effect (isShareLog : Bool) (commit : Nat × LogEntry) : Nat × LogEntry :=
  (commit.1, if isShareLog then notificationEntry commit.1 else commit.2)

def effects (isShareLog : Bool) (history : History) : History := history.map (effect isShareLog)

def Changes.partChangeId (changelog : Changes) (isContainer : Bool) : Option Nat :=
  if isContainer then changelog.containerChangeId else changelog.itemChangeId

def Changes.changeId (changelog : Changes) (isContainer : Bool) : Nat :=
  (changelog.partChangeId isContainer).getD changelog.toChangeId

/-- The outcome of a scan that visits these commits. -/
structure Scanned (isShareLog : Bool) (base changelog : Changes) (visited : History) : Prop where
  changes : changelog.changes = foldAll (effects isShareLog visited)
  isTruncated : changelog.isTruncated = base.isTruncated
  start : visited ≠ [] → ∃ before first after, visited = before ++ first :: after ∧
    first.1 = changelog.fromChangeId ∧ foldAll (effects isShareLog before) = []
  stop : visited ≠ [] → ∃ before last, visited = before ++ [last] ∧ last.1 = changelog.toChangeId
  parts : ∀ isContainer changeId, changelog.partChangeId isContainer = some changeId →
    isShareLog = false ∧ ∃ before last after, visited = before ++ last :: after ∧
      last.1 = changeId ∧ ∀ commit ∈ after, commit.2.hasChanges isContainer = false
  silent : isShareLog = false → ∀ isContainer, changelog.partChangeId isContainer = none →
    ∀ commit ∈ visited, commit.2.hasChanges isContainer = false
  empty : visited = [] → changelog = base

def logged (commit : Nat × LogEntry) : Nat × Option LogEntry := (commit.1, some commit.2)

section Scans

variable {isShareLog : Bool} {query : Query}

theorem foldAll_append_singleton (history : History) (commit : Nat × LogEntry) :
    foldAll (history ++ [commit]) = deserialize (foldAll history) commit.2 := by
  rw [foldAll, foldl_append]
  rfl

theorem effects_append (history history' : History) : effects isShareLog (history ++ history') =
      effects isShareLog history ++ effects isShareLog history' :=
  List.map_append

theorem effects_false (history : History) : effects false history = history :=
  map_id history

theorem visit_commit {changelog : Changes} {commit : Nat × LogEntry}
    (h : query.isInclusive = true ∨ commit.1 ≠ query.fromChangeId) :
    (changelog.visit isShareLog query (logged commit)).changes =
        deserialize changelog.changes (effect isShareLog commit).2 ∧
      (changelog.visit isShareLog query (logged commit)).isTruncated = changelog.isTruncated ∧
      (changelog.visit isShareLog query (logged commit)).fromChangeId =
        (if changelog.changes = [] then commit.1 else changelog.fromChangeId) ∧
      (changelog.visit isShareLog query (logged commit)).toChangeId = commit.1 ∧
      ∀ isContainer, (changelog.visit isShareLog query (logged commit)).partChangeId isContainer =
        if isShareLog = false ∧ commit.2.hasChanges isContainer = true then some commit.1
        else changelog.partChangeId isContainer := by
  unfold Changes.visit logged
  rw [if_pos h]
  cases isShareLog with
  | true =>
    refine ⟨rfl, rfl, rfl, rfl, fun isContainer => ?_⟩
    simp [Changes.partChangeId]
  | false =>
    refine ⟨rfl, rfl, rfl, rfl, fun isContainer => ?_⟩
    cases isContainer with
    | true =>
      simp [Changes.partChangeId, LogEntry.hasChanges]
    | false =>
      simp [Changes.partChangeId, LogEntry.hasChanges]

theorem scanned_foldl {base : Changes} (hchanges : base.changes = [])
    (hparts : ∀ isContainer, base.partChangeId isContainer = none) (visited : History)
    (h : ∀ commit ∈ visited, query.isInclusive = true ∨ commit.1 ≠ query.fromChangeId) :
    Scanned isShareLog base ((visited.map logged).foldl (Changes.visit isShareLog query) base)
      visited := by
  induction visited using List.reverseRecOn with
  | nil =>
    refine ⟨hchanges, rfl, fun hne => absurd rfl hne, fun hne => absurd rfl hne, ?_,
      fun _ _ _ commit hmem => (by cases hmem), fun _ => rfl⟩
    intro isContainer changeId hpart
    cases (hparts isContainer).symm.trans hpart
  | append_singleton visited commit ih =>
    have ih := ih fun commit' hmem => h commit' (mem_append_left _ hmem)
    have hvisit := h commit (mem_append_right _ mem_cons_self)
    rw [List.map_append, foldl_append]
    simp only [map_cons, map_nil, foldl_cons, foldl_nil]
    generalize hlog : (visited.map logged).foldl (Changes.visit isShareLog query) base = changelog
      at ih ⊢
    obtain ⟨hlist, htruncated, hfrom, hto, hpart⟩ :=
      @visit_commit isShareLog query changelog commit hvisit
    refine ⟨?_, htruncated.trans ih.isTruncated, fun _ => ?_, fun _ => ?_, ?_, ?_, fun hnil => ?_⟩
    · rw [hlist, ih.changes, effects_append]
      exact (foldAll_append_singleton _ _).symm
    · rw [hfrom]
      by_cases hnil : changelog.changes = []
      · rw [if_pos hnil]
        exact ⟨visited, commit, [], rfl, rfl, ih.changes.symm.trans hnil⟩
      · rw [if_neg hnil]
        have hne : visited ≠ [] := by
          rintro rfl
          exact hnil ih.changes
        obtain ⟨before, first, after, hsplit, hfirst, hbefore⟩ := ih.start hne
        exact ⟨before, first, after ++ [commit], by rw [hsplit, append_assoc]; rfl, hfirst, hbefore⟩
    · exact ⟨visited, commit, rfl, hto.symm⟩
    · intro isContainer changeId hid
      rw [hpart] at hid
      by_cases hchanged : isShareLog = false ∧ commit.2.hasChanges isContainer = true
      · rw [if_pos hchanged] at hid
        cases hid
        exact ⟨hchanged.1, visited, commit, [], rfl, rfl, fun _ h => by cases h⟩
      · rw [if_neg hchanged] at hid
        obtain ⟨hshare, before, last, after, hsplit, hlast, hafter⟩ := ih.parts _ _ hid
        refine ⟨hshare, before, last, after ++ [commit], by rw [hsplit, append_assoc]; rfl,
          hlast, fun commit' hmem => ?_⟩
        rcases mem_append.mp hmem with hmem | hmem
        · exact hafter commit' hmem
        · obtain rfl := mem_singleton.mp hmem
          exact Bool.eq_false_iff.mpr fun htrue => hchanged ⟨hshare, htrue⟩
    · intro hshare isContainer hnone commit' hmem
      rw [hpart] at hnone
      by_cases hchanged : isShareLog = false ∧ commit.2.hasChanges isContainer = true
      · rw [if_pos hchanged] at hnone
        cases hnone
      · rw [if_neg hchanged] at hnone
        rcases mem_append.mp hmem with hmem | hmem
        · exact ih.silent hshare isContainer hnone commit' hmem
        · obtain rfl := mem_singleton.mp hmem
          exact Bool.eq_false_iff.mpr fun htrue => hchanged ⟨hshare, htrue⟩
    · exact absurd hnil (by simp)

theorem Scanned.changeId {base changelog : Changes} {visited : History}
    (h : Scanned isShareLog base changelog visited) (isContainer : Bool) (hne : visited ≠ []) :
    ∃ before last after, visited = before ++ last :: after ∧ last.1 = changelog.changeId isContainer ∧
      ∀ commit ∈ after, (effect isShareLog commit).2.hasChanges isContainer = false := by
  unfold Changes.changeId
  cases hpart : changelog.partChangeId isContainer with
  | none =>
    obtain ⟨before, last, hsplit, hlast⟩ := h.stop hne
    exact ⟨before, last, [], hsplit, hlast, fun _ h => by cases h⟩
  | some changeId =>
    obtain ⟨rfl, before, last, after, hsplit, hlast, hafter⟩ := h.parts _ _ hpart
    exact ⟨before, last, after, hsplit, hlast, hafter⟩

end Scans

/-! ## Logs that have been cut -/

/-- `delete_changes`, for one collection: of a log with more than `maxEntries` entries so many
are kept, behind an empty one. -/
def Log.deleteChanges (log : Log) (maxEntries : Nat) : Log :=
  if maxEntries < log.length then
    match log.drop (log.length - (maxEntries + 1)) with
    | [] => log
    | first :: kept => (first.1, none) :: kept
  else log

def Ascending (history : History) : Prop := history.Pairwise fun a b => a.1 < b.1

def after (changeId : Nat) (history : History) : History :=
  history.filter fun commit => decide (changeId < commit.1)

def upTo (changeId : Nat) (history : History) : History :=
  history.filter fun commit => decide (commit.1 ≤ changeId)

def within (fromChangeId toChangeId : Nat) (history : History) : History :=
  history.filter fun commit => decide (fromChangeId ≤ commit.1 ∧ commit.1 ≤ toChangeId)

def recorded : Option Nat → History → Log
  | none, history => history.map logged
  | some cut, history => (cut, none) :: (after cut history).map logged

variable {commit : Nat × LogEntry} {changeId fromChangeId toChangeId : Nat} {before rest : History}
  {cut : Option Nat}

section Cut

variable {history : History} {isShareLog : Bool}

theorem Ascending.filter (h : Ascending history) (p : Nat × LogEntry → Bool) :
    Ascending (history.filter p) :=
  List.Pairwise.filter p h

theorem ascending_append (h : Ascending history) (hnew : ∀ earlier ∈ history, earlier.1 < commit.1) :
    Ascending (history ++ [commit]) := by
  refine pairwise_append.mpr ⟨h, pairwise_singleton _ _, ?_⟩
  intro earlier hmem new hsingle
  rw [mem_singleton.mp hsingle]
  exact hnew earlier hmem

theorem mem_after : commit ∈ after changeId history ↔ commit ∈ history ∧ changeId < commit.1 := by
  simp [after]

theorem mem_upTo : commit ∈ upTo changeId history ↔ commit ∈ history ∧ commit.1 ≤ changeId := by
  simp [upTo]

theorem after_after {changeId' : Nat} (h : changeId ≤ changeId') :
    after changeId' (after changeId history) = after changeId' history := by
  rw [after, after, filter_filter]
  refine filter_congr fun commit _ => ?_
  simp only [Bool.and_eq_decide, decide_eq_true_eq]
  exact decide_eq_decide.mpr ⟨fun h' => h'.1, fun h' => ⟨h', by omega⟩⟩

theorem after_of_split (h : Ascending (before ++ commit :: rest)) :
    after commit.1 (before ++ commit :: rest) = rest := by
  obtain ⟨-, hrest, hbefore⟩ := pairwise_append.mp h
  rw [after, filter_append, filter_eq_nil_iff.mpr, nil_append,
    filter_cons_of_neg (by simp), filter_eq_self.mpr]
  · intro commit' hmem
    exact decide_eq_true ((pairwise_cons.mp hrest).1 commit' hmem)
  · intro commit' hmem
    have := hbefore commit' hmem commit mem_cons_self
    simp only [decide_eq_true_eq]
    omega

theorem recorded_deleteChanges (h : Ascending history)
    (hcut : ∀ k, cut = some k → k ∈ history.map Prod.fst) (maxEntries : Nat) :
    ∃ cut', (recorded cut history).deleteChanges maxEntries = recorded cut' history ∧
      ∀ k, cut' = some k → k ∈ history.map Prod.fst := by
  -- the entries from one of them on are what a cut at this entry leaves
  have hdrop : ∀ (kept : History) (n : Nat), Ascending kept → kept ⊆ history →
      (∀ commit ∈ kept, after commit.1 kept = after commit.1 history) → n < kept.length →
      ∃ first rest, (kept.map logged).drop n = first :: rest ∧
        (first.1, none) :: rest = recorded (some first.1) history ∧
        first.1 ∈ history.map Prod.fst := by
    intro kept n hascending hsub hafter hn
    cases hrest : kept.drop n with
    | nil =>
      have := drop_eq_nil_iff.mp hrest
      omega
    | cons commit rest =>
      have hsplit : kept = kept.take n ++ commit :: rest := by
        rw [← hrest, take_append_drop]
      have hmem : commit ∈ kept := by
        rw [hsplit]
        exact mem_append_right _ mem_cons_self
      have hkept : after commit.1 kept = rest := by
        rw [hsplit] at hascending ⊢
        exact after_of_split hascending
      refine ⟨logged commit, rest.map logged, ?_, ?_, mem_map_of_mem (hsub hmem)⟩
      · simp [← map_drop, hrest]
      · rw [recorded, logged, ← hafter commit hmem, hkept]
  unfold Log.deleteChanges
  split
  · rename_i hlength
    cases cut with
    | none =>
      rw [recorded, length_map] at hlength ⊢
      obtain ⟨first, rest, hfirst, hrecorded, hmem⟩ := hdrop history
        (history.length - (maxEntries + 1)) h (List.Subset.refl _) (fun _ _ => rfl) (by omega)
      rw [hfirst]
      refine ⟨some first.1, hrecorded, fun k hk => ?_⟩
      cases hk
      exact hmem
    | some k =>
      rw [recorded] at hlength ⊢
      rw [length_cons, length_map] at hlength ⊢
      cases hn : (after k history).length + 1 - (maxEntries + 1) with
      | zero => exact ⟨some k, rfl, hcut⟩
      | succ n =>
        obtain ⟨first, rest, hfirst, hrecorded, hmem⟩ := hdrop (after k history) n
          (h.filter _) (filter_subset_self _) (fun commit hmem => after_after
            (Nat.le_of_lt (mem_after.mp hmem).2)) (by omega)
        rw [drop_succ_cons, hfirst]
        refine ⟨some first.1, hrecorded, fun k hk => ?_⟩
        cases hk
        exact hmem
  · exact ⟨cut, rfl, hcut⟩

theorem visit_isTruncated {query : Query} {changelog : Changes} (h : changelog.isTruncated = true)
    (item : Nat × Option LogEntry) : (changelog.visit isShareLog query item).isTruncated = true := by
  unfold Changes.visit
  split
  · split
    · rfl
    · dsimp only
      split
      · exact h
      · exact h
  · exact h

theorem changes_isTruncated {query : Query} {cut : Nat} (hscans : query.scans cut = true)
    (hvisit : query.isInclusive = true ∨ cut ≠ query.fromChangeId) :
    ((recorded (some cut) history).changes isShareLog query).isTruncated = true := by
  have hfold : ∀ (items : Log) (changelog : Changes), changelog.isTruncated = true →
      (items.foldl (Changes.visit isShareLog query) changelog).isTruncated = true := by
    intro items
    induction items with
    | nil => exact fun changelog h => h
    | cons item items ih => exact fun changelog h => ih _ (visit_isTruncated h item)
  have hkept : (recorded (some cut) history).filter (fun item => query.scans item.1) =
      (cut, none) :: ((after cut history).map logged).filter fun item => query.scans item.1 := by
    simp [recorded, hscans]
  rw [Log.changes, hkept, foldl_cons]
  refine hfold _ _ ?_
  simp [Changes.visit, hvisit]

theorem filter_logged (p : Nat → Bool) (history : History) :
    (history.map logged).filter (fun item => p item.1) =
      (history.filter fun commit => p commit.1).map logged := by
  rw [filter_map]
  rfl

theorem filter_le_eq (h : Ascending history) (changeId : Nat) :
    (history.filter fun commit => decide (changeId ≤ commit.1)) =
      (history.filter fun commit => decide (commit.1 = changeId)) ++ after changeId history := by
  induction history with
  | nil => rfl
  | cons commit history ih =>
    obtain ⟨hhead, htail⟩ := pairwise_cons.mp h
    have ih := ih htail
    have hnone : changeId ≤ commit.1 →
        (history.filter fun commit => decide (commit.1 = changeId)) = [] := by
      intro hle
      refine filter_eq_nil_iff.mpr fun commit' hmem => ?_
      have := hhead commit' hmem
      simp only [decide_eq_true_eq]
      omega
    simp only [after, filter_cons, decide_eq_true_eq] at ih ⊢
    rcases Nat.lt_trichotomy commit.1 changeId with hlt | heq | hgt
    · rw [if_neg (by omega), if_neg (by omega), if_neg (by omega), ih]
    · rw [if_pos (by omega), if_pos heq, if_neg (by omega), ih]
      rfl
    · rw [if_pos (by omega), if_neg (by omega), if_pos hgt, ih, hnone (by omega)]
      rfl

theorem cut_le_of_since
    (h : ((recorded cut history).changes isShareLog (.since changeId)).isTruncated = false) :
    ∀ k, cut = some k → k ≤ changeId := by
  rintro k rfl
  by_contra hlt
  have hlt := Nat.lt_of_not_le hlt
  have hscans : (Query.since changeId).scans k = true := decide_eq_true (Nat.le_of_lt hlt)
  rw [changes_isTruncated hscans (Or.inr (Nat.ne_of_gt hlt))] at h
  cases h

/-- What a scan from a change id knows when nothing is behind it. -/
structure SinceBase (changeId : Nat) (base : Changes) : Prop where
  changes : base.changes = []
  parts : ∀ isContainer, base.partChangeId isContainer = none
  isTruncated : base.isTruncated = false
  stop : base.toChangeId = base.fromChangeId
  start : base.fromChangeId = changeId ∨ base.fromChangeId = 0

theorem sinceBase_foldl {changeId : Nat} (items : Log) (h : ∀ item ∈ items, item.1 = changeId)
    {base : Changes} (hbase : SinceBase changeId base) :
    SinceBase changeId (items.foldl (Changes.visit isShareLog (.since changeId)) base) := by
  induction items generalizing base with
  | nil => exact hbase
  | cons item items ih =>
    refine ih (fun item' hmem => h item' (mem_cons_of_mem _ hmem)) ?_
    have hid := h item mem_cons_self
    rw [Changes.visit, if_neg (by simp [Query.isInclusive, Query.fromChangeId, hid])]
    exact ⟨hbase.changes, hbase.parts, hbase.isTruncated, rfl, Or.inl hid⟩

theorem sinceBase_empty (changeId : Nat) : SinceBase changeId Changes.empty :=
  ⟨rfl, fun isContainer => by cases isContainer <;> rfl, rfl, rfl, Or.inr rfl⟩

theorem changes_since (h : Ascending history) (hcut : ∀ k, cut = some k → k ≤ changeId) :
    ∃ base, SinceBase changeId base ∧
      Scanned isShareLog base ((recorded cut history).changes isShareLog (.since changeId))
        (after changeId history) := by
  have hvisit : ∀ commit ∈ after changeId history, (Query.since changeId).isInclusive = true ∨
      commit.1 ≠ (Query.since changeId).fromChangeId :=
    fun commit hmem => Or.inr (Nat.ne_of_gt (mem_after.mp hmem).2)
  have hat : ∀ kept : History, Ascending kept → after changeId kept = after changeId history →
      ((kept.map logged).filter fun item => (Query.since changeId).scans item.1) =
        ((kept.filter fun commit => decide (commit.1 = changeId)).map logged) ++
          (after changeId history).map logged := by
    intro kept hkept hafter
    rw [filter_logged, ← List.map_append, ← hafter]
    exact congrArg _ (filter_le_eq hkept changeId)
  have hsame : ∀ kept : History, ∀ item ∈
      (kept.filter fun commit => decide (commit.1 = changeId)).map logged, item.1 = changeId := by
    intro kept item hmem
    obtain ⟨commit, hcommit, rfl⟩ := mem_map.mp hmem
    have hid := (mem_filter.mp hcommit).2
    exact of_decide_eq_true hid
  cases cut with
  | none =>
    rw [Log.changes, recorded, hat history h rfl, foldl_append]
    have hbase := @sinceBase_foldl isShareLog changeId _ (hsame history) _ (sinceBase_empty changeId)
    exact ⟨_, hbase, scanned_foldl hbase.changes hbase.parts _ hvisit⟩
  | some k =>
    have hle := hcut k rfl
    rw [Log.changes, recorded, filter_cons]
    rw [hat (after k history) (h.filter _) (after_after hle)]
    split
    · rename_i hscans
      have hk : k = changeId := Nat.le_antisymm hle (of_decide_eq_true hscans)
      rw [← cons_append, foldl_append]
      have hids : ∀ item ∈ (k, none) ::
          ((after k history).filter fun commit => decide (commit.1 = changeId)).map logged,
          item.1 = changeId :=
        forall_mem_cons.mpr ⟨hk, hsame (after k history)⟩
      have hbase := @sinceBase_foldl isShareLog changeId _ hids _ (sinceBase_empty changeId)
      exact ⟨_, hbase, scanned_foldl hbase.changes hbase.parts _ hvisit⟩
    · rw [foldl_append]
      have hbase := @sinceBase_foldl isShareLog changeId _ (hsame (after k history)) _
        (sinceBase_empty changeId)
      exact ⟨_, hbase, scanned_foldl hbase.changes hbase.parts _ hvisit⟩

theorem changes_all (history : History) :
    Scanned isShareLog .empty ((recorded none history).changes isShareLog .all) history := by
  have hall : ((history.map logged).filter fun item => Query.all.scans item.1) =
      history.map logged :=
    filter_eq_self.mpr fun item _ => by simp [Query.scans, Query.fromChangeId]
  rw [Log.changes, recorded, hall]
  exact scanned_foldl rfl (sinceBase_empty 0).parts _ fun _ _ => Or.inl rfl

theorem changes_within (hcut : ∀ k, cut = some k → k < fromChangeId) : Scanned isShareLog .empty
      ((recorded cut history).changes isShareLog (.rangeInclusive fromChangeId toChangeId))
      (within fromChangeId toChangeId history) := by
  have hscan : ((recorded cut history).filter fun item =>
      (Query.rangeInclusive fromChangeId toChangeId).scans item.1) =
        (within fromChangeId toChangeId history).map logged := by
    cases cut with
    | none => exact filter_logged _ history
    | some k =>
      have hlt := hcut k rfl
      rw [recorded, filter_cons_of_neg, filter_logged, after, filter_filter]
      · refine congrArg _ (filter_congr fun commit _ => ?_)
        simp only [Query.scans, Bool.and_eq_decide, decide_eq_true_eq]
        exact decide_eq_decide.mpr ⟨fun h => h.1, fun h => ⟨h, by omega⟩⟩
      · simp only [Query.scans, decide_eq_true_eq]
        omega
  rw [Log.changes, hscan]
  exact scanned_foldl rfl (sinceBase_empty 0).parts _ fun _ _ => Or.inl rfl

theorem changes_within_lost {cut : Nat} (hcut : toChangeId < cut) :
    (recorded (some cut) history).changes isShareLog (.rangeInclusive fromChangeId toChangeId) =
      .empty := by
  rw [Log.changes, recorded, filter_cons_of_neg, filter_logged, after, filter_filter,
    filter_eq_nil_iff.mpr]
  · rfl
  · intro commit _
    simp only [Query.scans, Bool.and_eq_decide, decide_eq_true_eq]
    omega
  · simp only [Query.scans, decide_eq_true_eq]
    omega

/-! ## Reading a list again -/

theorem upTo_of_split (h : Ascending (before ++ commit :: rest)) :
    upTo commit.1 (before ++ commit :: rest) = before ++ [commit] := by
  obtain ⟨-, hrest, hbefore⟩ := pairwise_append.mp h
  rw [upTo, filter_append, filter_eq_self.mpr, filter_cons_of_pos (by simp), filter_eq_nil_iff.mpr]
  · intro commit' hmem
    have := (pairwise_cons.mp hrest).1 commit' hmem
    simp only [decide_eq_true_eq]
    omega
  · intro commit' hmem
    exact decide_eq_true (Nat.le_of_lt (hbefore commit' hmem commit mem_cons_self))

theorem filter_append_filter_not (h : Ascending history) (p : Nat → Bool)
    (hdown : ∀ a b, a ≤ b → p b = true → p a = true) :
    (history.filter fun commit => p commit.1) ++ (history.filter fun commit => !p commit.1) =
      history := by
  induction history with
  | nil => rfl
  | cons commit history ih =>
    obtain ⟨hhead, htail⟩ := pairwise_cons.mp h
    have ih := ih htail
    by_cases hp : p commit.1 = true
    · rw [filter_cons, if_pos hp, filter_cons_of_neg (by simp [hp]), cons_append, ih]
    · have hnone : (history.filter fun commit => p commit.1) = [] := by
        refine filter_eq_nil_iff.mpr fun commit' hmem hp' => hp ?_
        exact hdown _ _ (Nat.le_of_lt (hhead commit' hmem)) hp'
      rw [hnone, nil_append] at ih
      rw [filter_cons, if_neg hp, filter_cons_of_pos (by simp [hp]), hnone, ih, nil_append]

theorem upTo_append_after (h : Ascending history) (changeId : Nat) :
    upTo changeId history ++ after changeId history = history := by
  have hsplit := filter_append_filter_not h (fun id => decide (id ≤ changeId))
    fun a b hle hb => decide_eq_true (Nat.le_trans hle (of_decide_eq_true hb))
  have hafter : after changeId history =
      history.filter fun commit => !decide (commit.1 ≤ changeId) :=
    filter_congr fun commit _ => by simp [← decide_not]
  rw [hafter]
  exact hsplit

theorem upTo_eq_append_within (h : Ascending history) :
    ∃ left, upTo toChangeId history = left ++ within fromChangeId toChangeId history := by
  have hsplit := filter_append_filter_not (h.filter fun commit => decide (commit.1 ≤ toChangeId))
    (fun id => decide (id < fromChangeId))
    fun a b hle hb => decide_eq_true (Nat.lt_of_le_of_lt hle (of_decide_eq_true hb))
  have hwithin : within fromChangeId toChangeId history =
      (upTo toChangeId history).filter fun commit => !decide (commit.1 < fromChangeId) := by
    rw [upTo, filter_filter]
    refine filter_congr fun commit _ => ?_
    by_cases hfrom : fromChangeId ≤ commit.1
    · simp [hfrom]
    · simp [hfrom]
  rw [hwithin]
  exact ⟨_, hsplit.symm⟩

theorem upTo_append_new (h : changeId < commit.1) :
    upTo changeId (history ++ [commit]) = upTo changeId history := by
  rw [upTo, filter_append, filter_cons_of_neg, filter_nil, List.append_nil]
  · rfl
  · simpa using h

theorem within_append_new (h : toChangeId < commit.1) :
    within fromChangeId toChangeId (history ++ [commit]) =
      within fromChangeId toChangeId history := by
  rw [within, filter_append, filter_cons_of_neg, filter_nil, List.append_nil]
  · rfl
  · simp only [decide_eq_true_eq]
    omega

theorem after_eq_append (h : Ascending history) {changeId' : Nat} (hle : changeId ≤ changeId') :
    after changeId history = after changeId (upTo changeId' history) ++ after changeId' history := by
  have hsame : after changeId (after changeId' history) = after changeId' history := by
    refine filter_eq_self.mpr fun commit hmem => ?_
    exact decide_eq_true (Nat.lt_of_le_of_lt hle (mem_after.mp hmem).2)
  have hsplit := congrArg (after changeId) (upTo_append_after h changeId')
  rw [after, filter_append] at hsplit
  rw [← hsplit]
  exact congrArg _ hsame

def Known (history : History) (changeId : Nat) : Prop :=
  changeId = 0 ∨ changeId ∈ history.map Prod.fst

theorem Known.append (h : Known history changeId) (history' : History) :
    Known (history ++ history') changeId := by
  rw [Known, List.map_append, mem_append]
  exact h.imp_right Or.inl

theorem Known.lt {newId : Nat} (h : Known history changeId) (hpos : 0 < newId)
    (hnew : ∀ commit ∈ history, commit.1 < newId) : changeId < newId := by
  rcases h with rfl | hmem
  · exact hpos
  · obtain ⟨commit, hcommit, rfl⟩ := mem_map.mp hmem
    exact hnew commit hcommit

theorem recorded_append (hcut : ∀ k, cut = some k → k < commit.1) :
    recorded cut (history ++ [commit]) = recorded cut history ++ [logged commit] := by
  cases cut with
  | none => simp [recorded]
  | some k =>
    have hlast : after k (history ++ [commit]) = after k history ++ [commit] := by
      rw [after, filter_append, filter_cons_of_pos (by simpa using hcut k rfl)]
      rfl
    rw [recorded, hlast, List.map_append]
    rfl

theorem recorded_lastChangeId (h : Ascending history)
    (hcut : ∀ k, cut = some k → k ∈ history.map Prod.fst) :
    match (recorded cut history).lastChangeId with
    | none => history = []
    | some changeId => changeId ∈ history.map Prod.fst ∧ after changeId history = [] := by
  have hlast : ∀ (kept : History) (commit : Nat × LogEntry), Ascending kept →
      kept.getLast? = some commit → after commit.1 kept = [] := by
    intro kept commit hkept hcommit
    obtain ⟨front, rfl⟩ := List.getLast?_eq_some_iff.mp hcommit
    exact after_of_split hkept
  rw [Log.lastChangeId]
  cases cut with
  | none =>
    rw [recorded, List.getLast?_map]
    cases hcommit : history.getLast? with
    | none => exact List.getLast?_eq_none_iff.mp hcommit
    | some commit =>
      exact ⟨mem_map_of_mem (List.mem_of_getLast? hcommit), hlast _ _ h hcommit⟩
  | some k =>
    rw [recorded, List.getLast?_cons, List.getLast?_map]
    cases hcommit : (after k history).getLast? with
    | none => exact ⟨hcut k rfl, List.getLast?_eq_none_iff.mp hcommit⟩
    | some commit =>
      have hmem := mem_after.mp (List.mem_of_getLast? hcommit)
      refine ⟨mem_map_of_mem hmem.1, ?_⟩
      have hnone := hlast (after k history) commit (h.filter _) hcommit
      rw [after_after (Nat.le_of_lt hmem.2)] at hnone
      exact hnone

theorem within_of_split {middle : History} {first last : Nat × LogEntry}
    (h : Ascending (before ++ middle ++ rest)) (hfirst : middle.head? = some first)
    (hlast : middle.getLast? = some last) :
    within first.1 last.1 (before ++ middle ++ rest) = middle := by
  obtain ⟨hleft, -, hrest⟩ := pairwise_append.mp h
  obtain ⟨-, hmiddle, hbefore⟩ := pairwise_append.mp hleft
  have hfirstMem : first ∈ middle := List.mem_of_head? hfirst
  have hlastMem : last ∈ middle := List.mem_of_getLast? hlast
  rw [within, filter_append, filter_append, filter_eq_nil_iff.mpr,
    filter_eq_self.mpr, filter_eq_nil_iff.mpr, nil_append, List.append_nil]
  · intro commit hmem
    have := hrest last (mem_append_right _ hlastMem) commit hmem
    simp only [decide_eq_true_eq]
    omega
  · intro commit hmem
    have hge : first.1 ≤ commit.1 := by
      obtain ⟨tail, rfl⟩ := List.head?_eq_some_iff.mp hfirst
      rcases mem_cons.mp hmem with rfl | hmem
      · exact Nat.le_refl _
      · exact Nat.le_of_lt ((pairwise_cons.mp hmiddle).1 commit hmem)
    have hle : commit.1 ≤ last.1 := by
      obtain ⟨front, rfl⟩ := List.getLast?_eq_some_iff.mp hlast
      rcases mem_append.mp hmem with hmem | hmem
      · exact Nat.le_of_lt ((pairwise_append.mp hmiddle).2.2 commit hmem last (mem_singleton.mpr rfl))
      · obtain rfl := mem_singleton.mp hmem
        exact Nat.le_refl _
    exact decide_eq_true ⟨hge, hle⟩
  · intro commit hmem
    have := hbefore commit hmem first hfirstMem
    simp only [decide_eq_true_eq]
    omega

/-- The end of the list of a part: what is scanned behind it does not belong to the part. -/
theorem Scanned.position {base changelog : Changes} {left visited right : History}
    (h : Scanned isShareLog base changelog visited) (isContainer : Bool)
    (hascending : Ascending (left ++ visited ++ right)) (hne : visited ≠ []) :
    ∃ before rest, visited = before ++ rest ∧
      (∀ commit ∈ rest, (effect isShareLog commit).2.hasChanges isContainer = false) ∧
      upTo (changelog.changeId isContainer) (left ++ visited ++ right) = left ++ before ∧
      ∃ commit ∈ visited, commit.1 = changelog.changeId isContainer := by
  obtain ⟨before, last, rest, rfl, hlast, hrest⟩ := h.changeId isContainer hne
  refine ⟨before ++ [last], rest, by simp, hrest, ?_, last, mem_append_right _ mem_cons_self, hlast⟩
  have hsplit : left ++ (before ++ last :: rest) ++ right =
      (left ++ before) ++ last :: (rest ++ right) := by simp
  rw [hsplit] at hascending ⊢
  rw [← hlast, upTo_of_split hascending, append_assoc]

theorem effects_hasChanges {history : History} {isContainer : Bool}
    (h : ∀ commit ∈ history, (effect isShareLog commit).2.hasChanges isContainer = false) :
    ∀ commit ∈ effects isShareLog history, commit.2.hasChanges isContainer = false := by
  intro commit hmem
  obtain ⟨commit, hcommit, rfl⟩ := mem_map.mp hmem
  exact h commit hcommit

theorem Scanned.reread {base changelog : Changes} {left visited right : History}
    (h : Scanned isShareLog base changelog visited) (isContainer : Bool)
    (hascending : Ascending (left ++ visited ++ right))
    (hne : partFold isContainer (effects isShareLog visited) ≠ []) :
    changelog.fromChangeId ≤ changelog.changeId isContainer ∧
      partFold isContainer (effects isShareLog (within changelog.fromChangeId
        (changelog.changeId isContainer) (left ++ visited ++ right))) =
        partFold isContainer (effects isShareLog visited) := by
  have hvisited : visited ≠ [] := by
    rintro rfl
    exact hne rfl
  obtain ⟨before, first, after, hstart, hfirst, hbefore⟩ := h.start hvisited
  obtain ⟨before', last, after', hstop, hlast, hafter⟩ := h.changeId isContainer hvisited
  have hnil : partFold isContainer (effects isShareLog before) = [] := by
    rw [← partOf_foldAll, hbefore]
    rfl
  -- the last change cannot stand before the first, or the list would be empty
  have hmiddle : ∃ middle, visited = before ++ middle ++ after' ∧ middle.head? = some first ∧
      middle.getLast? = some last := by
    rcases append_eq_append_iff.mp (hstart.symm.trans hstop) with
      ⟨between, hbetween, hrest⟩ | ⟨between, hbetween, hrest⟩
    · refine ⟨between ++ [last], by rw [hstop, hbetween]; simp, ?_, by simp⟩
      cases between with
      | nil =>
        cases hrest
        rfl
      | cons commit between =>
        cases hrest
        rfl
    · cases between with
      | nil =>
        cases hrest
        exact ⟨[first], by rw [hstart]; simp, rfl, rfl⟩
      | cons commit between =>
        exfalso
        cases hrest
        refine hne ?_
        rw [hstart, effects_append, partFold_append_nil hnil,
          ← nil_append (effects isShareLog (first :: after)), partFold_append_unchanged]
        · rfl
        · exact effects_hasChanges fun commit' hmem =>
            hafter commit' (mem_append_right _ hmem)
  obtain ⟨middle, hsplit, hhead, htail⟩ := hmiddle
  have hwhole : left ++ visited ++ right = (left ++ before) ++ middle ++ (after' ++ right) := by
    rw [hsplit]
    simp
  refine ⟨?_, ?_⟩
  · rw [← hfirst, ← hlast]
    rw [hwhole] at hascending
    have hmem : last ∈ within first.1 last.1 ((left ++ before) ++ middle ++ (after' ++ right)) := by
      rw [within_of_split hascending hhead htail]
      exact List.mem_of_getLast? htail
    exact (of_decide_eq_true (mem_filter.mp hmem).2).1
  · rw [← hfirst, ← hlast, hwhole, within_of_split (by rw [← hwhole]; exact hascending) hhead htail,
      hsplit, effects_append, effects_append, partFold_append_unchanged (effects_hasChanges hafter),
      partFold_append_nil hnil]

end Cut

end Bearmail.Sync
