import Bearmail.Sync.Scan

/-!
# The objects behind a change log

The objects that exist after some commits, when each was last changed, and what the list of
changes of further commits says about them: `fold_means`.

The ids of documents are taken from a counter, so a commit inserts ids that no commit before it
has named (`Fresh`).
-/

namespace Bearmail.Sync

open List

section Objects

variable (isContainer : Bool) (id : Nat)

def LogEntry.leaves (entry : LogEntry) (present : Bool) : Bool :=
  if id ∈ entry.deletes isContainer then false
  else decide (id ∈ entry.inserts isContainer) || present

def LogEntry.touches (entry : LogEntry) : Bool :=
  decide (id ∈ entry.inserts isContainer ∨ id ∈ entry.updates isContainer ∨
    id ∈ entry.propertyChanges isContainer)

def LogEntry.mentions (entry : LogEntry) : Prop :=
  entry.touches isContainer id = true ∨ id ∈ entry.deletes isContainer

def existing (history : History) : Bool :=
  history.foldl (fun present commit => commit.2.leaves isContainer id present) false

/-- The last commit that changed the content of an object. -/
def lastChange (history : History) : Nat :=
  history.foldl (fun last commit => if commit.2.touches isContainer id then commit.1 else last) 0

def Mentioned (history : History) : Prop := ∃ commit ∈ history, commit.2.mentions isContainer id

def Fresh (history : History) : Prop :=
  history.Pairwise fun a b => ∀ id ∈ b.2.inserts isContainer, ¬ a.2.mentions isContainer id

end Objects

variable {entry : LogEntry}

section Snoc

variable {isContainer : Bool} {id : Nat}

theorem existing_append_singleton (history : History) (commit : Nat × LogEntry) :
    existing isContainer id (history ++ [commit]) =
      commit.2.leaves isContainer id (existing isContainer id history) := by
  rw [existing, foldl_append]
  rfl

theorem lastChange_append_singleton (history : History) (commit : Nat × LogEntry) :
    lastChange isContainer id (history ++ [commit]) =
      if commit.2.touches isContainer id then commit.1 else lastChange isContainer id history := by
  rw [lastChange, foldl_append]
  rfl

theorem partFold_append_singleton (history : History) (commit : Nat × LogEntry) :
    partFold isContainer (history ++ [commit]) =
      commit.2.push isContainer (partFold isContainer history) := by
  rw [partFold, foldl_append]
  rfl

theorem LogEntry.mentions_of_hasChanges (h : entry.hasChanges isContainer = false) :
    ¬ entry.mentions isContainer id := by
  intro hmentions
  have hempty : ∀ ids : List Nat, ids.length = 0 → id ∉ ids := by
    intro ids hlength hmem
    rw [length_eq_zero_iff.mp hlength] at hmem
    cases hmem
  cases isContainer with
  | false =>
    have hlengths : entry.itemInserts.length + entry.itemUpdates.length +
        entry.itemDeletes.length = 0 := by
      simpa [LogEntry.hasChanges, LogEntry.hasItemChanges] using h
    rcases hmentions with htouches | hmem
    · rcases of_decide_eq_true htouches with hmem | hmem | hmem
      · exact hempty entry.itemInserts (by omega) hmem
      · exact hempty entry.itemUpdates (by omega) hmem
      · cases hmem
    · exact hempty entry.itemDeletes (by omega) hmem
  | true =>
    have hlengths : entry.containerInserts.length + entry.containerUpdates.length +
        entry.containerPropertyChanges.length + entry.containerDeletes.length = 0 := by
      simpa [LogEntry.hasChanges, LogEntry.hasContainerChanges] using h
    rcases hmentions with htouches | hmem
    · rcases of_decide_eq_true htouches with hmem | hmem | hmem
      · exact hempty entry.containerInserts (by omega) hmem
      · exact hempty entry.containerUpdates (by omega) hmem
      · exact hempty entry.containerPropertyChanges (by omega) hmem
    · exact hempty entry.containerDeletes (by omega) hmem

theorem LogEntry.leaves_of_not_mentions (h : ¬ entry.mentions isContainer id) (present : Bool) :
    entry.leaves isContainer id present = present := by
  have hinserts : id ∉ entry.inserts isContainer := fun hmem => h (Or.inl (by
    exact decide_eq_true (Or.inl hmem)))
  rw [LogEntry.leaves, if_neg fun hmem => h (Or.inr hmem), decide_eq_false hinserts, Bool.false_or]

theorem objects_append_unmentioned {history history' : History}
    (h : ∀ commit ∈ history', ¬ commit.2.mentions isContainer id) :
    existing isContainer id (history ++ history') = existing isContainer id history ∧
      lastChange isContainer id (history ++ history') = lastChange isContainer id history := by
  induction history' using List.reverseRecOn with
  | nil => simp
  | append_singleton history' commit ih =>
    have ih := ih fun commit' hmem => h commit' (mem_append_left _ hmem)
    have hcommit := h commit (mem_append_right _ mem_cons_self)
    rw [← append_assoc, existing_append_singleton, lastChange_append_singleton,
      LogEntry.leaves_of_not_mentions hcommit, if_neg fun htouches => hcommit (Or.inl htouches)]
    exact ih

theorem lastChange_mem (history : History) : lastChange isContainer id history = 0 ∨
      ∃ commit ∈ history, commit.1 = lastChange isContainer id history := by
  induction history using List.reverseRecOn with
  | nil => exact Or.inl rfl
  | append_singleton history commit ih =>
    rw [lastChange_append_singleton]
    split
    · exact Or.inr ⟨commit, mem_append_right _ mem_cons_self, rfl⟩
    · rcases ih with ih | ⟨commit', hmem, heq⟩
      · exact Or.inl ih
      · exact Or.inr ⟨commit', mem_append_left _ hmem, heq⟩

theorem lastChange_le_append {history history' : History} (h : Ascending (history ++ history')) :
    lastChange isContainer id history ≤ lastChange isContainer id (history ++ history') := by
  induction history' using List.reverseRecOn with
  | nil => simp
  | append_singleton history' commit ih =>
    rw [← append_assoc] at h ⊢
    obtain ⟨hleft, -, hlast⟩ := pairwise_append.mp h
    rw [lastChange_append_singleton]
    split
    · rcases @lastChange_mem isContainer id history with hzero | ⟨commit', hmem, heq⟩
      · omega
      · have := hlast commit' (mem_append_left _ hmem) commit (mem_singleton.mpr rfl)
        omega
    · exact ih hleft

end Snoc

/-! ## What a list of changes says -/

/-- The changes of an object since it was, or was not, there: whether it is there now, and what
must be said when its content is not the same. -/
structure Means (before : Bool) (kinds : List ChangeKind) (now touched : Bool) : Prop where
  inserted : .insert ∈ kinds → kinds = [.insert] ∧ before = false
  present : now = true ↔ (before = true ∨ .insert ∈ kinds) ∧ .delete ∉ kinds
  changed : now = true → touched = true → ∃ kind ∈ kinds, kind ≠ .delete

section Kinds

variable {before now touched : Bool} {kinds : List ChangeKind}

theorem Means.insert : Means false (insertKinds []) true true :=
  ⟨fun _ => ⟨rfl, rfl⟩, by simp [insertKinds], fun _ _ => ⟨.insert, by simp [insertKinds]⟩⟩

theorem mem_updateKinds (isProperty : Bool) (kinds : List ChangeKind) :
    (.insert ∈ updateKinds isProperty kinds ↔ .insert ∈ kinds) ∧
      (.delete ∈ updateKinds isProperty kinds ↔ .delete ∈ kinds) ∧
      (∃ kind ∈ updateKinds isProperty kinds, kind ≠ .delete) ∧
      (kinds = [.insert] → updateKinds isProperty kinds = [.insert]) := by
  have hupdate : ∀ kind : ChangeKind, kind ≠ (if isProperty then .updateProperty else .update) →
      kind ∉ ([if isProperty then .updateProperty else .update] : List ChangeKind) := by
    intro kind hne hmem
    exact hne (mem_singleton.mp hmem)
  have hkinds : ChangeKind.insert ≠ (if isProperty then .updateProperty else .update) ∧
      ChangeKind.delete ≠ (if isProperty then .updateProperty else .update) ∧
      (if isProperty then ChangeKind.updateProperty else .update) ≠ .delete := by
    cases isProperty <;> decide
  obtain ⟨hinsert, hdelete, hnew⟩ := hkinds
  refine ⟨?_, ?_, ?_, ?_⟩
  · unfold updateKinds
    split
    · rfl
    · simp [mem_erase_of_ne]
    · simp only [mem_append, hupdate _ hinsert, or_false]
      exact mem_erase_of_ne (by decide)
    · simp [hupdate _ hinsert]
  · unfold updateKinds
    split
    · rfl
    · simp [mem_erase_of_ne]
    · simp only [mem_append, hupdate _ hdelete, or_false]
      exact mem_erase_of_ne (by decide)
    · simp [hupdate _ hdelete]
  · unfold updateKinds
    split
    · rename_i hfound
      exact ⟨.insert, List.mem_of_find?_eq_some hfound, by decide⟩
    · exact ⟨.update, by simp, by decide⟩
    all_goals exact ⟨_, mem_append_right _ (mem_singleton.mpr rfl), hnew⟩
  · rintro rfl
    rfl

theorem Means.update (h : Means before kinds now touched) (isProperty : Bool) :
    Means before (updateKinds isProperty kinds) now true := by
  obtain ⟨hinsert, hdelete, hsaid, hsame⟩ := mem_updateKinds isProperty kinds
  refine ⟨fun hmem => ?_, ?_, fun _ _ => hsaid⟩
  · obtain ⟨heq, hbefore⟩ := h.inserted (hinsert.mp hmem)
    exact ⟨hsame heq, hbefore⟩
  · rw [hinsert, hdelete]
    exact h.present

theorem Means.delete (h : Means before kinds now touched) :
    Means before (deleteKinds kinds) false touched := by
  by_cases hinsert : ChangeKind.insert ∈ kinds
  · obtain ⟨rfl, rfl⟩ := h.inserted hinsert
    have hnil : deleteKinds [.insert] = [] := by decide
    rw [hnil]
    exact ⟨fun hmem => (by cases hmem), by simp, fun hnow => by cases hnow⟩
  · have hmem : ChangeKind.insert ∉ deleteKinds kinds ∧ ChangeKind.delete ∈ deleteKinds kinds := by
      unfold deleteKinds
      split
      · rename_i hfound
        exact absurd (List.mem_of_find?_eq_some hfound) hinsert
      · simp [hinsert, mem_erase_of_ne]
      · simp [hinsert]
    exact ⟨fun h => absurd h hmem.1, by simp [hmem.2], fun hnow => by cases hnow⟩

theorem Means.fold {isContainer : Bool} {id : Nat} (entry : LogEntry)
    (h : Means before kinds now touched)
    (hfresh : id ∈ entry.inserts isContainer → before = false ∧ kinds = []) :
    Means before (entry.fold isContainer id kinds) (entry.leaves isContainer id now)
      (entry.touches isContainer id || touched) := by
  have hinserted : Means before (applyIf (entry.inserts isContainer) id insertKinds kinds)
      (decide (id ∈ entry.inserts isContainer) || now)
      (decide (id ∈ entry.inserts isContainer) || touched) := by
    by_cases hmem : id ∈ entry.inserts isContainer
    · obtain ⟨rfl, rfl⟩ := hfresh hmem
      rw [applyIf, if_pos hmem, decide_eq_true hmem]
      exact Means.insert
    · rw [applyIf, if_neg hmem, decide_eq_false hmem]
      exact h
  have hupdated : ∀ (ids : List Nat) (isProperty : Bool) {kinds : List ChangeKind}
      {now touched : Bool}, Means before kinds now touched →
      Means before (applyIf ids id (updateKinds isProperty) kinds) now
        (decide (id ∈ ids) || touched) := by
    intro ids isProperty kinds now touched h
    by_cases hmem : id ∈ ids
    · rw [applyIf, if_pos hmem, decide_eq_true hmem]
      exact h.update isProperty
    · rw [applyIf, if_neg hmem, decide_eq_false hmem]
      exact h
  have htouched := hupdated (entry.propertyChanges isContainer) true
    (hupdated (entry.updates isContainer) false hinserted)
  have hsame : (entry.touches isContainer id || touched) =
      (decide (id ∈ entry.propertyChanges isContainer) || (decide (id ∈ entry.updates isContainer) ||
          (decide (id ∈ entry.inserts isContainer) || touched))) := by
    rw [LogEntry.touches, Bool.decide_or, Bool.decide_or]
    cases decide (id ∈ entry.inserts isContainer) <;> cases decide (id ∈ entry.updates isContainer)
      <;> cases decide (id ∈ entry.propertyChanges isContainer) <;> rfl
  rw [hsame, LogEntry.fold, LogEntry.leaves]
  by_cases hmem : id ∈ entry.deletes isContainer
  · rw [applyIf, if_pos hmem, if_pos hmem]
    exact htouched.delete
  · rw [applyIf, if_neg hmem, if_neg hmem]
    exact htouched

end Kinds

theorem kindsOf_push {isContainer : Bool} {id : Nat} (h : entry.Distinct) (changes : List Change) :
    kindsOf isContainer id (entry.push isContainer changes) =
      entry.fold isContainer id (kindsOf isContainer id changes) := by
  cases isContainer with
  | false =>
    exact kindsOf_pushAll_self h.itemInserts h.itemUpdates nodup_nil h.itemDeletes changes
  | true =>
    exact kindsOf_pushAll_self h.containerInserts h.containerUpdates h.containerPropertyChanges
      h.containerDeletes changes

theorem kindsOf_partFold_unmentioned {isContainer : Bool} {id : Nat} {history : History}
    (hdistinct : ∀ commit ∈ history, commit.2.Distinct)
    (h : ∀ commit ∈ history, ¬ commit.2.mentions isContainer id) :
    kindsOf isContainer id (partFold isContainer history) = [] := by
  induction history using List.reverseRecOn with
  | nil => rfl
  | append_singleton history commit ih =>
    have ih := ih (fun commit' hmem => hdistinct commit' (mem_append_left _ hmem))
      fun commit' hmem => h commit' (mem_append_left _ hmem)
    have hlast := mem_append_right history (mem_singleton.mpr (rfl : commit = commit))
    have hcommit := h commit hlast
    have htouches : ¬ (id ∈ commit.2.inserts isContainer ∨ id ∈ commit.2.updates isContainer ∨
        id ∈ commit.2.propertyChanges isContainer) :=
      fun hmem => hcommit (Or.inl (decide_eq_true hmem))
    rw [not_or, not_or] at htouches
    rw [partFold_append_singleton, kindsOf_push (hdistinct commit hlast), ih, LogEntry.fold,
      applyIf, if_neg fun hmem => hcommit (Or.inr hmem), applyIf, if_neg htouches.2.2, applyIf,
      if_neg htouches.2.1, applyIf, if_neg htouches.1]

/-- The list of the changes of some commits tells, for each object, whether it exists behind
them, and that its content has changed. -/
theorem fold_means {isContainer : Bool} {history history' : History}
    (hfresh : Fresh isContainer (history ++ history'))
    (hdistinct : ∀ commit ∈ history', commit.2.Distinct) (id : Nat) :
    Means (existing isContainer id history) (kindsOf isContainer id (partFold isContainer history'))
      (existing isContainer id (history ++ history'))
      (decide (lastChange isContainer id (history ++ history') ≠
        lastChange isContainer id history)) := by
  induction history' using List.reverseRecOn with
  | nil =>
    rw [List.append_nil]
    refine ⟨fun hmem => (by cases hmem), ?_, fun _ h => ?_⟩
    · change _ ↔ (_ ∨ ChangeKind.insert ∈ []) ∧ ChangeKind.delete ∉ []
      simp
    · exact absurd rfl (of_decide_eq_true h)
  | append_singleton history' commit ih =>
    rw [← append_assoc] at hfresh ⊢
    obtain ⟨hleft, -, hlast⟩ := pairwise_append.mp hfresh
    have hbefore := fun commit' hmem => hlast commit' hmem commit (mem_singleton.mpr rfl)
    have hkept := fun commit' hmem => hdistinct commit' (mem_append_left _ hmem)
    have hnew : id ∈ commit.2.inserts isContainer → existing isContainer id history = false ∧
        kindsOf isContainer id (partFold isContainer history') = [] := by
      intro hmem
      have hnot : ∀ commit' ∈ history ++ history', ¬ commit'.2.mentions isContainer id :=
        fun commit' hmem' => hbefore commit' hmem' id hmem
      refine ⟨?_, kindsOf_partFold_unmentioned hkept fun commit' hmem' =>
        hnot commit' (mem_append_right _ hmem')⟩
      exact (@objects_append_unmentioned isContainer id [] history fun commit' hmem' =>
        hnot commit' (mem_append_left _ hmem')).1
    have hstep := (ih hleft hkept).fold commit.2 hnew
    rw [partFold_append_singleton, kindsOf_push (hdistinct commit (mem_append_right _
      mem_cons_self)), existing_append_singleton, lastChange_append_singleton]
    refine ⟨hstep.inserted, hstep.present, fun hnow htouched => hstep.changed hnow ?_⟩
    by_cases htouches : commit.2.touches isContainer id = true
    · rw [htouches, Bool.true_or]
    · rw [if_neg htouches] at htouched
      simp [htouched]

/-! ## Changes behind a change id -/

section Behind

variable {isContainer : Bool} {id changeId : Nat} {history : History}

theorem lt_lastChange (hascending : Ascending history) {commit : Nat × LogEntry}
    (hmem : commit ∈ after changeId history) (htouches : commit.2.touches isContainer id = true) :
    changeId < lastChange isContainer id history := by
  obtain ⟨hhistory, hlt⟩ := mem_after.mp hmem
  obtain ⟨before, rest, rfl⟩ := append_of_mem hhistory
  have hsplit : before ++ commit :: rest = (before ++ [commit]) ++ rest := by simp
  rw [hsplit] at hascending ⊢
  have hle := @lastChange_le_append isContainer id _ _ hascending
  rw [lastChange_append_singleton, if_pos htouches] at hle
  omega

theorem lastChange_upTo_le : lastChange isContainer id (upTo changeId history) ≤ changeId := by
  rcases @lastChange_mem isContainer id (upTo changeId history) with hzero | ⟨commit, hmem, heq⟩
  · omega
  · have := (mem_upTo.mp hmem).2
    omega

theorem updateProperty_notMem (hdistinct : ∀ commit ∈ history, commit.2.Distinct)
    (hnone : ∀ commit ∈ history, commit.2.propertyChanges isContainer = []) :
    ChangeKind.updateProperty ∉ kindsOf isContainer id (partFold isContainer history) := by
  have hupdate : ∀ kinds : List ChangeKind, .updateProperty ∉ kinds →
      .updateProperty ∉ updateKinds false kinds := by
    intro kinds hnot
    unfold updateKinds
    split
    · exact hnot
    · simpa [mem_erase_of_ne] using hnot
    · rename_i hfound
      exact absurd (List.mem_of_find?_eq_some hfound) hnot
    · simpa using hnot
  have hdelete : ∀ kinds : List ChangeKind, .updateProperty ∉ kinds →
      .updateProperty ∉ deleteKinds kinds := by
    intro kinds hnot
    unfold deleteKinds
    split
    · simpa [mem_erase_of_ne] using hnot
    · simpa [mem_erase_of_ne] using hnot
    · simpa using hnot
  have happly : ∀ (ids : List Nat) (f : List ChangeKind → List ChangeKind),
      (∀ kinds, .updateProperty ∉ kinds → .updateProperty ∉ f kinds) →
      ∀ kinds, .updateProperty ∉ kinds → .updateProperty ∉ applyIf ids id f kinds := by
    intro ids f hf kinds hnot
    unfold applyIf
    split
    · exact hf kinds hnot
    · exact hnot
  induction history using List.reverseRecOn with
  | nil => exact not_mem_nil
  | append_singleton history commit ih =>
    have hlast := mem_append_right history (mem_singleton.mpr (rfl : commit = commit))
    have ih := ih (fun commit' hmem => hdistinct commit' (mem_append_left _ hmem))
      fun commit' hmem => hnone commit' (mem_append_left _ hmem)
    rw [partFold_append_singleton, kindsOf_push (hdistinct commit hlast), LogEntry.fold,
      hnone commit hlast]
    refine happly _ _ hdelete _ (happly _ _ hupdate _ (happly _ _ (fun kinds hnot => ?_) _ ih))
    simpa [insertKinds] using hnot

/-- What was touched behind a change id, and is still there, is listed as inserted or updated. -/
theorem listed_of_touches (hascending : Ascending history) (hfresh : Fresh isContainer history)
    (hdistinct : ∀ commit ∈ history, commit.2.Distinct)
    (hnone : ∀ commit ∈ history, commit.2.propertyChanges isContainer = [])
    (hexisting : existing isContainer id history = true) {commit : Nat × LogEntry}
    (hmem : commit ∈ after changeId history) (htouches : commit.2.touches isContainer id = true) :
    ∃ kind, (kind = .insert ∨ kind = .update) ∧
      ⟨isContainer, kind, id⟩ ∈ partFold isContainer (after changeId history) := by
  have hsplit := upTo_append_after hascending changeId
  have hmeans := @fold_means isContainer (upTo changeId history) (after changeId history)
    (by rw [hsplit]; exact hfresh) (fun commit' hmem' => hdistinct commit' (mem_after.mp hmem').1) id
  rw [hsplit] at hmeans
  have hne : lastChange isContainer id history ≠ lastChange isContainer id (upTo changeId history) := by
    have hlt := lt_lastChange hascending hmem htouches
    have hle := @lastChange_upTo_le isContainer id changeId history
    omega
  obtain ⟨kind, hkind, hdelete⟩ := hmeans.changed hexisting (decide_eq_true hne)
  have hproperty : kind ≠ .updateProperty := by
    rintro rfl
    exact updateProperty_notMem (fun commit' hmem' => hdistinct commit' (mem_after.mp hmem').1)
      (fun commit' hmem' => hnone commit' (mem_after.mp hmem').1) hkind
  refine ⟨kind, ?_, mem_kindsOf.mp hkind⟩
  cases kind with
  | insert => exact Or.inl rfl
  | update => exact Or.inr rfl
  | updateProperty => exact absurd rfl hproperty
  | delete => exact absurd rfl hdelete

end Behind

end Bearmail.Sync
