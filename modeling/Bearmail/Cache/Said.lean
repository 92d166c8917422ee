import Bearmail.Cache.Paths

/-!
# What the log says about a document

The changes of a document behind a change id, as the log gives them (`said`), and what they tell about
the document. A document that was inserted and deleted behind the change id is not named at all.
-/

namespace Bearmail.Cache

open Sync
open List hiding after

/-! ## Kinds of changes -/

section Said

variable {history history' : History} {key : Bool × Nat}

def saidBy (history : History) (key : Bool × Nat) : List ChangeKind :=
  history.foldl (fun kinds commit => commit.2.fold key.1 key.2 kinds) []

def said (history : History) (changeId : Nat) (key : Bool × Nat) : List ChangeKind :=
  saidBy (after changeId history) key

def saidBetween (history : History) (changeId changeId' : Nat) (key : Bool × Nat) : List ChangeKind :=
  said (upTo changeId' history) changeId key

theorem saidBy_append_singleton (history : History) (commit : Nat × LogEntry) :
    saidBy (history ++ [commit]) key = commit.2.fold key.1 key.2 (saidBy history key) := by
  rw [saidBy, foldl_append]
  rfl

theorem kindsOf_foldAll (h : ∀ commit ∈ history, commit.2.Distinct) :
    kindsOf key.1 key.2 (foldAll history) = saidBy history key := by
  induction history using List.reverseRecOn with
  | nil => rfl
  | append_singleton history commit ih =>
    rw [foldAll_append_singleton, saidBy_append_singleton,
      kindsOf_deserialize (h commit (mem_append_right _ (mem_singleton_self _))),
      ih fun c hc => h c (mem_append_left _ hc)]

theorem kindsOf_partFold (h : ∀ commit ∈ history, commit.2.Distinct) :
    kindsOf key.1 key.2 (partFold key.1 history) = saidBy history key := by
  induction history using List.reverseRecOn with
  | nil => rfl
  | append_singleton history commit ih =>
    rw [partFold_append_singleton, saidBy_append_singleton,
      kindsOf_push (h commit (mem_append_right _ (mem_singleton_self _))),
      ih fun c hc => h c (mem_append_left _ hc)]

theorem saidBy_append_of_nil (h : saidBy history key = []) :
    saidBy (history ++ history') key = saidBy history' key := by
  unfold saidBy at h ⊢
  rw [foldl_append, h]

theorem LogEntry.fold_of_not_mentions {entry : LogEntry} (h : ¬ entry.mentions key.1 key.2)
    (kinds : List ChangeKind) : entry.fold key.1 key.2 kinds = kinds := by
  have htouches : ¬ (key.2 ∈ entry.inserts key.1 ∨ key.2 ∈ entry.updates key.1 ∨
      key.2 ∈ entry.propertyChanges key.1) := fun hmem => h (Or.inl (decide_eq_true hmem))
  rw [not_or, not_or] at htouches
  rw [LogEntry.fold, applyIf, if_neg fun hmem => h (Or.inr hmem), applyIf, if_neg htouches.2.2,
    applyIf, if_neg htouches.2.1, applyIf, if_neg htouches.1]

theorem saidBy_of_not_mentions (h : ∀ commit ∈ history', ¬ commit.2.mentions key.1 key.2) :
    saidBy (history ++ history') key = saidBy history key := by
  induction history' using List.reverseRecOn with
  | nil => simp
  | append_singleton history' commit ih =>
    rw [← append_assoc, saidBy_append_singleton, LogEntry.fold_of_not_mentions
      (h commit (mem_append_right _ (mem_singleton_self _))),
      ih fun c hc => h c (mem_append_left _ hc)]

theorem exists_mentions (h : saidBy history key ≠ []) :
    ∃ commit ∈ history, commit.2.mentions key.1 key.2 := by
  by_contra hnot
  push Not at hnot
  exact h (@saidBy_of_not_mentions [] history key hnot)

end Said

/-! ## One commit more -/

section Writes

variable {writes : List Write} {key : Bool × Nat}

theorem mem_ids {kind : ChangeKind} {isContainer : Bool} {id : Nat} :
    id ∈ Write.ids kind isContainer writes ↔
      ∃ write ∈ writes, write.kind = kind ∧ write.key = (isContainer, id) := by
  rw [Write.ids, mem_map]
  constructor
  · rintro ⟨write, hmem, rfl⟩
    obtain ⟨hwrite, hcond⟩ := mem_filter.mp hmem
    obtain ⟨hkind, hcontainer⟩ := of_decide_eq_true hcond
    exact ⟨write, hwrite, hkind, Prod.ext hcontainer rfl⟩
  · rintro ⟨write, hwrite, hkind, hkey⟩
    refine ⟨write, mem_filter.mpr ⟨hwrite, decide_eq_true ⟨hkind, ?_⟩⟩, ?_⟩
    · rw [hkey]
    · rw [hkey]

theorem entryOf_ids (writes : List Write) (isContainer : Bool) :
    (entryOf writes).inserts isContainer = Write.ids .insert isContainer writes ∧
      (entryOf writes).updates isContainer = Write.ids .update isContainer writes ∧
      (entryOf writes).propertyChanges isContainer = [] ∧
      (entryOf writes).deletes isContainer = Write.ids .delete isContainer writes := by
  cases isContainer <;> exact ⟨rfl, rfl, rfl, rfl⟩

theorem mentions_entryOf :
    (entryOf writes).mentions key.1 key.2 ↔ ∃ write ∈ writes, write.key = key := by
  obtain ⟨hinserts, hupdates, hproperties, hdeletes⟩ := entryOf_ids writes key.1
  rw [LogEntry.mentions, LogEntry.touches, decide_eq_true_eq, hinserts, hupdates, hproperties,
    hdeletes, mem_ids, mem_ids, mem_ids]
  constructor
  · rintro ((⟨write, hwrite, -, hkey⟩ | ⟨write, hwrite, -, hkey⟩ | hnil) | ⟨write, hwrite, -, hkey⟩)
    · exact ⟨write, hwrite, hkey⟩
    · exact ⟨write, hwrite, hkey⟩
    · cases hnil
    · exact ⟨write, hwrite, hkey⟩
  · rintro ⟨write, hwrite, hkey⟩
    cases hkind : write.kind with
    | insert => exact Or.inl (Or.inl ⟨write, hwrite, hkind, hkey⟩)
    | update => exact Or.inl (Or.inr (Or.inl ⟨write, hwrite, hkind, hkey⟩))
    | delete => exact Or.inr ⟨write, hwrite, hkind, hkey⟩
    | updateProperty => cases write <;> cases hkind

theorem distinct_entryOf (h : (writes.map Write.key).Nodup) : (entryOf writes).Distinct := by
  have hnodup : ∀ kind isContainer, (Write.ids kind isContainer writes).Nodup := by
    intro kind isContainer
    refine List.Nodup.map_on ?_ ((List.Nodup.of_map _ h).filter _)
    intro write hwrite write' hwrite' hid
    obtain ⟨hmem, hcond⟩ := mem_filter.mp hwrite
    obtain ⟨hmem', hcond'⟩ := mem_filter.mp hwrite'
    refine inj_on_of_nodup_map h hmem hmem' (Prod.ext ?_ hid)
    exact (of_decide_eq_true hcond).2.trans (of_decide_eq_true hcond').2.symm
  exact ⟨hnodup _ _, hnodup _ _, nodup_nil, hnodup _ _, hnodup _ _, hnodup _ _, hnodup _ _⟩

def Write.fold (write : Write) (kinds : List ChangeKind) : List ChangeKind :=
  match write with
  | .insert .. => insertKinds kinds
  | .update .. => updateKinds false kinds
  | .delete .. => deleteKinds kinds

theorem fold_entryOf (h : (writes.map Write.key).Nodup) {write : Write} (hwrite : write ∈ writes)
    (kinds : List ChangeKind) :
    (entryOf writes).fold write.key.1 write.key.2 kinds = write.fold kinds := by
  obtain ⟨hinserts, hupdates, hproperties, hdeletes⟩ := entryOf_ids writes write.key.1
  have hmem : ∀ kind, write.key.2 ∈ Write.ids kind write.key.1 writes ↔ write.kind = kind := by
    intro kind
    rw [mem_ids]
    constructor
    · rintro ⟨write', hwrite', hkind, hkey⟩
      rw [← hkind, inj_on_of_nodup_map h hwrite' hwrite hkey]
    · exact fun hkind => ⟨write, hwrite, hkind, rfl⟩
  rw [LogEntry.fold, hinserts, hupdates, hproperties, hdeletes]
  unfold applyIf
  simp only [hmem, not_mem_nil, if_false]
  cases write <;> rfl

theorem lookup_apply_of_ne {documents : Documents} (h : ∀ write ∈ writes, write.key ≠ key) :
    (writes.foldl Write.apply documents).lookup key = documents.lookup key := by
  induction writes generalizing documents with
  | nil => rfl
  | cons write writes ih =>
    have hne := h write mem_cons_self
    rw [foldl_cons, ih fun w hw => h w (mem_cons_of_mem _ hw)]
    cases write with
    | insert | update => exact AList.lookup_insert_ne hne.symm
    | delete => exact AList.lookup_erase_ne hne.symm

def Write.result : Write → Option DavResourceMetadata
  | .insert _ _ data => some data
  | .update _ _ data => some data
  | .delete .. => none

theorem lookup_apply {documents : Documents} (h : (writes.map Write.key).Nodup) {write : Write}
    (hwrite : write ∈ writes) :
    (writes.foldl Write.apply documents).lookup write.key = write.result := by
  induction writes generalizing documents with
  | nil => cases hwrite
  | cons first writes ih =>
    rw [map_cons, nodup_cons] at h
    rcases mem_cons.mp hwrite with rfl | hlater
    · rw [foldl_cons, lookup_apply_of_ne fun w hw heq => h.1 (mem_map.mpr ⟨w, hw, heq⟩)]
      cases write with
      | insert | update => exact AList.lookup_insert _
      | delete => exact AList.lookup_erase _ _
    · exact ih h.2 hlater

end Writes

end Bearmail.Cache
