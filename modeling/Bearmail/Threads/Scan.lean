import Mathlib.Data.List.Dedup
import Mathlib.Data.List.TakeWhile
import Bearmail.Lib.Tables
import Bearmail.Threads.Merge

/-!
# What a scan finds

The messages of the Threading index that a merge brings together: `has_matching` for those with a
common reference, and `has_scanThreads` with the others of their threads.
-/

namespace Bearmail.Threads

open List

/-! ## References -/

def Meet (ids ids' : List CheekyHash) : Prop := ∃ id ∈ ids, id ∈ ids'

theorem hasMessageId_iff {ids ids' : List CheekyHash} (h : ids.Pairwise (· ≤ ·))
    (h' : ids'.Pairwise (· ≤ ·)) : hasMessageId ids ids' = true ↔ Meet ids ids' := by
  induction ids generalizing ids' with
  | nil => simp [hasMessageId, Meet]
  | cons a ids ih =>
    obtain ⟨hle, hids⟩ := pairwise_cons.mp h
    -- what is skipped is less than all of the first list
    have hskip : ∀ id ∈ a :: ids, id ∈ ids' → id ∈ ids'.dropWhile fun b => decide (b < a) := by
      intro id hid hmem
      rw [← takeWhile_append_dropWhile (p := fun b => decide (b < a)) (l := ids')] at hmem
      rcases mem_append.mp hmem with htaken | hrest
      · have hlt : decide (id < a) = true :=
          mem_takeWhile_imp (p := fun b => decide (b < a)) htaken
        rcases mem_cons.mp hid with rfl | hlater
        · exact absurd (of_decide_eq_true hlt) (lt_irrefl _)
        · exact absurd (of_decide_eq_true hlt) (not_lt_of_ge (hle id hlater))
      · exact hrest
    have hsub := dropWhile_sublist (l := ids') fun b => decide (b < a)
    rw [hasMessageId]
    cases hdrop : ids'.dropWhile fun b => decide (b < a) with
    | nil =>
      simp only [Bool.false_eq_true, false_iff]
      rintro ⟨id, hid, hmem⟩
      have := hskip id hid hmem
      rw [hdrop] at this
      cases this
    | cons b rest =>
      rw [hdrop] at hsub
      have hsorted := h'.sublist hsub
      dsimp only
      split
      · rename_i heq
        refine iff_of_true rfl ⟨a, mem_cons_self, hsub.subset ?_⟩
        exact heq ▸ mem_cons_self
      · rename_i hne
        rw [ih hids hsorted]
        constructor
        · rintro ⟨id, hid, hmem⟩
          exact ⟨id, mem_cons_of_mem _ hid, hsub.subset hmem⟩
        · rintro ⟨id, hid, hmem⟩
          have hrest := hskip id hid hmem
          rw [hdrop] at hrest
          rcases mem_cons.mp hid with rfl | hlater
          · have hge : ¬ b < id := by
              have hhead := List.head?_dropWhile_not (fun b => decide (b < id)) ids'
              rw [hdrop] at hhead
              simpa using hhead
            rcases mem_cons.mp hrest with heq | hlater
            · exact absurd heq hne
            · have hble := (pairwise_cons.mp hsorted).1 id hlater
              exact absurd (le_antisymm (not_lt.mp hge) hble) hne
          · exact ⟨id, hlater, hrest⟩

/-! ## Groups -/

def ThreadMerge.Has (merge : ThreadMerge) (threadId documentId : Nat) : Prop :=
  ∃ documents, merge.lookup threadId = some documents ∧ documentId ∈ documents

variable {merge : ThreadMerge} {threadId documentId : Nat}

theorem ThreadMerge.Has.mem_keys (h : merge.Has threadId documentId) : threadId ∈ merge.keys := by
  obtain ⟨documents, hlookup, -⟩ := h
  rw [← AList.mem_keys, ← AList.lookup_isSome, hlookup]
  rfl

theorem ThreadMerge.has_add {threadId' documentId' : Nat} :
    (merge.add threadId' documentId').Has threadId documentId ↔
      merge.Has threadId documentId ∨ (threadId = threadId' ∧ documentId = documentId') := by
  rw [ThreadMerge.Has, ThreadMerge.add]
  by_cases heq : threadId = threadId'
  · subst heq
    rw [ThreadMerge.Has]
    cases merge.lookup threadId with
    | none | some documents => simp
  · rw [AList.lookup_insert_ne heq]
    simp [ThreadMerge.Has, heq]

theorem ThreadMerge.has_addAll {found : List (Sigma fun _ : CheekyHash × Nat => ThreadInfo)} :
    (merge.addAll found).Has threadId documentId ↔ merge.Has threadId documentId ∨
      ∃ entry ∈ found, entry.2.threadId = threadId ∧ entry.1.2 = documentId := by
  induction found generalizing merge with
  | nil => simp [ThreadMerge.addAll]
  | cons entry found ih =>
    have hstep : merge.addAll (entry :: found) =
        (merge.add entry.2.threadId entry.1.2).addAll found := rfl
    rw [hstep, ih, ThreadMerge.has_add, or_assoc]
    refine or_congr_right ?_
    constructor
    · rintro (⟨rfl, rfl⟩ | ⟨later, hlater, hrest⟩)
      · exact ⟨entry, mem_cons_self, rfl, rfl⟩
      · exact ⟨later, mem_cons_of_mem _ hlater, hrest⟩
    · rintro ⟨later, hlater, hthread, hdocument⟩
      rcases mem_cons.mp hlater with rfl | hmem
      · exact Or.inl ⟨hthread.symm, hdocument.symm⟩
      · exact Or.inr ⟨later, hmem, hthread, hdocument⟩

theorem ThreadMerge.not_has_empty : ¬ ThreadMerge.Has ∅ threadId documentId := by
  rintro ⟨documents, hlookup, -⟩
  cases hlookup

theorem mem_toMove : (threadId, documentId) ∈ toMove merge ↔
    threadId ≠ merge.mergeThreadId ∧ merge.Has threadId documentId := by
  rw [toMove, mem_flatMap]
  constructor
  · rintro ⟨group, hgroup, hmem⟩
    obtain ⟨hin, hne⟩ := mem_filter.mp hgroup
    obtain ⟨document, hdocument, heq⟩ := mem_map.mp hmem
    obtain ⟨rfl, rfl⟩ := Prod.mk.inj heq
    exact ⟨of_decide_eq_true hne, group.2, Tables.mem_entries.mp hin, hdocument⟩
  · rintro ⟨hne, documents, hlookup, hmem⟩
    refine ⟨⟨threadId, documents⟩, mem_filter.mpr ⟨Tables.mem_entries.mpr hlookup, ?_⟩, ?_⟩
    · exact decide_eq_true hne
    · exact mem_map_of_mem hmem

theorem ThreadMerge.eq_of_length_lt (h : merge.keys.length < 2) {threadId' documentId' : Nat}
    (hhas : merge.Has threadId documentId) (hhas' : merge.Has threadId' documentId') :
    threadId = threadId' := by
  have hmem := hhas.mem_keys
  have hmem' := hhas'.mem_keys
  match hkeys : merge.keys with
  | [] =>
    rw [hkeys] at hmem
    cases hmem
  | [key] =>
    rw [hkeys, mem_singleton] at hmem hmem'
    rw [hmem, hmem']
  | _ :: _ :: _ =>
    rw [hkeys, length_cons, length_cons] at h
    omega

/-! ## The index -/

/-- The references of every message are in order. -/
def Ordered (index : Index) : Prop :=
  ∀ key info, index.lookup key = some info → info.references.Pairwise (· ≤ ·)

variable {index : Index} {threadName : CheekyHash} {messageIds : List CheekyHash}

theorem mem_matching (hordered : Ordered index) (hids : messageIds.Pairwise (· ≤ ·))
    {entry : Sigma fun _ : CheekyHash × Nat => ThreadInfo} :
    entry ∈ index.matching threadName messageIds ↔ entry.1.1 = threadName ∧
      index.lookup entry.1 = some entry.2 ∧ Meet messageIds entry.2.references := by
  rw [Index.matching, mem_filter, Tables.mem_entries, Bool.and_eq_true, decide_eq_true_eq]
  constructor
  · rintro ⟨hlookup, hname, hhas⟩
    exact ⟨hname, hlookup, (hasMessageId_iff hids (hordered _ _ hlookup)).mp hhas⟩
  · rintro ⟨hname, hlookup, hmeet⟩
    exact ⟨hlookup, hname, (hasMessageId_iff hids (hordered _ _ hlookup)).mpr hmeet⟩

theorem has_matching (hordered : Ordered index) (hids : messageIds.Pairwise (· ≤ ·)) :
    (ThreadMerge.addAll ∅ (index.matching threadName messageIds)).Has threadId documentId ↔
      ∃ info, index.lookup (threadName, documentId) = some info ∧ info.threadId = threadId ∧
        Meet messageIds info.references := by
  rw [ThreadMerge.has_addAll, or_iff_right ThreadMerge.not_has_empty]
  constructor
  · rintro ⟨⟨⟨name, document⟩, info⟩, hentry, rfl, rfl⟩
    obtain ⟨rfl, hlookup, hmeet⟩ := (mem_matching hordered hids).mp hentry
    exact ⟨info, hlookup, rfl, hmeet⟩
  · rintro ⟨info, hlookup, rfl, hmeet⟩
    exact ⟨⟨(threadName, documentId), info⟩, (mem_matching hordered hids).mpr ⟨rfl, hlookup, hmeet⟩,
      rfl, rfl⟩

theorem has_scanThreads (hordered : Ordered index) {run : MergeRun}
    (hids : run.messageIds.Pairwise (· ≤ ·)) :
    (scanThreads index run).Has threadId documentId ↔
      ∃ info, index.lookup (run.threadName, documentId) = some info ∧ info.threadId = threadId ∧
        (Meet run.messageIds info.references ∨
          threadId ∈ (ThreadMerge.addAll ∅ (index.matching run.threadName run.messageIds)).keys) := by
  rw [scanThreads, ThreadMerge.has_addAll, has_matching hordered hids]
  constructor
  · rintro (⟨info, hlookup, hthread, hmeet⟩ | ⟨⟨⟨name, document⟩, info⟩, hentry, rfl, rfl⟩)
    · exact ⟨info, hlookup, hthread, Or.inl hmeet⟩
    · obtain ⟨hother, hkey⟩ := mem_filter.mp hentry
      obtain ⟨hin, hname⟩ := mem_filter.mp hother
      rw [Bool.and_eq_true, decide_eq_true_eq] at hname
      obtain ⟨rfl, -⟩ := hname
      exact ⟨info, Tables.mem_entries.mp hin, rfl, Or.inr (of_decide_eq_true hkey)⟩
  · rintro ⟨info, hlookup, rfl, hcase⟩
    by_cases hmeet : Meet run.messageIds info.references
    · exact Or.inl ⟨info, hlookup, rfl, hmeet⟩
    · have hkey := hcase.resolve_left hmeet
      refine Or.inr ⟨⟨(run.threadName, documentId), info⟩, mem_filter.mpr ⟨?_, ?_⟩, rfl, rfl⟩
      · refine mem_filter.mpr ⟨Tables.mem_entries.mpr hlookup, ?_⟩
        rw [Bool.and_eq_true, decide_eq_true_eq, Bool.not_eq_true',
          ← Bool.not_eq_true, hasMessageId_iff hids (hordered _ _ hlookup)]
        exact ⟨rfl, hmeet⟩
      · exact decide_eq_true hkey

end Bearmail.Threads
