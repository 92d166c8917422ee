import Mathlib.Data.List.Pairwise

/-!
# Ordered tables

A table whose entries stand in the order of their keys, as a store keeps the keys that share a prefix.
One key can be set, and all keys of a range taken out.
-/

namespace Ordered

open List

variable {α β : Type*}

def Ascending (entries : List (Nat × α)) : Prop := entries.Pairwise fun a b => a.1 < b.1

/-! ## Entries -/

def put (key : Nat) (value : α) : List (Nat × α) → List (Nat × α)
  | [] => [(key, value)]
  | entry :: rest =>
    if key < entry.1 then (key, value) :: entry :: rest
    else if key = entry.1 then (key, value) :: rest
    else entry :: put key value rest

/-- The keys from `start` on, and before `stop`, are taken out. -/
def deleteRange (start stop : Nat) (entries : List (Nat × α)) : List (Nat × α) :=
  entries.filter fun entry => !decide (start ≤ entry.1 ∧ entry.1 < stop)

attribute [local simp] put

theorem mem_put {key : Nat} {value : α} {entries : List (Nat × α)} {entry : Nat × α}
    (h : entry ∈ put key value entries) : entry = (key, value) ∨ entry ∈ entries := by
  induction entries with
  | nil => exact .inl (mem_singleton.mp h)
  | cons first rest ih =>
    rw [put] at h
    split at h
    · rcases mem_cons.mp h with heq | hmem
      · exact .inl heq
      · exact .inr hmem
    · split at h
      · rcases mem_cons.mp h with heq | hmem
        · exact .inl heq
        · exact .inr (mem_cons_of_mem _ hmem)
      · rcases mem_cons.mp h with heq | hmem
        · exact .inr (heq ▸ mem_cons_self)
        · exact (ih hmem).imp_right (mem_cons_of_mem _)

theorem ascending_put {entries : List (Nat × α)} (h : Ascending entries) (key : Nat) (value : α) :
    Ascending (put key value entries) := by
  induction entries with
  | nil => exact pairwise_singleton _ _
  | cons first rest ih =>
    obtain ⟨hfirst, hrest⟩ := pairwise_cons.mp h
    rw [put]
    split
    · rename_i hlt
      refine pairwise_cons.mpr ⟨fun entry hmem => ?_, h⟩
      rcases mem_cons.mp hmem with rfl | hmem
      · exact hlt
      · exact Nat.lt_trans hlt (hfirst entry hmem)
    · split
      · rename_i heq
        exact pairwise_cons.mpr ⟨fun entry hmem => heq ▸ hfirst entry hmem, hrest⟩
      · refine pairwise_cons.mpr ⟨fun entry hmem => ?_, ih hrest⟩
        rcases mem_put hmem with rfl | hmem
        · show first.1 < key
          omega
        · exact hfirst entry hmem

theorem put_head (key : Nat) (old value : α) (rest : List (Nat × α)) :
    put key value ((key, old) :: rest) = (key, value) :: rest := by
  simp [put]

theorem deleteRange_head {before rest : List (Nat × α)} {entry : Nat × α}
    (h : Ascending (before ++ entry :: rest)) :
    deleteRange 0 entry.1 (before ++ entry :: rest) = entry :: rest := by
  obtain ⟨-, htail, hbefore⟩ := pairwise_append.mp h
  have hrest := (pairwise_cons.mp htail).1
  have hout : deleteRange 0 entry.1 before = [] := by
    refine filter_eq_nil_iff.mpr fun earlier hmem => ?_
    have := hbefore earlier hmem entry mem_cons_self
    simp [this]
  have hin : deleteRange 0 entry.1 (entry :: rest) = entry :: rest := by
    refine filter_eq_self.mpr fun later hmem => ?_
    rcases mem_cons.mp hmem with rfl | hmem
    · simp
    · have := hrest later hmem
      simp only [Nat.zero_le, true_and, Bool.not_eq_true', decide_eq_false_iff_not]
      omega
  rw [deleteRange, filter_append]
  exact (congrArg₂ _ hout hin).trans (nil_append _)

theorem deleteRange_deleteRange (start stop : Nat) (entries : List (Nat × α)) :
    deleteRange start stop (deleteRange start stop entries) = deleteRange start stop entries := by
  simp [deleteRange, filter_filter]

/-! ## Tables -/

structure Table (α : Type*) where
  entries : List (Nat × α)
  ascending : Ascending entries

variable (table : Table α)

namespace Table

@[ext] theorem ext {table other : Table α} (h : table.entries = other.entries) : table = other := by
  cases table
  cases other
  cases h
  rfl

def empty : Table α := ⟨[], List.Pairwise.nil⟩

def put (table : Table α) (key : Nat) (value : α) : Table α :=
  ⟨Ordered.put key value table.entries, ascending_put table.ascending key value⟩

def deleteRange (table : Table α) (start stop : Nat) : Table α :=
  ⟨Ordered.deleteRange start stop table.entries, List.Pairwise.filter _ table.ascending⟩

@[simp] theorem entries_put (key : Nat) (value : α) :
    (table.put key value).entries = Ordered.put key value table.entries := rfl

@[simp] theorem entries_deleteRange (start stop : Nat) :
    (table.deleteRange start stop).entries = Ordered.deleteRange start stop table.entries := rfl

@[simp] theorem deleteRange_deleteRange (start stop : Nat) :
    (table.deleteRange start stop).deleteRange start stop = table.deleteRange start stop :=
  ext (Ordered.deleteRange_deleteRange start stop table.entries)

end Table

/-! ## One step for each of some parts -/

/-- Steps that can be made in any order, and each of which does nothing the second time, do nothing when
all of them are made again. -/
theorem foldl_again {f : α → β → α} (hagain : ∀ s i, f (f s i) i = f s i)
    (hcomm : ∀ s i j, f (f s i) j = f (f s j) i) (parts : List β) (s : α) :
    parts.foldl f (parts.foldl f s) = parts.foldl f s := by
  have hpush : ∀ (parts : List β) (s : α) (i : β), f (parts.foldl f s) i = parts.foldl f (f s i) := by
    intro parts
    induction parts with
    | nil => exact fun s i => rfl
    | cons j parts ih =>
      intro s i
      rw [foldl_cons, ih, hcomm, foldl_cons]
  induction parts generalizing s with
  | nil => rfl
  | cons i parts ih => rw [foldl_cons, foldl_cons, hpush, hagain, ih]

end Ordered
