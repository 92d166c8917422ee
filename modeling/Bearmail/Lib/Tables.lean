import Mathlib.Data.List.AList

/-!
# Tables

What is found in an association list after a key has been put in or taken out.
-/

namespace Tables

variable {α β : Type*} [DecidableEq α] {table : AList fun _ : α => β} {key other : α} {value found : β}

theorem of_insert (h : (table.insert key value).lookup other = some found) :
    (other = key ∧ found = value) ∨ (other ≠ key ∧ table.lookup other = some found) := by
  by_cases heq : other = key
  · subst heq
    rw [AList.lookup_insert, Option.some.injEq] at h
    exact Or.inl ⟨rfl, h.symm⟩
  · rw [AList.lookup_insert_ne heq] at h
    exact Or.inr ⟨heq, h⟩

theorem of_erase (h : (table.erase key).lookup other = some found) :
    other ≠ key ∧ table.lookup other = some found := by
  by_cases heq : other = key
  · subst heq
    rw [AList.lookup_erase] at h
    cases h
  · rw [AList.lookup_erase_ne heq] at h
    exact ⟨heq, h⟩

theorem mem_entries {entry : Sigma fun _ : α => β} :
    entry ∈ table.entries ↔ table.lookup entry.1 = some entry.2 := by
  rw [← Option.mem_def, AList.mem_lookup_iff]

/-- A property of all that is in a table is decided by going through it. -/
instance decidableForall {p : α → β → Prop} [∀ key value, Decidable (p key value)] :
    Decidable (∀ key value, table.lookup key = some value → p key value) :=
  decidable_of_iff (∀ entry ∈ table.entries, p entry.1 entry.2)
    ⟨fun h key value hlookup => h ⟨key, value⟩ (mem_entries.mpr hlookup),
      fun h entry hentry => h entry.1 entry.2 (mem_entries.mp hentry)⟩

instance decidableExists {p : α → β → Prop} [∀ key value, Decidable (p key value)] :
    Decidable (∃ key value, table.lookup key = some value ∧ p key value) :=
  decidable_of_iff (∃ entry ∈ table.entries, p entry.1 entry.2)
    ⟨fun ⟨entry, hentry, hp⟩ => ⟨entry.1, entry.2, mem_entries.mp hentry, hp⟩,
      fun ⟨key, value, hlookup, hp⟩ => ⟨⟨key, value⟩, mem_entries.mpr hlookup, hp⟩⟩

end Tables
