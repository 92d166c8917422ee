import Mathlib.Data.List.Nodup

/-!
# Maps in order of insertion

A map as a list of pairs, for few keys: a key that is new goes to the end.
-/

variable {κ ν : Type*}

structure VecMap (κ ν : Type*) where
  entries : List (κ × ν)
  nodup : (entries.map Prod.fst).Nodup

namespace VecMap

open List

@[ext] theorem ext {map other : VecMap κ ν} (h : map.entries = other.entries) : map = other := by
  cases map
  cases other
  cases h
  rfl

def empty : VecMap κ ν := ⟨[], List.nodup_nil⟩

def keys (map : VecMap κ ν) : List κ := map.entries.map Prod.fst

def isEmpty (map : VecMap κ ν) : Bool := map.entries.isEmpty

variable [DecidableEq κ]

def lookup (map : VecMap κ ν) (key : κ) : Option ν :=
  (map.entries.find? fun entry => entry.1 = key).map Prod.snd

/-- A change of the value of a key, which starts with the default when the key is new. -/
def modifyEntries (default : ν) (f : ν → ν) (key : κ) : List (κ × ν) → List (κ × ν)
  | [] => [(key, f default)]
  | entry :: rest =>
    if entry.1 = key then (key, f entry.2) :: rest else entry :: modifyEntries default f key rest

variable (map : VecMap κ ν) (default : ν) (f : ν → ν) (key : κ)

theorem keys_modifyEntries (entries : List (κ × ν)) :
    (modifyEntries default f key entries).map Prod.fst =
      if key ∈ entries.map Prod.fst then entries.map Prod.fst else entries.map Prod.fst ++ [key] := by
  induction entries with
  | nil => rfl
  | cons entry rest ih =>
    rw [modifyEntries]
    by_cases heq : entry.1 = key
    · rw [if_pos heq]
      simp [heq]
    · have hmem : key ∈ (entry :: rest).map Prod.fst ↔ key ∈ rest.map Prod.fst := by
        rw [map_cons, mem_cons]
        exact or_iff_right fun h => heq h.symm
      rw [if_neg heq]
      by_cases hrest : key ∈ rest.map Prod.fst
      · simp [ih, hrest]
      · rw [if_neg fun h => hrest (hmem.mp h), map_cons, ih, if_neg hrest, map_cons, cons_append]

def modify (map : VecMap κ ν) (default : ν) (f : ν → ν) (key : κ) : VecMap κ ν where
  entries := modifyEntries default f key map.entries
  nodup := by
    rw [keys_modifyEntries]
    split
    · exact map.nodup
    · rename_i hnew
      exact List.nodup_append.mpr ⟨map.nodup, List.nodup_singleton _, fun a ha b hb heq =>
        hnew (List.mem_singleton.mp hb ▸ heq ▸ ha)⟩

theorem entries_modify_ne_nil : (map.modify default f key).entries ≠ [] := by
  show modifyEntries default f key map.entries ≠ []
  cases map.entries with
  | nil => exact cons_ne_nil _ _
  | cons entry rest =>
    rw [modifyEntries]
    split <;> exact cons_ne_nil _ _

theorem entries_modify_of_cons {map : VecMap κ ν} {entry : κ × ν} {rest : List (κ × ν)}
    (h : map.entries = entry :: rest) (default : ν) (f : ν → ν) (key : κ) :
    (∃ rest', (map.modify default f key).entries = entry :: rest') ∨
      ∃ rest', (map.modify default f key).entries = (entry.1, f entry.2) :: rest' := by
  show (∃ rest', modifyEntries default f key map.entries = entry :: rest') ∨
    ∃ rest', modifyEntries default f key map.entries = (entry.1, f entry.2) :: rest'
  rw [h, modifyEntries]
  split
  · rename_i heq
    exact .inr ⟨rest, by rw [heq]⟩
  · exact .inl ⟨_, rfl⟩

omit [DecidableEq κ] in
@[simp] theorem entries_empty : (empty : VecMap κ ν).entries = [] := rfl

@[simp] theorem lookup_empty : (empty : VecMap κ ν).lookup key = none := rfl

theorem keys_modify :
    (map.modify default f key).keys = if key ∈ map.keys then map.keys else map.keys ++ [key] :=
  keys_modifyEntries default f key map.entries

theorem mem_keys_modify {map : VecMap κ ν} {default : ν} {f : ν → ν} {key other : κ} :
    other ∈ (map.modify default f key).keys ↔ other ∈ map.keys ∨ other = key := by
  rw [keys_modify]
  split
  · rename_i hmem
    exact ⟨.inl, fun h => h.elim (fun h => h) fun heq => heq ▸ hmem⟩
  · simp

theorem lookup_modify_self :
    (map.modify default f key).lookup key = some (f ((map.lookup key).getD default)) := by
  unfold lookup modify
  dsimp only
  induction map.entries with
  | nil => simp [modifyEntries]
  | cons entry rest ih =>
    rw [modifyEntries]
    by_cases heq : entry.1 = key
    · simp [heq]
    · rw [if_neg heq, List.find?_cons_of_neg (by simpa using heq), ih,
        List.find?_cons_of_neg (by simpa using heq)]

theorem lookup_modify_of_ne {key other : κ} (h : other ≠ key) : (map.modify default f key).lookup other = map.lookup other := by
  unfold lookup modify
  dsimp only
  induction map.entries with
  | nil => simp [modifyEntries, h.symm]
  | cons entry rest ih =>
    rw [modifyEntries]
    by_cases heq : entry.1 = key
    · have hne : entry.1 ≠ other := fun hother => h (hother.symm.trans heq)
      rw [if_pos heq, List.find?_cons_of_neg (by simpa using h.symm),
        List.find?_cons_of_neg (by simpa using hne)]
    · rw [if_neg heq]
      by_cases hother : entry.1 = other
      · simp [hother]
      · rw [List.find?_cons_of_neg (by simpa using hother),
          List.find?_cons_of_neg (by simpa using hother), ih]

theorem mem_entries_iff {map : VecMap κ ν} {key : κ} {value : ν} :
    (key, value) ∈ map.entries ↔ map.lookup key = some value := by
  obtain ⟨entries, hnodup⟩ := map
  unfold lookup
  induction entries with
  | nil => simp
  | cons entry rest ih =>
    obtain ⟨hnew, hnodup⟩ := nodup_cons.mp hnodup
    by_cases heq : entry.1 = key
    · subst heq
      have hnot : (entry.1, value) ∉ rest := fun hmem => hnew (mem_map.mpr ⟨_, hmem, rfl⟩)
      simp only [mem_cons, hnot, or_false, List.find?_cons_of_pos, decide_true, Option.map_some,
        Option.some.injEq]
      exact ⟨fun h => (congrArg Prod.snd h).symm, fun h => by rw [← h]⟩
    · rw [List.find?_cons_of_neg (by simpa using heq), ← ih hnodup, mem_cons]
      exact or_iff_right fun h => heq (congrArg Prod.fst h).symm

end VecMap
