import Mathlib.Data.List.Basic

/-!
# IMAP sequence sets

`Sequence` of `imap-proto/src/protocol/mod.rs`, and `serialize_sequence`, which
writes a list of numbers with consecutive ones joined to ranges.
-/

namespace Bearmail.Imap

inductive Sequence where
  | number (value : Nat)
  | range (start last : Option Nat)
  | savedSearch
  | list (items : List Sequence)

namespace Sequence

/-- Whether `value` lies between two ends given in any order. -/
def between (value a b : Nat) : Bool :=
  (decide (a ≤ value) && decide (value ≤ b)) || (decide (b ≤ value) && decide (value ≤ a))

mutual

def contains : Sequence → Nat → Nat → Bool
  | .number n, value, _ => decide (n = value)
  | .range (some start) (some last), value, _ => between value start last
  | .range (some bound) none, value, maxValue => between value bound maxValue
  | .range none (some bound), value, maxValue => between value bound maxValue
  | .range none none, value, maxValue => decide (value = maxValue)
  | .list items, value, maxValue => containsAny items value maxValue
  | .savedSearch, _, _ => false

def containsAny : List Sequence → Nat → Nat → Bool
  | [], _, _ => false
  | item :: items, value, maxValue => item.contains value maxValue || containsAny items value maxValue

end

mutual

def isSavedSearch : Sequence → Bool
  | .savedSearch => true
  | .list items => anySavedSearch items
  | _ => false

def anySavedSearch : List Sequence → Bool
  | [] => false
  | item :: items => item.isSavedSearch || anySavedSearch items

end

end Sequence

/-! ## Writing a list of numbers -/

/-- The rest of a list, with the range that is being extended. -/
def compressFrom (id rangeId : Nat) : List Nat → List (Nat × Nat)
  | [] => [(id, rangeId)]
  | nextId :: ids =>
    if nextId = rangeId + 1 then compressFrom id (rangeId + 1) ids
    else (id, rangeId) :: compressFrom nextId nextId ids

def compress : List Nat → List (Nat × Nat)
  | [] => []
  | id :: ids => compressFrom id id ids

def rangeText (r : Nat × Nat) : String :=
  if r.1 ≠ r.2 then toString r.1 ++ ":" ++ toString r.2 else toString r.1

def serializeSequence (list : List Nat) : String :=
  ",".intercalate ((compress list).map rangeText)

example : serializeSequence [3, 4, 5, 9, 7, 8] = "3:5,9,7:8" := by decide

def expand (ranges : List (Nat × Nat)) : List Nat :=
  ranges.flatMap fun r => List.range' r.1 (r.2 + 1 - r.1)

theorem expand_compressFrom (id rangeId : Nat) (h : id ≤ rangeId) (ids : List Nat) :
    expand (compressFrom id rangeId ids) = List.range' id (rangeId + 1 - id) ++ ids := by
  induction ids generalizing id rangeId with
  | nil => simp [compressFrom, expand]
  | cons nextId ids ih =>
    unfold compressFrom
    split
    · rename_i hnext
      have hlen : rangeId + 1 + 1 - id = (rangeId + 1 - id) + 1 := by omega
      have hlast : id + (rangeId + 1 - id) = nextId := by omega
      rw [ih id (rangeId + 1) (by omega), hlen, List.range'_concat, Nat.one_mul, hlast,
        List.append_assoc]
      rfl
    · show List.range' id (rangeId + 1 - id) ++ expand (compressFrom nextId nextId ids) = _
      rw [ih nextId nextId (Nat.le_refl _)]
      have hone : nextId + 1 - nextId = 1 := by omega
      rw [hone]
      rfl

theorem expand_compress (ids : List Nat) : expand (compress ids) = ids := by
  cases ids with
  | nil => rfl
  | cons id ids =>
    rw [compress, expand_compressFrom id id (Nat.le_refl _)]
    have hone : id + 1 - id = 1 := by omega
    rw [hone]
    rfl

end Bearmail.Imap
