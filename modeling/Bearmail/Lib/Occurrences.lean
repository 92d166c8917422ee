import Mathlib.Data.List.Basic

/-!
# Occurrences in lists

The elements of a list that satisfy a predicate, counted from 1, and editing the list at one of
them: it is changed or taken out, or something is put before it.
-/

namespace Occurrences

open List Option

universe u

variable {α : Type u} (p : α → Bool)

/-- The position of the `n`-th element that satisfies `p`. -/
def occurrence (n : Nat) (l : List α) : Option Nat :=
  if n = 0 then none else (l.findIdxs p)[n - 1]?

def changeAt (n : Nat) (f : α → α) (l : List α) : List α :=
  (occurrence p n l).elim l fun i => l.modify i f

def eraseAt (n : Nat) (l : List α) : List α := (occurrence p n l).elim l l.eraseIdx

/-- The position of the `n`-th element that satisfies `p`, or of the last when there are fewer. -/
def place (n : Nat) (l : List α) : Option Nat := (occurrence p n l).or (l.findIdxs p).getLast?

variable {p}

theorem occurrence_nil (n : Nat) : occurrence p n [] = none := by
  unfold occurrence
  split <;> rfl

variable {x : α} {n : Nat}

theorem findIdxs_cons_of_pos (h : p x = true) (l : List α) :
    (x :: l).findIdxs p = 0 :: (l.findIdxs p).map (· + 1) := by
  rw [findIdxs_cons, if_pos h, findIdxs_start]

theorem findIdxs_cons_of_neg (h : ¬ p x = true) (l : List α) :
    (x :: l).findIdxs p = (l.findIdxs p).map (· + 1) := by
  rw [findIdxs_cons, if_neg h, findIdxs_start]

theorem occurrence_cons_of_neg (h : ¬ p x = true) (n : Nat) (l : List α) :
    occurrence p n (x :: l) = (occurrence p n l).map (· + 1) := by
  unfold occurrence
  split
  · rfl
  · rw [findIdxs_cons_of_neg h, List.getElem?_map]

theorem occurrence_cons_one (h : p x = true) (l : List α) : occurrence p 1 (x :: l) = some 0 := by
  rw [occurrence, findIdxs_cons_of_pos h]
  rfl

theorem occurrence_cons_of_pos (h : p x = true) (hn : n ≠ 1) (l : List α) :
    occurrence p n (x :: l) = (occurrence p (n - 1) l).map (· + 1) := by
  unfold occurrence
  by_cases hzero : n = 0
  · subst hzero
    rfl
  · rw [if_neg hzero, if_neg (by omega), findIdxs_cons_of_pos h,
      List.getElem?_cons, if_neg (by omega), List.getElem?_map]

theorem length_changeAt (n : Nat) (f : α → α) (l : List α) : (changeAt p n f l).length = l.length := by
  unfold changeAt
  cases occurrence p n l with
  | none => rfl
  | some i => exact length_modify ..

theorem changeAt_of_none {f : α → α} {l : List α} (h : occurrence p n l = none) :
    changeAt p n f l = l := by
  rw [changeAt, h, elim_none]

theorem changeAt_cons_of_neg (h : ¬ p x = true) (n : Nat) (f : α → α) (l : List α) :
    changeAt p n f (x :: l) = x :: changeAt p n f l := by
  rw [changeAt, changeAt, occurrence_cons_of_neg h]
  cases occurrence p n l <;> rfl

theorem changeAt_cons_one (h : p x = true) (f : α → α) (l : List α) :
    changeAt p 1 f (x :: l) = f x :: l := by
  rw [changeAt, occurrence_cons_one h]
  rfl

theorem changeAt_cons_of_pos (h : p x = true) (hn : n ≠ 1) (f : α → α) (l : List α) :
    changeAt p n f (x :: l) = x :: changeAt p (n - 1) f l := by
  rw [changeAt, changeAt, occurrence_cons_of_pos h hn]
  cases occurrence p (n - 1) l <;> rfl

theorem eraseAt_cons_of_neg (h : ¬ p x = true) (n : Nat) (l : List α) :
    eraseAt p n (x :: l) = x :: eraseAt p n l := by
  rw [eraseAt, eraseAt, occurrence_cons_of_neg h]
  cases occurrence p n l <;> rfl

theorem eraseAt_cons_one (h : p x = true) (l : List α) : eraseAt p 1 (x :: l) = l := by
  rw [eraseAt, occurrence_cons_one h]
  rfl

theorem eraseAt_cons_of_pos (h : p x = true) (hn : n ≠ 1) (l : List α) :
    eraseAt p n (x :: l) = x :: eraseAt p (n - 1) l := by
  rw [eraseAt, eraseAt, occurrence_cons_of_pos h hn]
  cases occurrence p (n - 1) l <;> rfl

theorem place_cons_of_neg (h : ¬ p x = true) (n : Nat) (l : List α) :
    place p n (x :: l) = (place p n l).map (· + 1) := by
  rw [place, place, occurrence_cons_of_neg h, findIdxs_cons_of_neg h, List.getLast?_map, map_or]

theorem place_cons_one (h : p x = true) (l : List α) : place p 1 (x :: l) = some 0 := by
  rw [place, occurrence_cons_one h, some_or]

theorem place_cons_of_pos (h : p x = true) (hn : n ≠ 1) (l : List α) :
    place p n (x :: l) = some (((place p (n - 1) l).map (· + 1)).getD 0) := by
  rw [place, place, occurrence_cons_of_pos h hn, findIdxs_cons_of_pos h, List.getLast?_cons,
    List.getLast?_map]
  cases occurrence p (n - 1) l with
  | none | some i => rfl

theorem place_nil (n : Nat) : place p n [] = none := by
  rw [place, occurrence_nil]
  rfl

end Occurrences
