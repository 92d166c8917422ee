import Mathlib.Order.Lattice
import Mathlib.Data.List.Basic

/-!
# The earliest of what is still to come

Items have times. A search keeps the earliest that it has found after the present, and what goes off one
after the other is everything if each search is right.
-/

namespace Bearmail.Earliest

open List

variable {α T : Type} [LinearOrder T] (time : α → T)

def IsEarliest (now : T) (items : List α) : Option α → Prop
  | none => ∀ x ∈ items, time x ≤ now
  | some first => first ∈ items ∧ now < time first ∧ ∀ x ∈ items, now < time x → time first ≤ time x

def sooner (now : T) (found : Option α) (x : α) : Bool :=
  decide (now < time x) && found.all fun first => decide (time x < time first)

/-- Each search starts at the time that the one before it has found. -/
inductive GoesOff (next : T → Option α) : T → T → Prop where
  | first {now : T} {x : α} : next now = some x → GoesOff next now (time x)
  | later {now t : T} {x : α} : next now = some x → GoesOff next (time x) t → GoesOff next now t

variable {time} {now : T} {items items' : List α} {found found' : Option α}

variable (h : IsEarliest time now items found)
include h

theorem IsEarliest.skip {x : α} (hx : sooner time now found x = false) :
    IsEarliest time now (items ++ [x]) found := by
  cases found with
  | none =>
    rintro y hy
    rcases mem_append.mp hy with hy | hy
    · exact h y hy
    · obtain rfl := mem_singleton.mp hy
      simpa [sooner] using hx
  | some first =>
    obtain ⟨hmem, hlt, hle⟩ := h
    refine ⟨mem_append_left _ hmem, hlt, fun y hy hnow => ?_⟩
    rcases mem_append.mp hy with hy | hy
    · exact hle y hy hnow
    · obtain rfl := mem_singleton.mp hy
      simpa [sooner, hnow] using hx

/-- An item that comes before the one that was found takes its place, whatever later ones follow. -/
theorem IsEarliest.take {x : α} (hx : sooner time now found x = true)
    {later : List α} (hlater : ∀ y ∈ later, time x ≤ time y) :
    IsEarliest time now (items ++ x :: later) (some x) := by
  simp only [sooner, Bool.and_eq_true, decide_eq_true_eq, Option.all_eq_true] at hx
  refine ⟨mem_append_right _ mem_cons_self, hx.1, fun y hy hnow => ?_⟩
  rcases mem_append.mp hy with hy | hy
  · cases found with
    | none => exact absurd hnow (not_lt.mpr (h y hy))
    | some first => exact le_trans (le_of_lt (hx.2 first rfl)) (h.2.2 y hy hnow)
  · rcases mem_cons.mp hy with rfl | hy
    · exact le_refl _
    · exact hlater y hy

/-- The first that comes before the one that was found is the earliest of items in the order of their times. -/
theorem IsEarliest.find? {xs : List α} (hsorted : xs.Pairwise (time · ≤ time ·)) :
    IsEarliest time now (items ++ xs) ((xs.find? (sooner time now found)).or found) := by
  induction xs generalizing items with
  | nil => simpa using h
  | cons x xs ih =>
    obtain ⟨hlater, hsorted⟩ := pairwise_cons.mp hsorted
    cases hx : sooner time now found x with
    | true =>
      rw [List.find?_cons_of_pos hx]
      exact h.take hx hlater
    | false =>
      rw [List.find?_cons_of_neg (by simp [hx]), append_cons]
      exact ih (h.skip hx) hsorted

theorem IsEarliest.foldl (xs : List α) : IsEarliest time now (items ++ xs)
      (xs.foldl (fun found x => if sooner time now found x then some x else found) found) := by
  induction xs generalizing items found with
  | nil => simpa using h
  | cons x xs ih =>
    rw [foldl_cons, append_cons]
    cases hx : sooner time now found x with
    | true => exact ih (h.take hx fun _ hy => absurd hy not_mem_nil)
    | false => exact ih (h.skip hx)

theorem IsEarliest.mono (hsub : items ⊆ items')
    (htimes : ∀ x ∈ items', now < time x → ∃ y ∈ items, time y = time x) : IsEarliest time now items' found := by
  cases found with
  | none =>
    refine fun x hx => not_lt.mp fun hnow => ?_
    obtain ⟨y, hy, heq⟩ := htimes x hx hnow
    exact absurd (heq ▸ h y hy) (not_le.mpr hnow)
  | some first =>
    refine ⟨hsub h.1, h.2.1, fun x hx hnow => ?_⟩
    obtain ⟨y, hy, heq⟩ := htimes x hx hnow
    exact heq ▸ h.2.2 y hy (heq ▸ hnow)

theorem IsEarliest.times : IsEarliest id now (items.map time) (found.map time) := by
  cases found with
  | none => exact forall_mem_map.mpr h
  | some first => exact ⟨mem_map_of_mem h.1, h.2.1, forall_mem_map.mpr h.2.2⟩

omit h

theorem IsEarliest.unique {ts ts' : List T} {t t' : Option T} (h : IsEarliest id now ts t)
    (h' : IsEarliest id now ts' t') (hsame : ∀ t, t ∈ ts ↔ t ∈ ts') : t = t' := by
  cases t with
  | none =>
    cases t' with
    | none => rfl
    | some t' => exact absurd h'.2.1 (not_lt.mpr (h t' ((hsame t').mpr h'.1)))
  | some t =>
    cases t' with
    | none => exact absurd h.2.1 (not_lt.mpr (h' t ((hsame t).mp h.1)))
    | some t' =>
      exact congrArg some (le_antisymm (h.2.2 t' ((hsame t').mpr h'.1) h'.2.1) (h'.2.2 t ((hsame t).mp h.1) h.2.1))

theorem IsEarliest.filter (h : IsEarliest time now items found) {before : T} (hle : before ≤ now) :
    IsEarliest time now (items.filter fun x => decide (before < time x)) found := by
  cases found with
  | none => exact fun x hx => h x (mem_of_mem_filter hx)
  | some first =>
    refine ⟨mem_filter.mpr ⟨h.1, ?_⟩, h.2.1, fun x hx => h.2.2 x (mem_of_mem_filter hx)⟩
    exact decide_eq_true (lt_of_le_of_lt hle h.2.1)

theorem goesOff {next : T → Option α} (h : ∀ later, now ≤ later → IsEarliest time later items (next later)) {x : α}
    (hx : x ∈ items) (hlt : now < time x) : GoesOff time next now (time x) := by
  induction hn : items.length using Nat.strongRecOn generalizing items now with
  | _ n ih =>
    have hnow := h now (le_refl now)
    cases hfirst : next now with
    | none =>
      rw [hfirst] at hnow
      exact absurd hlt (not_lt.mpr (hnow x hx))
    | some first =>
      rw [hfirst] at hnow
      obtain ⟨hmem, hafter, hle⟩ := hnow
      rcases lt_or_eq_of_le (hle x hx hlt) with hless | heq
      · have hshort : (items.filter fun y => decide (time first < time y)).length < n := by
          rw [← hn, length_filter_lt_length_iff_exists]
          exact ⟨first, hmem, by simp⟩
        refine .later hfirst (ih _ hshort (fun later hlater => ?_) (mem_filter.mpr ⟨hx, by simpa⟩) hless rfl)
        exact (h later (le_trans (le_of_lt hafter) hlater)).filter hlater
      · exact heq ▸ .first hfirst

end Bearmail.Earliest
