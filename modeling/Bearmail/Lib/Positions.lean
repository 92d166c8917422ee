import Mathlib.Data.List.Sort

/-!
# Positions in lists

A list whose elements are removed by position, each position counted in the list
as it is then: positions `p₀ < p₁ < …` of the original list are removed by
removing `p₀`, `p₁ - 1`, `p₂ - 2` and so on. And a list of pairs whose two columns
are sorted independently.
-/

namespace Positions

open List

universe u

variable {α : Type u}

/-- Remove the positions `ps` of the original list, after `k` removals in front of them. -/
def eraseShifted : List Nat → Nat → List α → List α
  | [], _, l => l
  | p :: ps, k, l => eraseShifted ps (k + 1) (l.eraseIdx (p - k))

def dropPositions (ps : List Nat) : Nat → List α → List α
  | _, [] => []
  | b, x :: l => if b ∈ ps then dropPositions ps (b + 1) l else x :: dropPositions ps (b + 1) l

theorem dropPositions_congr {ps qs : List Nat} (b : Nat) (l : List α)
    (h : ∀ n, b ≤ n → (n ∈ ps ↔ n ∈ qs)) : dropPositions ps b l = dropPositions qs b l := by
  induction l generalizing b with
  | nil => rfl
  | cons x l ih =>
    have hb := h b (Nat.le_refl b)
    have ht := ih (b + 1) fun n hn => h n (by omega)
    simp [dropPositions, hb, ht]

variable (ps : List Nat)

/-- `pre` holds what was kept of the positions below `b`, so `k` removals shift
the position `b` to the end of `pre`. -/
theorem eraseShifted_append (hps : ps.Pairwise (· < ·)) (k b : Nat) (pre l : List α)
    (hpre : pre.length + k = b) (hlow : ∀ p ∈ ps, b ≤ p) :
    eraseShifted ps k (pre ++ l) = pre ++ dropPositions ps b l := by
  induction l generalizing ps k b pre with
  | nil =>
    -- positions past the end remove nothing
    have hend (ps : List Nat) (k : Nat) (hlow : ∀ p ∈ ps, pre.length + k ≤ p)
        (hps : ps.Pairwise (· < ·)) : eraseShifted ps k pre = pre := by
      induction ps generalizing k with
      | nil => rfl
      | cons p ps ih =>
        obtain ⟨hp, hps⟩ := pairwise_cons.mp hps
        have hle := hlow p mem_cons_self
        rw [eraseShifted, eraseIdx_of_length_le (by omega)]
        refine ih (k + 1) (fun q hq => ?_) hps
        have := hp q hq
        omega
    rw [dropPositions, List.append_nil]
    exact hend ps k (fun p hp => by have := hlow p hp; omega) hps
  | cons x l ih =>
    have hkeep (hb : b ∉ ps) :
        eraseShifted ps k (pre ++ x :: l) = pre ++ dropPositions ps b (x :: l) := by
      have hlow' : ∀ p ∈ ps, b + 1 ≤ p := by
        intro p hp
        have hle := hlow p hp
        have hne : b ≠ p := fun he => hb (he ▸ hp)
        omega
      have h := ih ps hps k (b + 1) (pre ++ [x]) (by simp; omega) hlow'
      rw [dropPositions, if_neg hb]
      simpa using h
    cases ps with
    | nil => exact hkeep not_mem_nil
    | cons p ps =>
      by_cases hp : p = b
      · subst hp
        obtain ⟨hfirst, hps'⟩ := pairwise_cons.mp hps
        have hidx : p - k = pre.length := by omega
        have herase : (pre ++ x :: l).eraseIdx pre.length = pre ++ l := by
          simp [eraseIdx_append_of_length_le]
        rw [eraseShifted, hidx, herase, ih ps hps' (k + 1) (p + 1) pre (by omega)
          (fun q hq => hfirst q hq), dropPositions, if_pos mem_cons_self]
        congr 1
        apply dropPositions_congr
        intro n hn
        constructor
        · exact fun h => mem_cons_of_mem p h
        · intro h
          rcases mem_cons.mp h with rfl | h
          · omega
          · exact h
      · refine hkeep ?_
        intro hb
        rcases mem_cons.mp hb with he | hb
        · exact hp he.symm
        · have h1 := (pairwise_cons.mp hps).1 b hb
          have h2 := hlow p mem_cons_self
          omega

theorem eraseShifted_eq (hps : ps.Pairwise (· < ·)) (l : List α) :
    eraseShifted ps 0 l = dropPositions ps 0 l := by
  have h := eraseShifted_append ps hps 0 0 [] l rfl (fun _ _ => Nat.zero_le _)
  simpa using h

theorem dropPositions_eq_filter (keep : α → Bool) (b : Nat) (l : List α)
    (h : ∀ k (hk : k < l.length), keep (l.get ⟨k, hk⟩) = true ↔ b + k ∉ ps) :
    dropPositions ps b l = l.filter keep := by
  induction l generalizing b with
  | nil => rfl
  | cons x l ih =>
    have hx := h 0 (by simp)
    have ht := ih (b + 1) fun k hk => by
      have := h (k + 1) (by simpa using hk)
      simpa [Nat.add_assoc, Nat.add_comm 1 k] using this
    simp only [get_eq_getElem, getElem_cons_zero, Nat.add_zero] at hx
    rw [dropPositions, ht, filter_cons]
    by_cases hb : b ∈ ps
    · have hk : keep x = false := by
        rw [Bool.eq_false_iff]
        exact fun hk => hx.mp hk hb
      rw [if_pos hb, hk]
      rfl
    · simp [hb, hx.mpr hb]

/-- A sorted list whose new elements are above all old ones consists of the old
elements that are left, followed by the new ones. -/
theorem eq_append_of_sorted [LinearOrder α] {old new : List α} (hold : old.Pairwise (· < ·))
    (hnew : new.Pairwise (· < ·)) (habove : ∀ x ∈ new, x ∈ old ∨ ∀ y ∈ old, y < x) :
    new = old.filter (fun x => decide (x ∈ new)) ++ new.filter (fun x => decide (x ∉ old)) := by
  refine hnew.eq_of_mem_iff (pairwise_append.mpr ⟨hold.filter _, hnew.filter _, ?_⟩) ?_
  · intro y hy x hx
    have hx' := mem_filter.mp hx
    have hnot : x ∉ old := by simpa using hx'.2
    exact (habove x hx'.1).resolve_left hnot y (mem_filter.mp hy).1
  · intro x
    by_cases hx : x ∈ old
    · simp [hx]
    · simp [hx]

theorem pairwise_lt_mergeSort [LinearOrder α] {l : List α} (h : l.Nodup) :
    (l.mergeSort (fun a b => decide (a ≤ b))).Pairwise (· < ·) := by
  have hle : (l.mergeSort (fun a b => decide (a ≤ b))).Pairwise (fun a b => decide (a ≤ b) = true) := by
    apply pairwise_mergeSort
    · intro a b c hab hbc
      rw [decide_eq_true_eq] at hab hbc ⊢
      exact hab.trans hbc
    · intro a b
      simpa using le_total a b
  have hne : (l.mergeSort (fun a b => decide (a ≤ b))).Nodup :=
    (mergeSort_perm _ _).nodup_iff.mpr h
  refine (hle.and hne).imp ?_
  rintro a b ⟨hab, hne⟩
  rw [decide_eq_true_eq] at hab
  exact lt_of_le_of_ne hab hne

theorem mergeSort_of_perm [LinearOrder α] {l l' : List α} (hp : l'.Perm l)
    (hs : l.Pairwise (· < ·)) : l'.mergeSort (fun a b => decide (a ≤ b)) = l := by
  have hnodup : l'.Nodup := hp.nodup_iff.mpr (hs.imp ne_of_lt)
  refine (pairwise_lt_mergeSort hnodup).eq_of_mem_iff hs ?_
  intro x
  rw [mem_mergeSort, hp.mem_iff]

theorem lt_iff_lt_of_pairwise {l : List α} {p : α → Prop} {f g : α → Nat}
    (h : l.Pairwise fun x y => p x → p y → f x < f y ∧ g x < g y) {x y : α} (hx : x ∈ l)
    (hy : y ∈ l) (hpx : p x) (hpy : p y) : f x < f y ↔ g x < g y := by
  obtain ⟨i, hi, rfl⟩ := getElem_of_mem hx
  obtain ⟨j, hj, rfl⟩ := getElem_of_mem hy
  rcases Nat.lt_trichotomy i j with hij | rfl | hij
  · obtain ⟨hf, hg⟩ := pairwise_iff_getElem.mp h i j hi hj hij hpx hpy
    exact ⟨fun _ => hg, fun _ => hf⟩
  · exact ⟨fun hlt => absurd hlt (lt_irrefl _), fun hlt => absurd hlt (lt_irrefl _)⟩
  · obtain ⟨hf, hg⟩ := pairwise_iff_getElem.mp h j i hj hi hij hpy hpx
    exact ⟨fun hlt => absurd hlt (lt_asymm hf), fun hlt => absurd hlt (lt_asymm hg)⟩

theorem pairwise_idxOf [BEq α] [LawfulBEq α] {l : List α} (h : l.Nodup) :
    l.Pairwise fun x y => l.idxOf x < l.idxOf y := by
  rw [pairwise_iff_getElem]
  intro i j hi hj hij
  rwa [h.idxOf_getElem i hi, h.idxOf_getElem j hj]

/-! ## Sorting the columns of a list of pairs -/

def Paired {β : Type u} (l : List (α × β)) (xs : List α) (ys : List β) : Prop :=
  ∀ (k : Nat) x y, xs[k]? = some x → ys[k]? = some y → (x, y) ∈ l

theorem pairwise_lt_mergeSort_fst {β : Type u} [LinearOrder α] {l : List (α × β)}
    (h : (l.map Prod.fst).Nodup) :
    (l.mergeSort fun p q => decide (p.1 ≤ q.1)).Pairwise fun p q => p.1 < q.1 := by
  have hle : (l.mergeSort fun p q => decide (p.1 ≤ q.1)).Pairwise
      (fun p q => decide (p.1 ≤ q.1) = true) := by
    apply pairwise_mergeSort
    · intro p q r hpq hqr
      rw [decide_eq_true_eq] at hpq hqr ⊢
      exact hpq.trans hqr
    · intro p q
      simpa using le_total p.1 q.1
  have hne : (l.mergeSort fun p q => decide (p.1 ≤ q.1)).Pairwise fun p q => p.1 ≠ q.1 := by
    rw [← pairwise_map]
    exact ((mergeSort_perm l _).map Prod.fst).nodup_iff.mpr h
  refine (hle.and hne).imp ?_
  rintro p q ⟨hpq, hne⟩
  rw [decide_eq_true_eq] at hpq
  exact lt_of_le_of_ne hpq hne

variable {β : Type u} [LinearOrder α] [LinearOrder β] {l : List (α × β)}

variable (hfst : (l.map Prod.fst).Nodup)
include hfst

theorem paired_of_monotone (hmono : ∀ p ∈ l, ∀ q ∈ l, p.1 < q.1 → p.2 < q.2) :
    Paired l ((l.map Prod.fst).mergeSort fun a b => decide (a ≤ b))
      ((l.map Prod.snd).mergeSort fun a b => decide (a ≤ b)) := by
  -- `rows` is the list sorted by its first column: both of its columns are sorted.
  set rows := l.mergeSort fun p q => decide (p.1 ≤ q.1) with hrows
  have hperm : rows.Perm l := mergeSort_perm l _
  have hsorted : rows.Pairwise fun p q => p.1 < q.1 := pairwise_lt_mergeSort_fst hfst
  have hsecond : rows.Pairwise fun p q => p.2 < q.2 :=
    hsorted.imp_of_mem fun hp hq hlt =>
      hmono _ (hperm.mem_iff.mp hp) _ (hperm.mem_iff.mp hq) hlt
  rw [mergeSort_of_perm (hperm.map Prod.fst).symm (pairwise_map.mpr hsorted),
    mergeSort_of_perm (hperm.map Prod.snd).symm (pairwise_map.mpr hsecond)]
  intro k x y hx hy
  rw [List.getElem?_map, Option.map_eq_some_iff] at hx hy
  obtain ⟨p, hp, rfl⟩ := hx
  obtain ⟨q, hq, rfl⟩ := hy
  rw [hp, Option.some.injEq] at hq
  subst hq
  exact hperm.mem_iff.mp (mem_of_getElem? hp)

theorem monotone_of_paired (hsnd : (l.map Prod.snd).Nodup)
    (h : Paired l ((l.map Prod.fst).mergeSort fun a b => decide (a ≤ b))
      ((l.map Prod.snd).mergeSort fun a b => decide (a ≤ b))) :
    ∀ p ∈ l, ∀ q ∈ l, p.1 < q.1 → p.2 < q.2 := by
  have hlen : ((l.map Prod.snd).mergeSort fun a b => decide (a ≤ b)).length =
      ((l.map Prod.fst).mergeSort fun a b => decide (a ≤ b)).length := by simp
  have hxs := pairwise_lt_mergeSort hfst
  have hys := pairwise_lt_mergeSort hsnd
  -- every row of `l` stands at some place of the sorted columns
  have hplace : ∀ p ∈ l, ∃ k : Nat, ((l.map Prod.fst).mergeSort fun a b => decide (a ≤ b))[k]? =
      some p.1 ∧ ((l.map Prod.snd).mergeSort fun a b => decide (a ≤ b))[k]? = some p.2 := by
    intro p hp
    have hmem : p.1 ∈ (l.map Prod.fst).mergeSort fun a b => decide (a ≤ b) :=
      mem_mergeSort.mpr (mem_map_of_mem hp)
    obtain ⟨k, hk, hkp⟩ := getElem_of_mem hmem
    have hk' := hk
    rw [← hlen] at hk'
    have hx := List.getElem?_eq_some_iff.mpr ⟨hk, hkp⟩
    refine ⟨k, hx, ?_⟩
    have hrow := h k _ _ hx (List.getElem?_eq_getElem hk')
    have heq := inj_on_of_nodup_map hfst hrow hp rfl
    rw [List.getElem?_eq_getElem hk', ← heq]
  intro p hp q hq hlt
  obtain ⟨i, hi, hi'⟩ := hplace p hp
  obtain ⟨j, hj, hj'⟩ := hplace q hq
  obtain ⟨hil, hie⟩ := List.getElem?_eq_some_iff.mp hi
  obtain ⟨hjl, hje⟩ := List.getElem?_eq_some_iff.mp hj
  obtain ⟨hil', hie'⟩ := List.getElem?_eq_some_iff.mp hi'
  obtain ⟨hjl', hje'⟩ := List.getElem?_eq_some_iff.mp hj'
  have hij : i < j := by
    rcases Nat.lt_trichotomy i j with hij | rfl | hij
    · exact hij
    · rw [← hie, ← hje] at hlt
      exact absurd hlt (lt_irrefl _)
    · have hgt := pairwise_iff_getElem.mp hxs j i hjl hil hij
      rw [hie, hje] at hgt
      exact absurd hlt (lt_asymm hgt)
  have hfinal := pairwise_iff_getElem.mp hys i j hil' hjl' hij
  rwa [hie', hje'] at hfinal

/-- Sorted independently, the columns belong together exactly when the second is in the
order of the first. -/
theorem paired_sort_iff (hsnd : (l.map Prod.snd).Nodup) :
    Paired l ((l.map Prod.fst).mergeSort fun a b => decide (a ≤ b))
        ((l.map Prod.snd).mergeSort fun a b => decide (a ≤ b)) ↔
      ∀ p ∈ l, ∀ q ∈ l, p.1 < q.1 → p.2 < q.2 :=
  ⟨monotone_of_paired hfst hsnd, paired_of_monotone hfst⟩

omit hfst

end Positions
