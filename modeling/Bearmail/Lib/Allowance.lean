import Mathlib.Data.Finset.Card

/-!
# Allowances

Threads share something of which only so much may be used. A thread looks whether it may go on and uses a
bounded amount later, when others have looked too. What has been used is then bounded together with what
the waiting threads may still use.
-/

namespace Allowance

variable {θ : Type*}

/-- When every waiting thread has used all that it may, no more than the bound is used. -/
def Within (waits : θ → Prop) (used cap bound : ℕ) : Prop :=
  ∀ ts : Finset θ, (∀ t ∈ ts, waits t) → used + cap * ts.card ≤ bound

variable {waits waits' : θ → Prop} {used cap bound : ℕ}

theorem Within.used_le (h : Within waits used cap bound) : used ≤ bound := by
  simpa using h ∅ (by simp)

theorem within_of_none (hnone : ∀ t, ¬ waits t) (hused : used ≤ bound) :
    Within waits used cap bound := by
  intro ts hts
  obtain rfl : ts = ∅ := Finset.eq_empty_of_forall_notMem fun t ht => hnone t (hts t ht)
  simpa using hused

theorem Within.mono (h : Within waits used cap bound) (hsub : ∀ t, waits' t → waits t) :
    Within waits' used cap bound :=
  fun ts hts => h ts fun t ht => hsub t (hts t ht)

theorem Within.spend [DecidableEq θ] (h : Within waits used cap bound) {t : θ} {n : ℕ}
    (ht : waits t) (hn : n ≤ cap) (hsub : ∀ t', waits' t' → t' ≠ t ∧ waits t') :
    Within waits' (used + n) cap bound := by
  intro ts hts
  have hnotMem : t ∉ ts := fun hmem => (hsub t (hts t hmem)).1 rfl
  have hall : ∀ t' ∈ insert t ts, waits t' := by
    intro t' ht'
    rcases Finset.mem_insert.mp ht' with rfl | hmem
    · exact ht
    · exact (hsub t' (hts t' hmem)).2
  have hbound := h (insert t ts) hall
  rw [Finset.card_insert_of_notMem hnotMem, Nat.mul_succ] at hbound
  omega

theorem Within.letThrough [DecidableEq θ] {line : ℕ} (h : Within waits used cap line) {t : θ}
    (hsub : ∀ t', waits' t' → t' = t ∨ waits t') : Within waits' used cap (line + cap) := by
  intro ts hts
  have hall : ∀ t' ∈ ts.erase t, waits t' := by
    intro t' ht'
    obtain ⟨hne, hmem⟩ := Finset.mem_erase.mp ht'
    exact (hsub t' (hts t' hmem)).resolve_left hne
  have hline := h (ts.erase t) hall
  have hcard : ts.card ≤ (ts.erase t).card + 1 := by
    have := Finset.pred_card_le_card_erase (s := ts) (a := t)
    omega
  have hmul : cap * ts.card ≤ cap * (ts.erase t).card + cap := by
    calc cap * ts.card ≤ cap * ((ts.erase t).card + 1) := Nat.mul_le_mul_left cap hcard
      _ = cap * (ts.erase t).card + cap := Nat.mul_succ ..
  omega

end Allowance
