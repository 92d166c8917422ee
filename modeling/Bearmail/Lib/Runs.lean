import Mathlib.Data.List.Forall2

/-!
# Labelled runs

A system given by a partial step function over labels, its runs, and the rules of invariants and of
related pairs for runs all of whose steps meet a condition.
-/

namespace Runs

variable {σ ℓ : Type*} (step : σ → ℓ → Option σ)

def run : σ → List ℓ → Option σ
  | s, [] => some s
  | s, l :: ls => (step s l).bind fun next => run next ls

/-- Every step of a run meets a condition on the state before it and on its label. -/
def Along (cond : σ → ℓ → Prop) : σ → List ℓ → Prop
  | _, [] => True
  | s, l :: ls => cond s l ∧ ∀ next, step s l = some next → Along cond next ls

variable {step}

variable {s s' : σ} {ls ls' : List ℓ}

theorem run_cons {l : ℓ} (h : run step s (l :: ls) = some s') :
    ∃ next, step s l = some next ∧ run step next ls = some s' :=
  Option.bind_eq_some_iff.mp h

theorem run_append : run step s (ls ++ ls') = (run step s ls).bind fun next => run step next ls' := by
  induction ls generalizing s with
  | nil => rfl
  | cons l ls ih => simp [run, ih, Option.bind_assoc]

theorem Along.mono {cond cond' : σ → ℓ → Prop} (hmono : ∀ s l, cond s l → cond' s l)
    (h : Along step cond s ls) : Along step cond' s ls := by
  induction ls generalizing s with
  | nil => trivial
  | cons l ls ih => exact ⟨hmono s l h.1, fun next hnext => ih (h.2 next hnext)⟩

theorem Along.and {cond cond' : σ → ℓ → Prop} (h : Along step cond s ls)
    (h' : Along step cond' s ls) : Along step (fun s l => cond s l ∧ cond' s l) s ls := by
  induction ls generalizing s with
  | nil => trivial
  | cons l ls ih =>
    exact ⟨⟨h.1, h'.1⟩, fun next hnext => ih (h.2 next hnext) (h'.2 next hnext)⟩

variable {cond : σ → ℓ → Prop}

theorem Along.of_append (h : Along step cond s (ls ++ ls'))
    (hrun : run step s ls = some s') : Along step cond s ls ∧ Along step cond s' ls' := by
  induction ls generalizing s with
  | nil =>
    cases hrun
    exact ⟨trivial, h⟩
  | cons l ls ih =>
    obtain ⟨next, hnext, hrest⟩ := run_cons hrun
    refine ⟨⟨h.1, fun other hother => ?_⟩, (ih (h.2 next hnext) hrest).2⟩
    cases hnext.symm.trans hother
    exact (ih (h.2 next hnext) hrest).1

theorem Along.append (h : Along step cond s ls)
    (h' : ∀ s', run step s ls = some s' → Along step cond s' ls') :
    Along step cond s (ls ++ ls') := by
  induction ls generalizing s with
  | nil => exact h' s rfl
  | cons l ls ih =>
    refine ⟨h.1, fun next hnext => ih (h.2 next hnext) fun s' hrun => h' s' ?_⟩
    rw [run, hnext]
    exact hrun

instance decidableAlong {cond : σ → ℓ → Prop} [∀ s l, Decidable (cond s l)] (s : σ) :
    (ls : List ℓ) → Decidable (Along step cond s ls)
  | [] => isTrue trivial
  | l :: ls =>
    have : Decidable (∀ next, step s l = some next → Along step cond next ls) :=
      match step s l with
      | none => isTrue fun _ hnext => nomatch hnext
      | some next =>
        have : Decidable (Along step cond next ls) := decidableAlong next ls
        decidable_of_iff (Along step cond next ls)
          ⟨fun halong _ hnext => Option.some.inj hnext ▸ halong, fun halong => halong next rfl⟩
    inferInstanceAs (Decidable (_ ∧ _))

theorem along_of_forall {cond : ℓ → Prop} (h : ∀ l ∈ ls, cond l) (s : σ) :
    Along step (fun _ l => cond l) s ls := by
  induction ls generalizing s with
  | nil => trivial
  | cons l ls ih =>
    exact ⟨h l List.mem_cons_self, fun next _ =>
      ih (fun l' hl' => h l' (List.mem_cons_of_mem _ hl')) next⟩

theorem run_invariant (inv : σ → Prop) (hstep : ∀ s l s', inv s → cond s l → step s l = some s' → inv s')
    (halong : Along step cond s ls) (hinv : inv s) (hrun : run step s ls = some s') : inv s' := by
  induction ls generalizing s with
  | nil => cases hrun; exact hinv
  | cons l ls ih =>
    obtain ⟨next, hnext, hrest⟩ := run_cons hrun
    exact ih (halong.2 next hnext) (hstep s l next hinv halong.1 hnext) hrest

/-- Two runs over related labels: a relation that every pair of steps preserves holds at the end. -/
theorem run_related {same : ℓ → ℓ → Prop} (related : σ → σ → Prop)
    (hstep : ∀ s t l l' s' t', related s t → same l l' → cond s l → cond t l' →
      step s l = some s' → step t l' = some t' → related s' t') {t t' : σ}
    (hsame : List.Forall₂ same ls ls') (hs : Along step cond s ls) (ht : Along step cond t ls')
    (hrelated : related s t) (hruns : run step s ls = some s') (hrunt : run step t ls' = some t') :
    related s' t' := by
  induction hsame generalizing s t with
  | nil =>
    cases hruns
    cases hrunt
    exact hrelated
  | @cons l l' ls ls' hl _ ih =>
    obtain ⟨snext, hsnext, hsrest⟩ := run_cons hruns
    obtain ⟨tnext, htnext, htrest⟩ := run_cons hrunt
    exact ih (hs.2 snext hsnext) (ht.2 tnext htnext)
      (hstep s t l l' snext tnext hrelated hl hs.1 ht.1 hsnext htnext) hsrest htrest

end Runs
