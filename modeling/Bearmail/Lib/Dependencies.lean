import Mathlib.Data.List.Chain
import Mathlib.Data.List.Nodup

/-!
# Dependencies

A relation `r a b` for `a` depends on `b`: lists that are settled, in which everything comes after what it
depends on, and chains of dependencies.
-/

namespace Dependencies

open List

variable {α : Type*} {r : α → α → Prop}

def Acyclic (r : α → α → Prop) : Prop := ∀ a, ¬Relation.TransGen r a a

/-- Everything in a list comes after all that it depends on. -/
def Settled (r : α → α → Prop) (l : List α) : Prop :=
  ∀ before a after, l = before ++ a :: after → ∀ b, r a b → b ∈ before

theorem settled_nil : Settled r [] := by
  intro before a after h
  simp at h

variable {l : List α}

theorem Settled.concat (h : Settled r l) {a : α} (ha : ∀ b, r a b → b ∈ l) :
    Settled r (l ++ [a]) := by
  intro before a' after heq b hb
  rcases eq_nil_or_concat after with rfl | ⟨after, last, rfl⟩
  · obtain ⟨rfl, hlast⟩ := append_inj' heq rfl
    cases hlast
    exact ha b hb
  · rw [concat_eq_append, ← cons_append, ← append_assoc] at heq
    exact h before a' after (append_inj' heq rfl).1 b hb

theorem Settled.append {l' : List α} (h : Settled r l) (h' : ∀ a ∈ l', ∀ b, ¬r a b) :
    Settled r (l ++ l') := by
  induction l' generalizing l with
  | nil => rwa [List.append_nil]
  | cons a l' ih =>
    rw [append_cons]
    exact ih (h.concat fun b hb => absurd hb (h' a mem_cons_self b))
      fun a' ha' => h' a' (mem_cons_of_mem _ ha')

theorem Settled.of_append {l' : List α} (h : Settled r (l ++ l')) : Settled r l := by
  intro before a after heq b hb
  exact h before a (after ++ l') (by rw [heq, append_assoc, cons_append]) b hb

theorem Settled.transGen (h : Settled r l) {before after : List α} {a b : α}
    (heq : l = before ++ a :: after) (hab : Relation.TransGen r a b) : b ∈ before := by
  induction hab with
  | single hb => exact h before a after heq _ hb
  | tail _ hbc ih =>
    obtain ⟨first, rest, hfirst⟩ := append_of_mem ih
    have hmem := h first _ (rest ++ a :: after) (by rw [heq, hfirst, append_assoc, cons_append]) _ hbc
    rw [hfirst]
    exact mem_append_left _ hmem

theorem Settled.not_cycle (h : Settled r l) {a : α} (ha : a ∈ l) : ¬Relation.TransGen r a a := by
  intro hcycle
  induction hn : l.length using Nat.strongRecOn generalizing l with
  | _ n ih =>
    obtain ⟨before, after, heq⟩ := append_of_mem ha
    have hbefore := h.transGen heq hcycle
    have hlt : before.length < n := by
      rw [← hn, heq, length_append, length_cons]
      omega
    exact ih before.length hlt (Settled.of_append (heq ▸ h)) hbefore rfl

theorem nodup_of_isChain (h : Acyclic r) {chain : List α} (hchain : chain.IsChain r) : chain.Nodup := by
  have hpairs : chain.Pairwise (Relation.TransGen r) :=
    isChain_iff_pairwise.mp (hchain.imp fun _ _ => Relation.TransGen.single)
  refine hpairs.imp ?_
  rintro a b hab rfl
  exact h a hab

end Dependencies
