import Mathlib.Order.Preorder.Finite

/-!
# Forests given by parent pointers

`parent x` is `none` when `x` does not exist, `some none` when `x` is a root, and
`some (some p)` when `p` is the parent of `x`. A forest is a parent map in which
every chain of parents ends at a root.
-/

namespace Parents

variable {ι : Type*}

inductive Rooted (parent : ι → Option (Option ι)) : ι → Prop
  | root {x : ι} (h : parent x = some none) : Rooted parent x
  | child {x p : ι} (h : parent x = some (some p)) (hp : Rooted parent p) : Rooted parent x

def Forest (parent : ι → Option (Option ι)) : Prop := ∀ x, parent x ≠ none → Rooted parent x

def IsParent (parent : ι → Option (Option ι)) (x p : ι) : Prop := parent x = some (some p)

abbrev OnPath (parent : ι → Option (Option ι)) : ι → ι → Prop :=
  Relation.ReflTransGen (IsParent parent)

variable {parent parent' : ι → Option (Option ι)}

variable {x : ι}

theorem Rooted.exists (h : Rooted parent x) : parent x ≠ none := by
  cases h with
  | root h | child h _ => simp [h]

theorem Rooted.of_isParent {p : ι} (h : Rooted parent x) (hp : IsParent parent x p) :
    Rooted parent p := by
  cases h with
  | root h => rw [IsParent, h] at hp; cases hp
  | child h hq =>
    rw [IsParent, h] at hp
    cases hp
    exact hq

theorem Forest.parent_exists (h : Forest parent) {p : ι} (hp : IsParent parent x p) :
    parent p ≠ none := by
  have hx : parent x ≠ none := by
    rw [hp]
    exact Option.some_ne_none _
  exact ((h x hx).of_isParent hp).exists

theorem Forest.onPath_exists (h : Forest parent) {y : ι} (hx : parent x ≠ none)
    (hpath : OnPath parent x y) : parent y ≠ none := by
  induction hpath with
  | refl => exact hx
  | tail _ hstep _ => exact h.parent_exists hstep

theorem Rooted.not_ancestor (h : Rooted parent x) : ¬ Relation.TransGen (IsParent parent) x x := by
  induction h with
  | root h =>
    intro hx
    obtain ⟨p, hp, -⟩ := Relation.TransGen.head'_iff.mp hx
    rw [IsParent, h] at hp
    cases hp
  | child h _ ih =>
    intro hx
    obtain ⟨q, hq, hrest⟩ := Relation.TransGen.head'_iff.mp hx
    have heq := hq
    rw [IsParent, h] at heq
    cases heq
    exact ih (Relation.TransGen.tail' hrest hq)

theorem Forest.not_ancestor (h : Forest parent) (x : ι) : ¬ Relation.TransGen (IsParent parent) x x := by
  intro hx
  obtain ⟨p, hp, -⟩ := Relation.TransGen.head'_iff.mp hx
  have hexists : parent x ≠ none := by
    rw [hp]
    exact Option.some_ne_none _
  exact (h x hexists).not_ancestor hx

theorem onPath_total {y z : ι} (hy : OnPath parent x y) (hz : OnPath parent x z) :
    OnPath parent y z ∨ OnPath parent z y := by
  refine Relation.ReflTransGen.total_of_right_unique ?_ hy hz
  intro a b c hb hc
  rw [IsParent, hb] at hc
  cases hc
  rfl

/-- A chain that meets only nodes with the same parent, or nodes already known to be rooted,
stays rooted. -/
theorem Rooted.transfer {q : ι} (h : Rooted parent q)
    (hstep : ∀ y, OnPath parent q y → Rooted parent' y ∨ parent' y = parent y) :
    Rooted parent' q := by
  induction h with
  | @root x hx =>
    rcases hstep x .refl with hr | heq
    · exact hr
    · exact .root (heq.trans hx)
  | @child x p hx _ ih =>
    rcases hstep x .refl with hr | heq
    · exact hr
    · exact .child (heq.trans hx) (ih fun y hy => hstep y (.head hx hy))

section Changes

theorem Forest.insert (h : Forest parent) {p : Option ι} (hfresh : parent x = none)
    (hp : ∀ q, p = some q → parent q ≠ none) (hx : parent' x = some p)
    (hsame : ∀ y, y ≠ x → parent' y = parent y) : Forest parent' := by
  have hold : ∀ y, Rooted parent y → Rooted parent' y := by
    intro y hy
    refine hy.transfer fun z hz => Or.inr (hsame z ?_)
    rintro rfl
    exact h.onPath_exists hy.exists hz hfresh
  intro y hy
  by_cases hyx : y = x
  · subst hyx
    cases p with
    | none => exact .root hx
    | some q => exact .child hx (hold q (h q (hp q rfl)))
  · rw [hsame y hyx] at hy
    exact hold y (h y hy)

theorem Forest.onPath_of_insert (h : Forest parent) {y z : ι} (hfresh : parent x = none)
    (hsame : ∀ y, y ≠ x → parent' y = parent y) (hy : parent y ≠ none)
    (hpath : OnPath parent' y z) :
    OnPath parent y z := by
  induction hpath using Relation.ReflTransGen.head_induction_on with
  | refl => exact .refl
  | @head y w hstep _ ih =>
    have hyx : y ≠ x := fun heq => hy (heq ▸ hfresh)
    rw [IsParent, hsame y hyx] at hstep
    exact .head hstep (ih (h.parent_exists hstep))

theorem Forest.erase (h : Forest parent) (hleaf : ∀ y, ¬ IsParent parent y x)
    (hx : parent' x = none) (hsame : ∀ y, y ≠ x → parent' y = parent y) : Forest parent' := by
  intro y hy
  have hyx : y ≠ x := by
    rintro rfl
    exact hy hx
  have hexists := hy
  rw [hsame y hyx] at hexists
  refine (h y hexists).transfer fun z hz => Or.inr (hsame z ?_)
  rintro rfl
  cases hz with
  | refl => exact hyx rfl
  | tail _ hstep => exact hleaf _ hstep

/-- `m` goes below the place `m'` had, and `m'` is moved as well. -/
def Circles (parent : ι → Option (Option ι)) (moves : ι → ι → Prop) (m m' : ι) : Prop :=
  ∃ q, moves m q ∧ OnPath parent q m' ∧ ∃ q', moves m' q'

theorem Forest.move_of_wellFounded (h : Forest parent) {moves : ι → ι → Prop}
    (hexists : ∀ x, parent' x ≠ none → parent x ≠ none)
    (htarget : ∀ m q, moves m q → parent q ≠ none)
    (hmoved : ∀ x, parent' x = parent x ∨ parent' x = some none ∨
      ∃ q, parent' x = some (some q) ∧ moves x q)
    (hwf : WellFounded fun m' m => Circles parent moves m m') : Forest parent' := by
  -- First the moved nodes, by induction along the circles that are not there.
  have hmove : ∀ m q, moves m q → Rooted parent' q := by
    intro m
    induction m using hwf.induction with
    | _ m ih =>
      intro q hq
      refine (h q (htarget m q hq)).transfer fun y hy => ?_
      rcases hmoved y with hsame | hroot | ⟨r, hr, hyr⟩
      · exact Or.inr hsame
      · exact Or.inl (.root hroot)
      · exact Or.inl (.child hr (ih y ⟨q, hq, hy, r, hyr⟩ r hyr))
  intro x hx
  refine (h x (hexists x hx)).transfer fun y _ => ?_
  rcases hmoved y with hsame | hroot | ⟨r, hr, hyr⟩
  · exact Or.inr hsame
  · exact Or.inl (.root hroot)
  · exact Or.inl (.child hr (hmove y r hyr))

end Changes

theorem wellFounded_of_no_circle {r : ι → ι → Prop} {s : Set ι} (hs : s.Finite)
    (hr : ∀ a b, r a b → a ∈ s) (hno : ∀ a, ¬ Relation.TransGen r a a) :
    WellFounded fun b a => r a b := by
  rw [wellFounded_iff_isEmpty_descending_chain]
  refine ⟨fun ⟨f, hf⟩ => ?_⟩
  have hchain : ∀ i k, Relation.TransGen r (f i) (f (i + k + 1)) := by
    intro i k
    induction k with
    | zero => exact .single (hf i)
    | succ k ih => exact ih.tail (hf (i + k + 1))
  have hmem : ∀ n, f n ∈ s := fun n => hr _ _ (hf n)
  obtain ⟨i, j, hlt, heq⟩ := Set.Finite.exists_lt_map_eq_of_forall_mem hmem hs
  have hcycle := hchain i (j - i - 1)
  rw [show i + (j - i - 1) + 1 = j by omega, ← heq] at hcycle
  exact hno _ hcycle

theorem forest_of_acyclic {s : Set ι} (hs : s.Finite) (hmem : ∀ x, parent x ≠ none → x ∈ s)
    (hexists : ∀ x p, IsParent parent x p → parent p ≠ none)
    (hno : ∀ x, ¬ Relation.TransGen (IsParent parent) x x) : Forest parent := by
  have hr : ∀ x p, IsParent parent x p → x ∈ s := by
    intro x p hp
    refine hmem x ?_
    rw [hp]
    exact Option.some_ne_none _
  have hwf := wellFounded_of_no_circle hs hr hno
  intro x
  induction x using hwf.induction with
  | _ x ih =>
    intro hx
    obtain ⟨p, hp⟩ := Option.ne_none_iff_exists'.mp hx
    cases p with
    | none => exact .root hp
    | some p => exact .child hp (ih p hp (hexists x p hp))

theorem Forest.move (h : Forest parent) {moves : ι → ι → Prop} {s : Set ι} (hs : s.Finite)
    (hmem : ∀ m q, moves m q → m ∈ s)
    (hexists : ∀ x, parent' x ≠ none → parent x ≠ none)
    (htarget : ∀ m q, moves m q → parent q ≠ none)
    (hmoved : ∀ x, parent' x = parent x ∨ parent' x = some none ∨
      ∃ q, parent' x = some (some q) ∧ moves x q)
    (hno : ∀ m, ¬ Relation.TransGen (Circles parent moves) m m) : Forest parent' := by
  refine h.move_of_wellFounded hexists htarget hmoved (wellFounded_of_no_circle hs ?_ hno)
  rintro a b ⟨q, hq, -⟩
  exact hmem a q hq

theorem Forest.moveOne (h : Forest parent) {p : Option ι} (hx : parent x ≠ none)
    (hp : ∀ q, p = some q → parent q ≠ none ∧ ¬ OnPath parent q x) (hmoved : parent' x = some p)
    (hsame : ∀ y, y ≠ x → parent' y = parent y) : Forest parent' := by
  have hmem : ∀ m q, (m = x ∧ p = some q) → m ∈ ({x} : Set ι) := fun m q hm => hm.1
  refine h.move (Set.finite_singleton x) hmem ?_ (fun m q hm => (hp q hm.2).1) ?_ ?_
  · intro y hy
    by_cases hyx : y = x
    · rwa [hyx]
    · rwa [hsame y hyx] at hy
  · intro y
    by_cases hyx : y = x
    · cases hq : p with
      | none => exact Or.inr (Or.inl (by rw [hyx, hmoved, hq]))
      | some q => exact Or.inr (Or.inr ⟨q, by rw [hyx, hmoved, hq], hyx, rfl⟩)
    · exact Or.inl (hsame y hyx)
  · intro m hcircle
    obtain ⟨m', ⟨q, ⟨-, hq⟩, hpath, q', hm', -⟩, -⟩ := Relation.TransGen.head'_iff.mp hcircle
    exact (hp q hq).2 (hm' ▸ hpath)

end Parents
