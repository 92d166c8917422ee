import Mathlib.Data.Finset.Basic

/-!
# Boolean groups written as flat, bracketed lists

A list of leaves, group openings and group closings is *well nested* when it is
the rendering of a `Forest`. A forest is kept in first-child, next-sibling form,
so that one structural recursion runs over the members of a group and over the
members of the groups among them.
-/

namespace Nested

universe u v w

inductive Op where
  | and
  | or
  | not
  deriving DecidableEq, Repr

inductive Forest (α : Type u) where
  | nil
  | leaf (a : α) (rest : Forest α)
  | group (op : Op) (members rest : Forest α)
  deriving DecidableEq, Repr

inductive Token (α : Type u) where
  | leaf (a : α)
  | opening (op : Op)
  | closing
  deriving DecidableEq, Repr

namespace Forest

variable {α : Type u} {β : Type v} {τ : Type w}

/-- The flat list of a forest, in a token type of the caller's choice. -/
def render (leaf : α → τ) (opening : Op → τ) (closing : τ) : Forest α → List τ
  | .nil => []
  | .leaf a rest => leaf a :: rest.render leaf opening closing
  | .group op members rest =>
    opening op :: (members.render leaf opening closing ++ closing :: rest.render leaf opening closing)

def tokens (f : Forest α) : List (Token α) := f.render .leaf .opening .closing

def append : Forest α → Forest α → Forest α
  | .nil, g => g
  | .leaf a rest, g => .leaf a (rest.append g)
  | .group op members rest, g => .group op members (rest.append g)

def map (g : α → β) : Forest α → Forest β
  | .nil => .nil
  | .leaf a rest => .leaf (g a) (rest.map g)
  | .group op members rest => .group op (members.map g) (rest.map g)

/-- `g` inside nested `Or` groups, the innermost first, each with one more leaf after it. -/
def inside : List α → Forest α → Forest α
  | [], g => g
  | u :: us, g => inside us (.group .or (g.append (.leaf u .nil)) .nil)

/-- Whether some member of the list itself is a group. -/
def hasGroup : Forest α → Bool
  | .nil => false
  | .leaf _ rest => rest.hasGroup
  | .group _ _ _ => true

def opens : Forest α → Nat
  | .nil => 0
  | .leaf _ rest => rest.opens
  | .group _ members rest => members.opens + rest.opens + 1

def members : Forest α → Nat
  | .nil => 0
  | .leaf _ rest => rest.members + 1
  | .group _ _ rest => rest.members + 1

def leaves : Forest α → List α
  | .nil => []
  | .leaf a rest => a :: rest.leaves
  | .group _ members rest => members.leaves ++ rest.leaves

attribute [local simp] render append map inside hasGroup opens members leaves

theorem append_nil (f : Forest α) : f.append .nil = f := by
  induction f with
  | nil => rfl
  | leaf a rest ih | group op members rest _ ih => rw [append, ih]

theorem map_append (g : α → β) (f h : Forest α) : (f.append h).map g = (f.map g).append (h.map g) := by
  induction f with
  | nil => rfl
  | leaf a rest ih | group op members rest _ ih => simp [append, map, ih]

theorem map_inside (g : α → β) (us : List α) (f : Forest α) :
    (inside us f).map g = inside (us.map g) (f.map g) := by
  induction us generalizing f with
  | nil => rfl
  | cons u us ih => simp [inside, ih, map, map_append]

theorem render_append (leaf : α → τ) (opening : Op → τ) (closing : τ) (f h : Forest α) :
    (f.append h).render leaf opening closing =
      f.render leaf opening closing ++ h.render leaf opening closing := by
  induction f with
  | nil => rfl
  | leaf a rest ih | group op members rest _ ih => simp [append, render, ih]

theorem members_append (f h : Forest α) : (f.append h).members = f.members + h.members := by
  induction f with
  | nil => simp [append, members]
  | leaf a rest ih | group op inner rest _ ih =>
    simp only [append, members, ih]
    omega

theorem map_render (g : τ → β) (leaf : α → τ) (opening : Op → τ) (closing : τ) (f : Forest α) :
    (f.render leaf opening closing).map g = f.render (g ∘ leaf) (g ∘ opening) (g closing) := by
  induction f with
  | nil => rfl
  | leaf a rest ih => simp [render, ih]
  | group op members rest ihm ih => simp [render, ihm, ih]

/-! ## Reading a flat list

The list is read from its end. The stack holds, for every group still to be
opened further left, the members already read. -/

def readStep : Token α → List (Forest α) → Option (List (Forest α))
  | .closing, stack => some (.nil :: stack)
  | .leaf a, f :: stack => some (.leaf a f :: stack)
  | .opening op, members :: rest :: stack => some (.group op members rest :: stack)
  | _, _ => none

def readStack : List (Token α) → Option (List (Forest α))
  | [] => some [.nil]
  | t :: ts => (readStack ts).bind (readStep t)

/-- The forest a flat list denotes; `none` for a list that is not well nested. -/
def read (ts : List (Token α)) : Option (Forest α) :=
  match readStack ts with
  | some [f] => some f
  | _ => none

theorem readStack_tokens_append (f : Forest α) {g : Forest α} {ts : List (Token α)}
    {stack : List (Forest α)} (h : readStack ts = some (g :: stack)) :
    readStack (f.tokens ++ ts) = some (f.append g :: stack) := by
  induction f generalizing g ts stack with
  | nil => exact h
  | leaf a rest ih =>
    have hr := ih h
    simp only [tokens] at hr
    simp [tokens, render, readStack, hr, readStep, append]
  | group op members rest ihm ih =>
    have hr := ih h
    have hc : readStack (.closing :: (rest.tokens ++ ts)) = some (.nil :: rest.append g :: stack) := by
      simp [readStack, hr, readStep]
    have hm := ihm hc
    simp only [tokens] at hm hc
    rw [append_nil] at hm
    simp [tokens, render, readStack, hm, readStep, append]

theorem read_tokens (f : Forest α) : read f.tokens = some f := by
  have h0 : readStack ([] : List (Token α)) = some [.nil] := rfl
  have h := readStack_tokens_append f h0
  rw [List.append_nil, append_nil] at h
  simp [read, h]

def unread : List (Forest α) → List (Token α)
  | [] => []
  | [f] => f.tokens
  | f :: g :: stack => f.tokens ++ .closing :: unread (g :: stack)

attribute [local simp] unread

theorem unread_readStep {t : Token α} {stack stack' : List (Forest α)}
    (hne : stack ≠ []) (h : readStep t stack = some stack') :
    unread stack' = t :: unread stack ∧ stack' ≠ [] := by
  cases t with
  | closing =>
    cases stack with
    | nil => exact absurd rfl hne
    | cons f stack =>
      simp only [readStep, Option.some.injEq] at h
      subst h
      exact ⟨by simp [unread, tokens, render], by simp⟩
  | leaf a =>
    cases stack with
    | nil => exact absurd rfl hne
    | cons f stack =>
      simp only [readStep, Option.some.injEq] at h
      subst h
      cases stack <;> simp [unread, tokens, render]
  | opening op =>
    match stack, h with
    | members :: rest :: stack, h =>
      simp only [readStep, Option.some.injEq] at h
      subst h
      cases stack <;> simp [unread, tokens, render]

theorem unread_readStack {ts : List (Token α)} {stack : List (Forest α)}
    (h : readStack ts = some stack) : unread stack = ts ∧ stack ≠ [] := by
  induction ts generalizing stack with
  | nil =>
    simp only [readStack, Option.some.injEq] at h
    subst h
    simp [unread, tokens, render]
  | cons t ts ih =>
    obtain ⟨mid, hmid, hstep⟩ := Option.bind_eq_some_iff.mp h
    obtain ⟨hu, hne⟩ := ih hmid
    obtain ⟨hu', hne'⟩ := unread_readStep hne hstep
    exact ⟨by rw [hu', hu], hne'⟩

theorem tokens_of_read {ts : List (Token α)} {f : Forest α} (h : read ts = some f) :
    ts = f.tokens := by
  unfold read at h
  split at h
  · rename_i g hs
    cases h
    have hu := (unread_readStack hs).1
    simpa [unread] using hu.symm
  · cases h

end Forest

/-! ## The reference meaning of a group

`M` is the universe the complement is taken in. A leaf may be declared not to be
a member at all (`v a = none`): it then has no influence on its group. -/

variable (op : Op)

section Meaning

variable {α : Type u} {D : Type v} [DecidableEq D]

/-- Intersection, union, or complement of the union, of the values of the members. -/
def Op.combine (M : Finset D) : Op → List (Finset D) → Finset D
  | .and, xs => xs.foldr (· ∩ ·) M
  | .or, xs => xs.foldr (· ∪ ·) ∅
  | .not, xs => M \ xs.foldr (· ∪ ·) ∅

/-- The values of the members of a group, groups among them combined recursively. -/
def Forest.values (M : Finset D) (v : α → Option (Finset D)) : Forest α → List (Finset D)
  | .nil => []
  | .leaf a rest => (v a).toList ++ rest.values M v
  | .group op members rest => op.combine M (members.values M v) :: rest.values M v

attribute [local simp] Forest.values

theorem Forest.values_map {β : Type*} (M : Finset D) (v : β → Option (Finset D)) (g : α → β)
    (f : Forest α) : (f.map g).values M v = f.values M (v ∘ g) := by
  induction f with
  | nil => rfl
  | leaf a rest ih => simp [map, values, ih]
  | group op members rest ihm ih => simp [map, values, ihm, ih]

theorem Forest.values_append (M : Finset D) (v : α → Option (Finset D)) (f h : Forest α) :
    (f.append h).values M v = f.values M v ++ h.values M v := by
  induction f with
  | nil => rfl
  | leaf a rest ih | group op members rest _ ih => simp [append, values, ih]

/-- What one document's membership in the members means for the group. -/
def Op.Holds (op : Op) (d : D) (xs : List (Finset D)) : Prop :=
  match op with
  | .and => ∀ x ∈ xs, d ∈ x
  | .or => ∃ x ∈ xs, d ∈ x
  | .not => ∀ x ∈ xs, d ∉ x

/-- How what is known of a group joins with one more member. -/
def Op.join : Op → Prop → Prop → Prop
  | .or, p, q => p ∨ q
  | _, p, q => p ∧ q

/-- How a document's membership in a member counts for the group. -/
def Op.counts : Op → Prop → Prop
  | .not, p => ¬ p
  | _, p => p

attribute [local simp] Op.join Op.counts

theorem counts_congr {p q : Prop} (h : p ↔ q) : op.counts p ↔ op.counts q := by
  cases op with
  | and | or => exact h
  | not => exact not_congr h

omit [DecidableEq D] in
theorem holds_cons (d : D) (x : Finset D) (xs : List (Finset D)) :
    op.Holds d (x :: xs) ↔ op.join (op.counts (d ∈ x)) (op.Holds d xs) := by
  cases op <;> simp [Op.Holds, Op.join, Op.counts]

omit [DecidableEq D] in
theorem holds_append (d : D) (xs ys : List (Finset D)) :
    op.Holds d (xs ++ ys) ↔ op.join (op.Holds d xs) (op.Holds d ys) := by
  cases op with
  | and => simp [Op.Holds, Op.join, or_imp, forall_and]
  | or => simp [Op.Holds, Op.join, or_and_right, exists_or]
  | not => simp [Op.Holds, Op.join, or_imp, forall_and]

theorem join_assoc (p q r : Prop) : op.join (op.join p q) r ↔ op.join p (op.join q r) := by
  cases op <;> simp [Op.join, and_assoc, or_assoc]

theorem mem_foldr_union (d : D) (xs : List (Finset D)) : d ∈ xs.foldr (· ∪ ·) ∅ ↔ ∃ x ∈ xs, d ∈ x := by
  induction xs with
  | nil => simp
  | cons x xs ih => simp [ih]

theorem mem_combine {M : Finset D} {d : D} (hd : d ∈ M) (op : Op) (xs : List (Finset D)) :
    d ∈ op.combine M xs ↔ op.Holds d xs := by
  cases op with
  | and =>
    simp only [Op.combine, Op.Holds]
    induction xs with
    | nil => simpa using hd
    | cons x xs ih => simp [ih]
  | or => simpa [Op.combine, Op.Holds] using mem_foldr_union d xs
  | not =>
    have h := mem_foldr_union d xs
    simp [Op.combine, Op.Holds, h, hd]

theorem mem_combine_inside {M : Finset D} {d : D} (hd : d ∈ M) (v : α → Option (Finset D))
    (us : List α) (o : Op) (h : Forest α)
    (hm : d ∈ o.combine M (h.values M v) ∨ ∃ u ∈ us, ∃ x, v u = some x ∧ d ∈ x) :
    d ∈ Op.and.combine M ((Forest.inside us (.group o h .nil)).values M v) := by
  induction us generalizing o h with
  | nil =>
    have hv : d ∈ o.combine M (h.values M v) := by simpa using hm
    rw [mem_combine hd]
    simpa [Forest.inside, Forest.values, Op.Holds] using hv
  | cons u us ih =>
    refine ih .or (.group o h (.leaf u .nil)) ?_
    rcases hm with hm | ⟨w, hw, x, hx, hdx⟩
    · refine Or.inl ((mem_combine hd _ _).mpr ⟨_, List.mem_cons_self, hm⟩)
    · rcases List.mem_cons.mp hw with rfl | hw
      · refine Or.inl ((mem_combine hd _ _).mpr ⟨x, ?_, hdx⟩)
        simp [Forest.values, hx]
      · exact Or.inr ⟨w, hw, x, hx, hdx⟩

end Meaning

end Nested
