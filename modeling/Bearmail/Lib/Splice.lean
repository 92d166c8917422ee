import Mathlib.Data.List.Induction
import Mathlib.Data.List.Nodup

/-!
# Splices

A list that is put together from another one by inserting elements, each at its index in the list
as it is then, in ascending order of the indexes.
-/

namespace Splice

open List

universe u

variable {α : Type u}

def splice (l : List α) (i : Nat) (a : α) : List α := l.take i ++ a :: l.drop i

def spliceAll (l : List α) (added : List (α × Nat)) : List α :=
  added.foldl (fun l item => splice l item.2 item.1) l

/-- The marked elements of a list with their indexes, counted from `n`. -/
def marked (c : α → Bool) (n : Nat) (l : List α) : List (α × Nat) :=
  (l.zipIdx n).filter fun item => c item.1

/-- The elements up to the first `u`, with it. -/
def through [DecidableEq α] (u : α) : List α → List α
  | [] => []
  | a :: l => if a = u then [a] else a :: through u l

theorem spliceAll_append (l : List α) (first second : List (α × Nat)) :
    spliceAll l (first ++ second) = spliceAll (spliceAll l first) second :=
  foldl_append

variable (c : α → Bool)

theorem marked_append (n : Nat) (l l' : List α) :
    marked c n (l ++ l') = marked c n l ++ marked c (n + l.length) l' := by
  rw [marked, zipIdx_append, filter_append]
  rfl

theorem marked_cons (n : Nat) (a : α) (l : List α) :
    marked c n (a :: l) = (if c a then [(a, n)] else []) ++ marked c (n + 1) l := by
  rw [marked, zipIdx_cons, filter_cons]
  cases c a with
  | false | true => rfl

variable {n : Nat} {l : List α}

theorem of_mem_marked {c : α → Bool} {item : α × Nat} (h : item ∈ marked c n l) :
    item.1 ∈ l ∧ n ≤ item.2 := by
  have hmem := (mem_filter.mp h).1
  exact ⟨fst_mem_of_mem_zipIdx hmem, le_snd_of_mem_zipIdx hmem⟩

theorem marked_ascending (n : Nat) (l : List α) :
    (marked c n l).Pairwise fun item item' => item.2 < item'.2 := by
  induction l generalizing n with
  | nil => exact List.Pairwise.nil
  | cons a l ih =>
    rw [marked_cons]
    split
    · refine pairwise_cons.mpr ⟨?_, ih (n + 1)⟩
      exact fun item hmem => (of_mem_marked hmem).2
    · exact ih (n + 1)

/-! ## Inserting at the end of what is known -/

theorem splice_eq_append_iff {first rest : List α} {a : α} :
    splice l first.length a = first ++ a :: rest ↔ l = first ++ rest := by
  constructor
  · intro h
    have hlength := congrArg List.length h
    simp only [splice, length_append, length_take, length_cons, length_drop] at hlength
    have htake : (l.take first.length).length = first.length := by
      rw [length_take]
      omega
    obtain ⟨hfirst, hrest⟩ := append_inj h htake
    rw [← take_append_drop first.length l, hfirst, tail_eq_of_cons_eq hrest]
  · rintro rfl
    simp [splice]

theorem spliceAll_marked (base l rest : List α) :
    spliceAll base (marked c 0 l) = l ++ rest ↔ base = l.filter (fun a => !c a) ++ rest := by
  -- from the back, so that the last insertion is the one that is undone first
  induction l using List.reverseRecOn generalizing rest with
  | nil => exact Iff.rfl
  | append_singleton l a ih =>
    rw [marked_append, spliceAll_append, marked_cons, filter_append, Nat.zero_add]
    cases ha : c a with
    | false =>
      have hkept : ([a].filter fun a => !c a) = [a] := by simp [ha]
      rw [hkept, append_assoc, append_assoc, ← ih]
      exact Iff.rfl
    | true =>
      have hnone : ([a].filter fun a => !c a) = [] := by simp [ha]
      rw [hnone, List.append_nil, ← ih, append_assoc]
      exact splice_eq_append_iff

/-! ## Insertions further back -/

theorem take_splice {i : Nat} (hn : n ≤ l.length) (hi : n ≤ i) (a : α) :
    (splice l i a).take n = l.take n := by
  have hlength : n ≤ (l.take i).length := by
    rw [length_take]
    omega
  rw [splice, take_append_of_le_length hlength, take_take, Nat.min_eq_left hi]

theorem length_splice (l : List α) (i : Nat) (a : α) : (splice l i a).length = l.length + 1 := by
  rw [splice, length_append, length_cons, length_take, length_drop]
  omega

theorem take_spliceAll (added : List (α × Nat)) (h : ∀ item ∈ added, n ≤ item.2) (hn : n ≤ l.length) :
    (spliceAll l added).take n = l.take n := by
  induction added generalizing l with
  | nil => rfl
  | cons item added ih =>
    have hstep : n ≤ (splice l item.2 item.1).length := by
      rw [length_splice]
      omega
    calc (spliceAll (splice l item.2 item.1) added).take n
        = (splice l item.2 item.1).take n := ih (fun x hx => h x (mem_cons_of_mem _ hx)) hstep
      _ = l.take n := take_splice hn (h item mem_cons_self) item.1

theorem spliceAll_short {item : α × Nat} {added : List (α × Nat)} (h : ∀ x ∈ item :: added, n ≤ x.2)
    (hn : l.length < n) : (spliceAll l (item :: added)).take (l.length + 1) = l ++ [item.1] := by
  have hsplice : splice l item.2 item.1 = l ++ [item.1] := by
    have hi := h item mem_cons_self
    rw [splice, take_of_length_le (by omega), drop_eq_nil_of_le (by omega)]
  have hle : ∀ x ∈ added, l.length + 1 ≤ x.2 := by
    intro x hx
    have := h x (mem_cons_of_mem _ hx)
    omega
  have hlength : (l ++ [item.1]).length = l.length + 1 := by simp
  change (spliceAll (splice l item.2 item.1) added).take (l.length + 1) = _
  rw [hsplice, take_spliceAll added hle (by omega), ← hlength, take_length]

theorem spliceAll_marked_prefix (base first second : List α) (hdisjoint : ∀ a ∈ second, a ∉ first) :
    first <+: spliceAll base (marked c 0 (first ++ second)) ↔
      first.filter (fun a => !c a) <+: base := by
  rw [marked_append, spliceAll_append, Nat.zero_add]
  have hbehind : ∀ item ∈ marked c first.length second, first.length ≤ item.2 :=
    fun item hmem => (of_mem_marked hmem).2
  have hin : ∀ item ∈ marked c first.length second, item.1 ∈ second :=
    fun item hmem => (of_mem_marked hmem).1
  have hfirst : first <+: spliceAll base (marked c 0 first) ↔ first.filter (fun a => !c a) <+: base := by
    constructor
    · rintro ⟨rest, hrest⟩
      exact ⟨rest, ((spliceAll_marked c base first rest).mp hrest.symm).symm⟩
    · rintro ⟨rest, hrest⟩
      exact ⟨rest, ((spliceAll_marked c base first rest).mpr hrest.symm).symm⟩
  rw [← hfirst]
  generalize spliceAll base (marked c 0 first) = l
  generalize marked c first.length second = added at hbehind hin
  rcases Nat.lt_or_ge l.length first.length with hlt | hle
  · -- too short: what comes next is not in the first part
    refine ⟨fun h => absurd h ?_, fun h => absurd h.length_le (Nat.not_le_of_lt hlt)⟩
    cases added with
    | nil => exact fun h => absurd h.length_le (Nat.not_le_of_lt hlt)
    | cons item added =>
      rintro ⟨rest, hrest⟩
      have hshort := spliceAll_short hbehind hlt
      rw [← hrest, take_append_of_le_length (by omega)] at hshort
      have hmem : item.1 ∈ first.take (l.length + 1) := by
        rw [hshort]
        exact mem_append_right _ mem_cons_self
      exact hdisjoint _ (hin item mem_cons_self) (mem_of_mem_take hmem)
  · have htake := take_spliceAll added hbehind hle
    rw [prefix_iff_eq_take, prefix_iff_eq_take, htake]

/-! ## Up to an element -/

section Through

variable [DecidableEq α] {u : α}

attribute [local simp] through

theorem through_of_notMem (h : u ∉ l) : through u l = l := by
  induction l with
  | nil => rfl
  | cons a l ih =>
    obtain ⟨hne, hnot⟩ := not_or.mp fun hor => h (mem_cons.mpr hor)
    simp [through, Ne.symm hne, ih hnot]

theorem through_isPrefix (l : List α) : through u l <+: l := by
  induction l with
  | nil => exact prefix_rfl
  | cons a l ih =>
    rw [through]
    split
    · exact ⟨l, rfl⟩
    · exact prefix_cons_inj a |>.mpr ih

theorem mem_through (h : u ∈ l) : u ∈ through u l := by
  induction l with
  | nil => cases h
  | cons a l ih =>
    rw [through]
    split
    · rename_i ha
      rw [ha]
      exact mem_cons_self
    · rename_i ha
      rcases mem_cons.mp h with rfl | hl
      · exact absurd rfl ha
      · exact mem_cons_of_mem _ (ih hl)

theorem through_append (h : u ∈ l) (rest : List α) : through u (l ++ rest) = through u l := by
  induction l with
  | nil => cases h
  | cons a l ih =>
    rw [cons_append, through, through]
    split
    · rfl
    · rename_i ha
      rcases mem_cons.mp h with rfl | hl
      · exact absurd rfl ha
      · rw [ih hl]

theorem through_through (l : List α) : through u (through u l) = through u l := by
  by_cases h : u ∈ l
  · obtain ⟨rest, hrest⟩ := @through_isPrefix α _ u l
    have happend := through_append (mem_through h) rest
    rw [hrest] at happend
    exact happend.symm
  · simp [through_of_notMem h]

theorem through_eq_iff_of_mem {l' : List α} (h : u ∈ l') :
    through u l = through u l' ↔ through u l' <+: l := by
  constructor
  · intro heq
    rw [← heq]
    exact through_isPrefix l
  · rintro ⟨rest, rfl⟩
    rw [through_append (mem_through h), through_through]

theorem through_eq_iff_of_notMem {l' : List α} (h : u ∉ l') :
    through u l = through u l' ↔ l = l' := by
  constructor
  · intro heq
    rw [through_of_notMem h] at heq
    have hnot : u ∉ l := fun hmem => h (heq ▸ mem_through hmem)
    rw [← heq, through_of_notMem hnot]
  · rintro rfl
    rfl

theorem notMem_through_of_nodup (h : l.Nodup) {rest : List α} (hsplit : through u l ++ rest = l) :
    ∀ a ∈ rest, a ∉ through u l := by
  intro a hrest hthrough
  rw [← hsplit] at h
  exact disjoint_of_nodup_append h hthrough hrest

end Through

end Splice
