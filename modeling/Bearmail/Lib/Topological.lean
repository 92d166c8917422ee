import Mathlib.Data.List.Count
import Mathlib.Data.List.Induction
import Mathlib.Data.List.Nodup
import Mathlib.Data.List.Perm.Subperm
import Mathlib.Order.WellFounded

/-!
# Topological sort

Nodes are given one by one, each after all nodes with an edge to it: a table of edges, the
number of edges into each node, and a queue of the nodes with none left. The order in which
a hash map gives the nodes without edges is a parameter.
-/

namespace Topological

open List Option Function

variable {T : Type*} [DecidableEq T]

structure TopologicalSort (T : Type*) where
  edges : T → List T
  count : T → Option Nat

def TopologicalSort.empty : TopologicalSort T := ⟨fun _ => [], fun _ => none⟩

def TopologicalSort.insert (s : TopologicalSort T) (source target : T) : TopologicalSort T :=
  let count := Function.update s.count source (some ((s.count source).getD 0))
  { edges := Function.update s.edges source (s.edges source ++ [target])
    count := Function.update count target (some ((count target).getD 0 + 1)) }

/-- The nodes that can be given; the next one comes first. -/
structure Iterator (T : Type*) where
  edges : T → List T
  count : T → Option Nat
  noEdges : List T

/-- `order` lists the nodes as the hash map of counts gives them. -/
def TopologicalSort.intoIterator (s : TopologicalSort T) (order : List T) : Iterator T where
  edges := s.edges
  count := fun x => if s.count x = some 0 then none else s.count x
  noEdges := (order.filter fun x => decide (s.count x = some 0)).reverse

/-- One edge out of a node that has been given. -/
def relax (c : (T → Option Nat) × List T) (y : T) : (T → Option Nat) × List T :=
  match c.1 y with
  | none => c
  | some n =>
    if n - 1 = 0 then (Function.update c.1 y none, c.2 ++ [y])
    else (Function.update c.1 y (some (n - 1)), c.2)

def Iterator.next (it : Iterator T) : Option (T × Iterator T) :=
  match it.noEdges with
  | [] => none
  | x :: rest =>
    let c := (it.edges x).foldl relax (it.count, rest)
    some (x, ⟨it.edges, c.1, c.2⟩)

/-- The nodes the iterator gives, up to a bound. -/
def Iterator.drain : Nat → Iterator T → List T
  | 0, _ => []
  | n + 1, it =>
    match it.next with
    | none => []
    | some (x, it) => x :: drain n it

def Iterator.last : Nat → Iterator T → Iterator T
  | 0, it => it
  | n + 1, it =>
    match it.next with
    | none => it
    | some (_, it) => last n it

def Iterator.isValid (it : Iterator T) : Prop := ∀ v, it.count v = none

def TopologicalSort.ofEdges (edges : List (T × T)) : TopologicalSort T :=
  edges.foldl (fun s e => s.insert e.1 e.2) .empty

/-- All nodes of a list of edges, in the order in which they are given. -/
def sort (edges : List (T × T)) (order : List T) : List T :=
  ((TopologicalSort.ofEdges edges).intoIterator order).drain (2 * edges.length + 1)

/-! ## What the insertions leave -/

def targets (edges : List (T × T)) (x : T) : List T :=
  (edges.filter fun e => decide (e.1 = x)).map Prod.snd

def pending (edges : List (T × T)) (done : List T) (v : T) : Nat :=
  edges.countP fun e => decide (e.2 = v ∧ e.1 ∉ done)

def IsNode (edges : List (T × T)) (v : T) : Prop := ∃ e ∈ edges, e.1 = v ∨ e.2 = v

omit [DecidableEq T] in
theorem isNode_append (edges : List (T × T)) (e : T × T) (v : T) :
    IsNode (edges ++ [e]) v ↔ IsNode edges v ∨ e.1 = v ∨ e.2 = v := by
  simp [IsNode, or_and_right, exists_or]

structure Holds (s : TopologicalSort T) (edges : List (T × T)) : Prop where
  targets : ∀ x, s.edges x = targets edges x
  count : ∀ v n, s.count v = some n → n = pending edges [] v
  node : ∀ v, s.count v ≠ none ↔ IsNode edges v

theorem holds_empty : Holds (TopologicalSort.empty : TopologicalSort T) [] where
  targets := fun _ => rfl
  count := fun v n h => by cases h
  node := fun v => by simp [TopologicalSort.empty, IsNode]

theorem pending_append (edges : List (T × T)) (e : T × T) (v : T) :
    pending (edges ++ [e]) [] v = pending edges [] v + if e.2 = v then 1 else 0 := by
  simp [pending, countP_append, countP_cons]

variable {edges : List (T × T)}

theorem Holds.getD {s : TopologicalSort T} (h : Holds s edges) (v : T) :
    (s.count v).getD 0 = pending edges [] v := by
  cases hv : s.count v with
  | some n => exact h.count v n hv
  | none =>
    have hnot : ¬ IsNode edges v := by
      rw [← h.node, hv]
      exact fun hne => hne rfl
    symm
    rw [getD_none, pending, countP_eq_zero]
    intro e he hev
    simp only [not_mem_nil, not_false_eq_true, and_true, decide_eq_true_eq] at hev
    exact hnot ⟨e, he, Or.inr hev⟩

theorem Holds.insert {s : TopologicalSort T} (h : Holds s edges)
    (e : T × T) : Holds (s.insert e.1 e.2) (edges ++ [e]) where
  targets := by
    intro x
    by_cases hx : x = e.1
    · subst hx
      simp [TopologicalSort.insert, h.targets, Topological.targets]
    · simp [TopologicalSort.insert, h.targets, Topological.targets, hx, Ne.symm hx]
  count := by
    intro v n hv
    rw [pending_append, ← h.getD v]
    simp only [TopologicalSort.insert] at hv
    by_cases ht : v = e.2
    · subst ht
      rw [update_self, Option.some.injEq] at hv
      rw [← hv, if_pos rfl]
      by_cases hs : e.2 = e.1
      · simp [hs]
      · rw [update_of_ne hs]
    · rw [update_of_ne ht] at hv
      rw [if_neg (Ne.symm ht)]
      by_cases hs : v = e.1
      · rw [hs, update_self, Option.some.injEq] at hv
        rw [hs, ← hv, Nat.add_zero]
      · rw [update_of_ne hs] at hv
        simp [hv, Nat.add_zero]
  node := by
    intro v
    rw [isNode_append, ← h.node]
    simp only [TopologicalSort.insert]
    by_cases ht : v = e.2
    · subst ht
      simp
    · rw [update_of_ne ht]
      by_cases hs : v = e.1
      · subst hs
        simp
      · rw [update_of_ne hs]
        simp [Ne.symm ht, Ne.symm hs]

theorem holds_ofEdges (edges : List (T × T)) : Holds (TopologicalSort.ofEdges edges) edges := by
  induction edges using List.reverseRecOn with
  | nil => exact holds_empty
  | append_singleton edges e ih =>
    rw [TopologicalSort.ofEdges, foldl_append]
    exact ih.insert e

/-! ## Following the edges of one node -/

def lower (k n : Nat) : Option Nat := if n ≤ k then none else some (n - k)

theorem lower_zero {n : Nat} (h : 0 < n) : lower 0 n = some n := by
  simp [lower, Nat.not_le.mpr h, Nat.sub_zero]

theorem lower_succ_one (k : Nat) : lower (k + 1) 1 = none := by
  rw [lower, if_pos (by omega)]

theorem lower_succ (k n : Nat) : lower (k + 1) n = lower k (n - 1) := by
  unfold lower
  by_cases hle : n ≤ k + 1
  · rw [if_pos hle, if_pos (by omega)]
  · rw [if_neg hle, if_neg (by omega)]
    congr 1
    omega

variable {count : T → Option Nat} {queue done : List T}

theorem relax_none {y : T} (h : count y = none) : relax (count, queue) y = (count, queue) := by
  simp [relax, h]

theorem relax_last {y : T} {n : Nat} (h : count y = some n) (hone : n - 1 = 0) :
    relax (count, queue) y = (Function.update count y none, queue ++ [y]) := by
  simp [relax, h, if_pos hone]

theorem relax_more {y : T} {n : Nat} (h : count y = some n) (hone : n - 1 ≠ 0) :
    relax (count, queue) y = (Function.update count y (some (n - 1)), queue) := by
  simp [relax, h, if_neg hone]

/-- Each edge takes one from the count of its target; a count that reaches zero is removed and
its node is queued. -/
theorem foldl_relax (ys : List T) (count : T → Option Nat) (queue : List T)
    (hpos : ∀ v n, count v = some n → 0 < n) :
    (∀ v, (ys.foldl relax (count, queue)).1 v = (count v).bind (lower (ys.count v))) ∧
      ∃ new, (ys.foldl relax (count, queue)).2 = queue ++ new ∧ new.Nodup ∧
        ∀ v, v ∈ new ↔ ∃ n, count v = some n ∧ n ≤ ys.count v := by
  induction ys generalizing count queue with
  | nil =>
    refine ⟨?_, [], by simp, nodup_nil, ?_⟩
    · intro v
      cases hv : count v with
      | none => exact hv
      | some n =>
        rw [bind_some, count_nil, lower_zero (hpos v n hv)]
        exact hv
    · intro v
      simp only [not_mem_nil, count_nil, false_iff]
      rintro ⟨n, hn, hle⟩
      have := hpos v n hn
      omega
  | cons y ys ih =>
    rw [foldl_cons]
    cases hy : count y with
    | none =>
      obtain ⟨hcount, new, hqueue, hnodup, hnew⟩ := ih count queue hpos
      rw [relax_none hy]
      have hne : ∀ v n, count v = some n → y ≠ v := by
        rintro v n hv rfl
        rw [hy] at hv
        cases hv
      refine ⟨?_, new, hqueue, hnodup, ?_⟩
      · intro v
        refine (hcount v).trans ?_
        cases hv : count v with
        | none => rfl
        | some n => rw [count_cons_of_ne (hne v n hv)]
      · intro v
        rw [hnew v]
        refine exists_congr fun n => and_congr_right fun hv => ?_
        rw [count_cons_of_ne (hne v n hv)]
    | some n =>
      have hn := hpos y n hy
      by_cases hone : n - 1 = 0
      · -- the last edge into `y`
        have hpos' : ∀ v m, Function.update count y none v = some m → 0 < m := by
          intro v m hv
          by_cases hvy : v = y
          · rw [hvy, update_self] at hv
            cases hv
          · rw [update_of_ne hvy] at hv
            exact hpos v m hv
        obtain ⟨hcount, new, hqueue, hnodup, hnew⟩ := ih _ (queue ++ [y]) hpos'
        have hy1 : n = 1 := by omega
        rw [relax_last hy hone]
        refine ⟨?_, y :: new, by rw [hqueue, append_assoc]; rfl, ?_, ?_⟩
        · intro v
          rw [hcount v]
          by_cases hvy : v = y
          · subst hvy
            rw [update_self, hy, hy1, count_cons_self, bind_some, lower_succ_one]
            rfl
          · rw [update_of_ne hvy, count_cons_of_ne (Ne.symm hvy)]
        · refine nodup_cons.mpr ⟨?_, hnodup⟩
          rw [hnew, update_self]
          rintro ⟨m, hm, -⟩
          cases hm
        · intro v
          rw [mem_cons, hnew]
          by_cases hvy : v = y
          · subst hvy
            simp [hy, hy1]
          · simp [hvy, Ne.symm hvy]
      · have hpos' : ∀ v m, Function.update count y (some (n - 1)) v = some m → 0 < m := by
          intro v m hv
          by_cases hvy : v = y
          · rw [hvy, update_self, Option.some.injEq] at hv
            omega
          · rw [update_of_ne hvy] at hv
            exact hpos v m hv
        obtain ⟨hcount, new, hqueue, hnodup, hnew⟩ := ih _ queue hpos'
        rw [relax_more hy hone]
        refine ⟨?_, new, hqueue, hnodup, ?_⟩
        · intro v
          rw [hcount v]
          by_cases hvy : v = y
          · subst hvy
            simp [hy, count_cons_self, lower_succ]
          · rw [update_of_ne hvy, count_cons_of_ne (Ne.symm hvy)]
        · intro v
          rw [hnew]
          by_cases hvy : v = y
          · subst hvy
            rw [update_self, hy, count_cons_self]
            simp only [Option.some.injEq, exists_eq_left']
            omega
          · rw [update_of_ne hvy, count_cons_of_ne (Ne.symm hvy)]

/-! ## The iterator -/

/-- What holds when the nodes `done` have been given. -/
structure Inv (edges : List (T × T)) (done : List T) (it : Iterator T) : Prop where
  targets : ∀ x, it.edges x = targets edges x
  count : ∀ v n, it.count v = some n → n = pending edges done v ∧ 0 < n
  nodup : (done ++ it.noEdges).Nodup
  free : ∀ v ∈ done ++ it.noEdges, it.count v = none ∧ IsNode edges v
  ready : ∀ v ∈ done ++ it.noEdges, pending edges done v = 0
  cover : ∀ v, IsNode edges v → v ∈ done ++ it.noEdges ∨ it.count v ≠ none

theorem pending_cons {x : T} (hx : x ∉ done) (v : T) :
    pending edges done v = pending edges (done ++ [x]) v + (targets edges x).count v := by
  unfold pending targets
  induction edges with
  | nil => rfl
  | cons e edges ih =>
    rw [countP_cons, countP_cons, ih]
    by_cases hv : e.2 = v
    · by_cases he : e.1 = x
      · subst he
        subst hv
        simp [hx]
        omega
      · simp [hv, he]
        omega
    · by_cases he : e.1 = x
      · simp [hv, he]
      · simp [hv, he]

theorem pending_mono {x v : T} (h : pending edges done v = 0) :
    pending edges (done ++ [x]) v = 0 := by
  rw [pending, countP_eq_zero] at h ⊢
  intro e he hev
  refine h e he ?_
  simp only [mem_append, not_or, decide_eq_true_eq] at hev ⊢
  exact ⟨hev.1, hev.2.1⟩

theorem isNode_of_pending {v : T} (h : 0 < pending edges done v) :
    ∃ e ∈ edges, e.2 = v ∧ e.1 ∉ done := by
  obtain ⟨e, he, hev⟩ := countP_pos_iff.mp h
  exact ⟨e, he, by simpa using hev⟩

theorem Inv.next {rest : List T} {x : T} {it : Iterator T}
    (h : Inv edges done it) (hqueue : it.noEdges = x :: rest) :
    Inv edges (done ++ [x]) ⟨it.edges, ((it.edges x).foldl relax (it.count, rest)).1,
        ((it.edges x).foldl relax (it.count, rest)).2⟩ := by
  obtain ⟨hcount, new, hnew, hnodup, hmem⟩ :=
    foldl_relax (it.edges x) it.count rest fun v n hv => (h.count v n hv).2
  obtain ⟨htargets, hc, hdone, hfree, hready, hcover⟩ := h
  rw [hqueue] at hdone hfree hready hcover
  have hx : x ∉ done := by
    rw [nodup_append] at hdone
    exact fun hin => hdone.2.2 x hin x mem_cons_self rfl
  have hlist : done ++ [x] ++ (rest ++ new) = (done ++ x :: rest) ++ new := by simp
  have hpending : ∀ v, pending edges done v =
      pending edges (done ++ [x]) v + (it.edges x).count v := by
    intro v
    rw [htargets x]
    exact pending_cons hx v
  refine ⟨htargets, ?_, ?_, ?_, ?_, ?_⟩
  · intro v n hv
    simp only [hcount v] at hv
    obtain ⟨m, hm, hlow⟩ := bind_eq_some_iff.mp hv
    have hp := (hc v m hm).1
    rw [hpending v] at hp
    unfold lower at hlow
    split at hlow
    · cases hlow
    · rw [Option.some.injEq] at hlow
      omega
  · simp only [hnew, hlist]
    refine nodup_append.mpr ⟨hdone, hnodup, ?_⟩
    rintro a ha b hb rfl
    obtain ⟨n, hn, -⟩ := (hmem a).mp hb
    rw [(hfree a ha).1] at hn
    cases hn
  · simp only [hnew, hlist]
    intro v hv
    rw [hcount v]
    rcases mem_append.mp hv with hv | hv
    · rw [(hfree v hv).1]
      exact ⟨rfl, (hfree v hv).2⟩
    · obtain ⟨n, hn, hle⟩ := (hmem v).mp hv
      obtain ⟨hp, hpos⟩ := hc v n hn
      obtain ⟨e, he, hev, -⟩ := isNode_of_pending (hp ▸ hpos)
      rw [hn, bind_some, lower, if_pos hle]
      exact ⟨rfl, e, he, Or.inr hev⟩
  · simp only [hnew, hlist]
    intro v hv
    rcases mem_append.mp hv with hv | hv
    · exact pending_mono (hready v hv)
    · obtain ⟨n, hn, hle⟩ := (hmem v).mp hv
      have hp := (hc v n hn).1
      rw [hpending v] at hp
      omega
  · simp only [hnew, hlist]
    intro v hv
    rcases hcover v hv with hold | hsome
    · exact Or.inl (mem_append_left _ hold)
    · obtain ⟨n, hn⟩ := ne_none_iff_exists'.mp hsome
      by_cases hle : n ≤ (it.edges x).count v
      · exact Or.inl (mem_append_right _ ((hmem v).mpr ⟨n, hn, hle⟩))
      · right
        rw [hcount v, hn, bind_some, lower, if_neg hle]
        exact some_ne_none _

/-- An order in which a hash map can give the nodes. -/
structure Orders (edges : List (T × T)) (order : List T) : Prop where
  nodup : order.Nodup
  mem : ∀ v, v ∈ order ↔ IsNode edges v

theorem inv_intoIterator {order : List T} (ho : Orders edges order) :
    Inv edges [] ((TopologicalSort.ofEdges edges).intoIterator order) := by
  have h := holds_ofEdges edges
  have hqueue : ∀ v, v ∈ ([] : List T) ++ ((TopologicalSort.ofEdges edges).intoIterator order).noEdges ↔
      (TopologicalSort.ofEdges edges).count v = some 0 := by
    intro v
    simp only [TopologicalSort.intoIterator, nil_append, mem_reverse, mem_filter,
      decide_eq_true_eq, and_iff_right_iff_imp]
    intro hv
    rw [ho.mem, ← h.node, hv]
    exact some_ne_none _
  refine ⟨h.targets, ?_, ?_, ?_, ?_, ?_⟩
  · intro v n hv
    simp only [TopologicalSort.intoIterator] at hv
    split at hv
    · cases hv
    · rename_i hzero
      refine ⟨h.count v n hv, Nat.pos_of_ne_zero ?_⟩
      rintro rfl
      exact hzero hv
  · exact nodup_reverse.mpr (ho.nodup.filter _)
  · intro v hv
    have hzero := (hqueue v).mp hv
    refine ⟨by simp [TopologicalSort.intoIterator, hzero], ?_⟩
    rw [← h.node, hzero]
    exact some_ne_none _
  · intro v hv
    exact (h.count v 0 ((hqueue v).mp hv)).symm
  · intro v hv
    rw [hqueue v]
    by_cases hzero : (TopologicalSort.ofEdges edges).count v = some 0
    · exact Or.inl hzero
    · right
      simp only [TopologicalSort.intoIterator, if_neg hzero]
      exact (h.node v).mpr hv

/-! ## The order of the nodes -/

/-- Each node comes after all nodes with an edge to it. -/
def Before (edges : List (T × T)) (l : List T) : Prop :=
  ∀ l₁ v l₂, l = l₁ ++ v :: l₂ → ∀ u, (u, v) ∈ edges → u ∈ l₁

theorem before_append {x : T} (h : Before edges done)
    (hx : pending edges done x = 0) : Before edges (done ++ [x]) := by
  intro l₁ v l₂ heq u hu
  rcases eq_nil_or_concat l₂ with rfl | ⟨l₃, z, rfl⟩
  · obtain ⟨rfl, hv⟩ := append_inj' heq rfl
    obtain rfl : x = v := by simpa using hv
    by_contra hnot
    rw [pending, countP_eq_zero] at hx
    exact hx (u, x) hu (by simpa using hnot)
  · have heq' : done ++ [x] = (l₁ ++ v :: l₃) ++ [z] := by simpa using heq
    obtain ⟨rfl, -⟩ := append_inj' heq' rfl
    exact h l₁ v l₃ rfl u hu

/-- The nodes given after `done`: none twice, each after its predecessors, and below the bound
nothing is left to give. -/
theorem drain_spec (n : Nat) {it : Iterator T} (h : Inv edges done it)
    (hbefore : Before edges done) :
    (done ++ it.drain n).Nodup ∧ Before edges (done ++ it.drain n) ∧
      (∀ v ∈ done ++ it.drain n, IsNode edges v) ∧
      ((it.drain n).length < n → Inv edges (done ++ it.drain n) (it.last n) ∧ (it.last n).noEdges = []) := by
  induction n generalizing done it with
  | zero =>
    simp only [Iterator.drain, List.append_nil]
    refine ⟨(nodup_append.mp h.nodup).1, hbefore, ?_, fun hlt => absurd hlt (by simp)⟩
    exact fun v hv => (h.free v (mem_append_left _ hv)).2
  | succ n ih =>
    rw [Iterator.drain, Iterator.last, Iterator.next]
    cases hqueue : it.noEdges with
    | nil =>
      simp only [List.append_nil]
      refine ⟨(nodup_append.mp h.nodup).1, hbefore, ?_, fun _ => ⟨h, hqueue⟩⟩
      exact fun v hv => (h.free v (mem_append_left _ hv)).2
    | cons x rest =>
      have hx : x ∈ done ++ it.noEdges := by simp [hqueue]
      have hnext := ih (h.next hqueue) (before_append hbefore (h.ready x hx))
      rw [append_assoc] at hnext
      obtain ⟨hnodup, hbefore', hnode, hend⟩ := hnext
      refine ⟨hnodup, hbefore', hnode, fun hlt => hend ?_⟩
      simpa using hlt

omit [DecidableEq T] in
theorem length_le_of_isNode {l : List T} (hnodup : l.Nodup)
    (h : ∀ v ∈ l, IsNode edges v) : l.length ≤ 2 * edges.length := by
  have hsub : l ⊆ edges.map Prod.fst ++ edges.map Prod.snd := by
    intro v hv
    obtain ⟨e, he, rfl | rfl⟩ := h v hv
    · exact mem_append_left _ (List.mem_map_of_mem he)
    · exact mem_append_right _ (List.mem_map_of_mem he)
  have hle := (subperm_of_subset hnodup hsub).length_le
  simp only [length_append, length_map] at hle
  omega

section Sorted

variable {edges : List (T × T)} {order : List T}

theorem sort_spec (ho : Orders edges order) :
    (sort edges order).Nodup ∧ Before edges (sort edges order) ∧
      (∀ v ∈ sort edges order, IsNode edges v) ∧
      ∃ it, it = ((TopologicalSort.ofEdges edges).intoIterator order).last (2 * edges.length + 1) ∧
        Inv edges (sort edges order) it ∧ it.noEdges = [] := by
  have hnil : Before edges ([] : List T) := by
    intro l₁ v l₂ heq
    exact absurd heq (by simp)
  obtain ⟨hnodup, hbefore, hnode, hend⟩ :=
    drain_spec (2 * edges.length + 1) (inv_intoIterator ho) hnil
  refine ⟨hnodup, hbefore, hnode, _, rfl, hend ?_⟩
  exact Nat.lt_succ_of_le (length_le_of_isNode hnodup hnode)

theorem mem_sort_of_acc (ho : Orders edges order) {v : T} (hacc : Acc (fun u v => (u, v) ∈ edges) v)
    (hv : IsNode edges v) : v ∈ sort edges order := by
  obtain ⟨-, -, -, it, -, hinv, hempty⟩ := sort_spec ho
  have hcover := hinv.cover
  rw [hempty, List.append_nil] at hcover
  induction hacc with
  | intro v _ ih =>
    rcases hcover v hv with hdone | hsome
    · exact hdone
    · -- a node that waits has a predecessor that was not given
      obtain ⟨n, hn⟩ := ne_none_iff_exists'.mp hsome
      obtain ⟨hp, hpos⟩ := hinv.count v n hn
      obtain ⟨e, he, rfl, hnot⟩ := isNode_of_pending (hp ▸ hpos)
      exact absurd (ih e.1 he ⟨e, he, Or.inl rfl⟩) hnot

theorem mem_sort (ho : Orders edges order) (hwf : WellFounded fun u v => (u, v) ∈ edges) {v : T}
    (hv : IsNode edges v) : v ∈ sort edges order :=
  mem_sort_of_acc ho (hwf.apply v) hv

end Sorted

end Topological
