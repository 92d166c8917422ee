import Bearmail.Search.Evaluate

/-!
# Falling out of step with the brackets

The short circuit of an `And` skips to the next `End` without counting the
groups it skips. Inside a nested `And` it can therefore take the `End` of a
skipped group for its own, and the rest of the query runs one level too high.
-/

namespace Bearmail.Search

open Nested
open List

universe u v w

/-! ## Climbing

How far the loop climbs above the level it should be on: every opening that the
short circuit skips leaves one `End` too many. -/

section Climbing

variable {D : Type u} [DecidableEq D] {σ : Type v} {ε : Type w} {B : Backend σ ε D}
  {mask : Finset D} {inv : σ → Prop} {ok : SearchLeaf → Prop}
  {val : SearchLeaf → Option (Option (Finset D))}

/-- Running the list `f` leaves the loop `k` levels above where it started. -/
def Climbs (B : Backend σ ε D) (mask : Finset D) (inv : σ → Prop) (f : Forest SearchLeaf)
    (skip : Bool) (s : σ) (state : State D) (stack : List (State D)) (k : Nat) : Prop :=
  ∃ skip' s' state' stack', inv s' ∧ (skip' = true → state'.shortCircuits = true) ∧
    (state' :: stack').map State.op = ((state :: stack).map State.op).drop k ∧
    ∀ fs, evalLoop B mask (filters f ++ fs) skip s state stack =
      evalLoop B mask fs skip' s' state' stack'

omit [DecidableEq D] in
theorem length_of_drop {x : State D} {xs : List (State D)} {state : State D}
    {stack : List (State D)} {k : Nat}
    (h : (x :: xs).map State.op = ((state :: stack).map State.op).drop k) :
    xs.length + k = stack.length := by
  have hl := congrArg List.length h
  simp only [map_cons, length_cons, length_map, length_drop] at hl
  omega

theorem Climbs.close {f : Forest SearchLeaf} (rest : Forest SearchLeaf) {skip : Bool} {s : σ}
    {state : State D} {stack : List (State D)} {k : Nat}
    (hk : Climbs B mask inv f skip s state stack k) (hlen : k < stack.length)
    (hrest : ∀ skip s' state' stack', inv s' → (skip = true → state'.shortCircuits = true) →
      stack'.length + (k + 1) = stack.length →
      ∃ j ≤ rest.opens, Climbs B mask inv rest skip s' state' stack' j) :
    ∃ j ≤ rest.opens, ∃ skip' s' state' stack', inv s' ∧ (skip' = true → state'.shortCircuits = true) ∧
      (state' :: stack').map State.op = ((state :: stack).map State.op).drop (k + 1 + j) ∧
      ∀ fs, evalLoop B mask (filters f ++ .endGroup :: (filters rest ++ fs)) skip s state stack =
        evalLoop B mask fs skip' s' state' stack' := by
  obtain ⟨skip1, s1, state1, stack1, hs1, -, hops, hrun⟩ := hk
  have hl := length_of_drop hops
  cases stack1 with
  | nil => simp at hl; omega
  | cons prev stack1 =>
    have hops' : ((prev.apply mask state1.bm) :: stack1).map State.op =
        ((state :: stack).map State.op).drop (k + 1) := by
      have h := congrArg (List.drop 1) hops
      simpa [State.apply, drop_drop, Nat.add_comm] using h
    obtain ⟨j, hj, skip2, s2, state2, stack2, hs2, hsc2, hops2, hrun2⟩ :=
      hrest (prev.apply mask state1.bm).shortCircuits s1 (prev.apply mask state1.bm) stack1 hs1 id
        (by simp only [length_cons] at hl; omega)
    refine ⟨j, hj, skip2, s2, state2, stack2, hs2, hsc2, ?_, fun fs => ?_⟩
    · rw [hops2, hops', drop_drop]
    · rw [hrun, evalLoop_closing]
      exact hrun2 fs

/-- Every run over a well-nested list climbs by at most the number of its
groups, and a run in skip mode climbs if there is a group to skip. -/
theorem climbs_of_accepted (spec : LeafSpec val B inv ok) (f : Forest SearchLeaf)
    (hok : Accepted B ok f) (skip : Bool) (s : σ) (state : State D) (stack : List (State D))
    (hs : inv s) (hsc : skip = true → state.shortCircuits = true)
    (hlen : f.opens ≤ stack.length) :
    ∃ k ≤ f.opens, Climbs B mask inv f skip s state stack k ∧
      (skip = true → f.hasGroup = true → 1 ≤ k) := by
  induction f generalizing skip s state stack with
  | nil =>
    exact ⟨0, Nat.le_refl _, ⟨skip, s, state, stack, hs, hsc, rfl, fun _ => rfl⟩,
      by simp [Forest.hasGroup]⟩
  | leaf a rest ih =>
    obtain ⟨ha, hrest⟩ := hok
    cases skip with
    | true =>
      obtain ⟨k, hk, ⟨skip', s', state', stack', hs', hsc', hops, hrun⟩, hpos⟩ :=
        ih hrest true s state stack hs hsc hlen
      refine ⟨k, hk, ⟨skip', s', state', stack', hs', hsc', hops, fun fs => ?_⟩, hpos⟩
      exact (evalLoop_skip B mask _ s state stack (toFilter_ne_end a)).trans (hrun fs)
    | false =>
      obtain ⟨s1, hleaf, hs1⟩ := spec.leaf ha hs
      cases hv : val a with
      | none =>
        rw [hv] at hleaf
        obtain ⟨k, hk, ⟨skip', s', state', stack', hs', hsc', hops, hrun⟩, -⟩ :=
          ih hrest false s1 state stack hs1 (by simp) hlen
        refine ⟨k, hk, ⟨skip', s', state', stack', hs', hsc', hops, fun fs => ?_⟩, by simp⟩
        exact (evalLoop_leaf_continue B mask _ s state stack hleaf).trans (hrun fs)
      | some r =>
        rw [hv] at hleaf
        obtain ⟨k, hk, ⟨skip', s', state', stack', hs', hsc', hops, hrun⟩, -⟩ :=
          ih hrest (state.apply mask r).shortCircuits s1 (state.apply mask r) stack hs1 id hlen
        refine ⟨k, hk, ⟨skip', s', state', stack', hs', hsc', hops, fun fs => ?_⟩, by simp⟩
        exact (evalLoop_leaf B mask _ s state stack hleaf).trans (hrun fs)
  | group o members rest ihm ih =>
    obtain ⟨hg, hm, hrest⟩ := hok
    simp only [Forest.opens] at hlen ⊢
    cases skip with
    | true =>
      -- the opening is skipped: the members run on the outer level
      obtain ⟨k, hk, hmem, -⟩ := ihm hm true s state stack hs hsc (by omega)
      obtain ⟨j, hj, skip', s', state', stack', hs', hsc', hops, hrun⟩ :=
        Climbs.close rest hmem (by omega) fun sk s' st stk h1 h2 h3 => by
          obtain ⟨j, hj, hc, -⟩ := ih hrest sk s' st stk h1 h2 (by omega)
          exact ⟨j, hj, hc⟩
      refine ⟨k + 1 + j, by omega, ⟨skip', s', state', stack', hs', hsc', hops, fun fs => ?_⟩,
        fun _ _ => by omega⟩
      rw [filters_group_append, evalLoop_skip B mask _ s state stack (ofOp_ne_end o)]
      exact hrun fs
    | false =>
      obtain ⟨k, hk, hmem, -⟩ := ihm hm false s ⟨o, none⟩ (state :: stack) hs (by simp)
        (by simp only [length_cons]; omega)
      obtain ⟨j, hj, skip', s', state', stack', hs', hsc', hops, hrun⟩ :=
        Climbs.close rest hmem (by simp only [length_cons]; omega) fun sk s' st stk h1 h2 h3 => by
            simp only [length_cons] at h3
            obtain ⟨j, hj, hc, -⟩ := ih hrest sk s' st stk h1 h2 (by omega)
            exact ⟨j, hj, hc⟩
      refine ⟨k + j, by omega, ⟨skip', s', state', stack', hs', hsc', ?_, fun fs => ?_⟩, by simp⟩
      · rw [hops]
        simp [Nat.add_right_comm k 1 j]
      · rw [filters_group_append, evalLoop_opening B mask _ s state stack hg]
        exact hrun fs

theorem climbs_of_not_inSync (spec : LeafSpec val B inv ok) (f : Forest SearchLeaf)
    (hok : Accepted B ok f) (op : Op) (bm : Option (Finset D)) (s : σ) (stack : List (State D))
    (hs : inv s) (hlen : f.opens ≤ stack.length) (hsync : inSync mask val f op bm = false) :
    ∃ k, 1 ≤ k ∧ k ≤ f.opens ∧ Climbs B mask inv f false s ⟨op, bm⟩ stack k := by
  -- after a result: either the short circuit has a group to skip, or the rest falls out of step
  have after (rest : Forest SearchLeaf) (hrest : Accepted B ok rest) (r : Finset D) (s : σ)
      (hs : inv s) (stack : List (State D)) (hlen : rest.opens ≤ stack.length) (op : Op)
      (hn : (if (State.mk op (some r)).shortCircuits then !rest.hasGroup
        else inSync mask val rest op (some r)) = false)
      (ih : inSync mask val rest op (some r) = false →
        ∃ k, 1 ≤ k ∧ k ≤ rest.opens ∧ Climbs B mask inv rest false s ⟨op, some r⟩ stack k) :
      ∃ k, 1 ≤ k ∧ k ≤ rest.opens ∧
        Climbs B mask inv rest (State.mk op (some r)).shortCircuits s ⟨op, some r⟩ stack k := by
    cases hc : (State.mk op (some r)).shortCircuits with
    | false =>
      rw [hc] at hn
      exact ih hn
    | true =>
      rw [hc] at hn
      obtain ⟨k, hk, hclimb, hpos⟩ : ∃ k ≤ rest.opens,
          Climbs B mask inv rest true s ⟨op, some r⟩ stack k ∧
            (true = true → rest.hasGroup = true → 1 ≤ k) :=
        climbs_of_accepted spec rest hrest true s ⟨op, some r⟩ stack hs (fun _ => hc) hlen
      exact ⟨k, hpos rfl (by simpa using hn), hk, hclimb⟩
  induction f generalizing op bm s stack with
  | nil => simp [inSync] at hsync
  | leaf a rest ih =>
    obtain ⟨ha, hrest⟩ := hok
    obtain ⟨s1, hleaf, hs1⟩ := spec.leaf ha hs
    cases hv : val a with
    | none =>
      rw [hv] at hleaf
      simp only [inSync, hv] at hsync
      obtain ⟨k, hpos, hk, skip', s', state', stack', hs', hsc', hops, hrun⟩ :=
        ih hrest op bm s1 stack hs1 hlen hsync
      refine ⟨k, hpos, hk, skip', s', state', stack', hs', hsc', hops, fun fs => ?_⟩
      exact (evalLoop_leaf_continue B mask _ s _ stack hleaf).trans (hrun fs)
    | some r =>
      rw [hv] at hleaf
      simp only [inSync, hv] at hsync
      obtain ⟨k, hpos, hk, skip', s', state', stack', hs', hsc', hops, hrun⟩ :=
        after rest hrest _ s1 hs1 stack hlen op hsync (ih hrest op _ s1 stack hs1 hlen)
      refine ⟨k, hpos, hk, skip', s', state', stack', hs', hsc', hops, fun fs => ?_⟩
      exact (evalLoop_leaf B mask _ s _ stack hleaf).trans (hrun fs)
  | group o members rest ihm ih =>
    obtain ⟨hg, hm, hrest⟩ := hok
    simp only [Forest.opens] at hlen ⊢
    cases hin : inSync mask val members o none with
    | false =>
      obtain ⟨k, hpos, hk, hmem⟩ := ihm hm o none s (⟨op, bm⟩ :: stack) hs
        (by simp only [length_cons]; omega) hin
      obtain ⟨j, hj, skip', s', state', stack', hs', hsc', hops, hrun⟩ :=
        Climbs.close rest hmem (by simp only [length_cons]; omega) fun sk s' st stk h1 h2 h3 => by
            simp only [length_cons] at h3
            obtain ⟨j, hj, hc, -⟩ :=
              climbs_of_accepted spec rest hrest sk s' st stk h1 h2 (by omega)
            exact ⟨j, hj, hc⟩
      refine ⟨k + j, by omega, by omega, skip', s', state', stack', hs', hsc', ?_, fun fs => ?_⟩
      · rw [hops]
        simp [Nat.add_right_comm k 1 j]
      · rw [filters_group_append, evalLoop_opening B mask _ s _ stack hg]
        exact hrun fs
    | true =>
      simp only [inSync, hin, Bool.true_and] at hsync
      obtain ⟨skipm, sm, hsm, hmem⟩ := evalLoop_inSync spec members hm o none s
        (⟨op, bm⟩ :: stack) hs hin
      obtain ⟨k, hpos, hk, skip', s', state', stack', hs', hsc', hops, hrun⟩ :=
        after rest hrest _ sm hsm stack (by omega) op hsync (ih hrest op _ sm stack hsm (by omega))
      refine ⟨k, hpos, by omega, skip', s', state', stack', hs', hsc', hops, fun fs => ?_⟩
      rw [filters_group_append, evalLoop_opening B mask _ s _ stack hg, hmem, evalLoop_closing]
      exact hrun fs

end Climbing

/-! ## Surrounding queries -/

def closers : List Bitmap → List SearchFilter
  | [] => []
  | u :: us => .documentSet u :: .endGroup :: closers us

attribute [local simp] closers

theorem closers_append (us vs : List Bitmap) : closers (us ++ vs) = closers us ++ closers vs := by
  induction us with
  | nil => rfl
  | cons u us ih => simp [closers, ih]

theorem filters_inside (us : List Bitmap) (g : Forest SearchLeaf) :
    filters (Forest.inside (us.map .documentSet) g) =
      List.replicate us.length SearchFilter.or ++ (filters g ++ closers us) := by
  induction us generalizing g with
  | nil => simp [Forest.inside, closers]
  | cons u us ih =>
    have hg : filters (.group .or (g.append (.leaf (.documentSet u) .nil)) .nil) =
        .or :: (filters g ++ [.documentSet u, .endGroup]) := by
      rw [filters_group, filters, Forest.render_append]
      simp [filters, Forest.render, SearchFilter.ofOp, SearchLeaf.toFilter]
    rw [map_cons, Forest.inside, ih, hg]
    simp [closers, replicate_succ', append_assoc]

section Surrounding

variable {σ : Type v} {ε : Type w} {B : Backend σ ε Nat} {mask : Bitmap}

/-- A backend that opens `Or` groups and takes document sets as they are. -/
structure PlainSets (B : Backend σ ε Nat) : Prop where
  group : B.group .or = .ok ()
  leaf : ∀ set s, B.leaf (.documentSet set) s = .ok (some (some set), s)

theorem evalLoop_replicate_or (plain : PlainSets B) (n : Nat) (fs : List SearchFilter) (s : σ)
    (state : State Nat) (stack : List (State Nat)) :
    evalLoop B mask (List.replicate (n + 1) .or ++ fs) false s state stack =
      evalLoop B mask fs false s ⟨.or, none⟩ (List.replicate n ⟨.or, none⟩ ++ state :: stack) := by
  induction n generalizing state stack with
  | zero => exact evalLoop_opening B mask fs s state stack plain.group
  | succ n ih =>
    have h := evalLoop_opening B mask (List.replicate (n + 1) .or ++ fs) s state stack plain.group
    have hr : List.replicate (n + 1) (State.mk Op.or (none : Option Bitmap)) ++ state :: stack =
        List.replicate n ⟨.or, none⟩ ++ ⟨.or, none⟩ :: state :: stack := by
      simp [replicate_succ']
    rw [hr, ← ih]
    exact h

/-- The closing filters, met on `vs.length` levels of `Or`, run down to the top level. -/
theorem evalLoop_closers (plain : PlainSets B) (vs : List Bitmap) (fs : List SearchFilter)
    (skip : Bool) (s : σ) (state : State Nat) (stack : List (State Nat))
    (hsc : skip = true → state.shortCircuits = true)
    (hops : (state :: stack).map State.op = List.replicate vs.length .or ++ [.and]) :
    ∃ skip' state', (skip' = true → state'.shortCircuits = true) ∧ state'.op = .and ∧
      evalLoop B mask (closers vs ++ fs) skip s state stack = evalLoop B mask fs skip' s state' [] := by
  induction vs generalizing skip state stack with
  | nil =>
    simp only [map_cons, length_nil, replicate_zero, nil_append, List.cons.injEq, map_eq_nil_iff] at hops
    obtain ⟨hop, rfl⟩ := hops
    exact ⟨skip, state, hsc, hop, rfl⟩
  | cons v vs ih =>
    simp only [map_cons, length_cons, replicate_succ, cons_append, List.cons.injEq] at hops
    obtain ⟨hop, hops⟩ := hops
    have hskip : skip = false := by
      cases skip with
      | false => rfl
      | true => simp [State.shortCircuits, hop] at hsc
    subst hskip
    have hleaf := evalLoop_leaf B mask (.endGroup :: (closers vs ++ fs)) s state stack (plain.leaf v s)
    cases stack with
    | nil => simp at hops
    | cons prev stack =>
      obtain ⟨skip', state', hsc', hop', hrun⟩ :=
        ih (prev.apply mask (state.apply mask (some v)).bm).shortCircuits
          (prev.apply mask (state.apply mask (some v)).bm) stack id hops
      refine ⟨skip', state', hsc', hop', ?_⟩
      refine hleaf.trans ?_
      rw [evalLoop_closing]
      exact hrun

theorem evalLoop_empty_top (plain : PlainSets B) (fs : List SearchFilter) (skip : Bool) (s : σ)
    (state : State Nat) (hop : state.op = .and) (hsc : skip = true → state.shortCircuits = true) :
    ∃ state', state'.bm = some ∅ ∧
      evalLoop B mask (.documentSet ∅ :: fs) skip s state [] = .ok state' := by
  cases skip with
  | true =>
    refine ⟨state, ?_, evalLoop_skip_top B mask _ s state⟩
    have h := hsc rfl
    simp only [State.shortCircuits, Bool.and_eq_true, decide_eq_true_eq] at h
    exact h.2
  | false =>
    have hbm : (state.apply mask (some ∅)).bm = some ∅ := by
      cases state with
      | mk op bm =>
        obtain rfl : op = .and := hop
        cases bm <;> simp [State.apply, absorb]
    have hcut : (state.apply mask (some ∅)).shortCircuits = true := by
      have hop' : (state.apply mask (some ∅)).op = .and := hop
      simp [State.shortCircuits, hbm, hop']
    have hleaf := evalLoop_leaf B mask fs s state [] (plain.leaf ∅ s)
    rw [hcut, evalLoop_skip_top] at hleaf
    exact ⟨_, hbm, hleaf⟩

variable {val : SearchLeaf → Option (Option Bitmap)}

/-- A list that falls out of step: `Or` groups around it, one more than it has
groups, are popped too early, and an empty set meant for one of them meets the
top level instead. -/
theorem evalLoop_inside_empty {inv : σ → Prop} {ok : SearchLeaf → Prop} (spec : LeafSpec val B inv ok)
    (plain : PlainSets B) {g : Forest SearchLeaf} (hok : Accepted B ok g) {s : σ} (hs : inv s)
    (hin : inSync mask val g .or none = false) :
    ∃ us : List Bitmap, mask ∈ us ∧ ∃ state, state.bm = some ∅ ∧
      evalLoop B mask (filters (Forest.inside (us.map .documentSet) g)) false s ⟨.and, none⟩ [] =
        .ok state := by
  obtain ⟨k, hpos, hk, skip, s', state, stack, -, hsc, hops, hrun⟩ :=
    climbs_of_not_inSync spec g hok .or none s
      (List.replicate g.opens ⟨.or, none⟩ ++ [⟨.and, none⟩]) hs (by simp) hin
  -- the empty set follows as many full ones as there are levels left
  have hops' : (state :: stack).map State.op =
      List.replicate (List.replicate (g.opens + 1 - k) mask).length .or ++ [.and] := by
    rw [hops, ← cons_append, ← replicate_succ]
    simp [drop_append_of_le_length, hk, Nat.le_succ_of_le]
  refine ⟨List.replicate (g.opens + 1 - k) mask ++ ∅ :: List.replicate (k - 1) mask, ?_, ?_⟩
  · exact mem_append_left _ (mem_replicate.mpr ⟨by omega, rfl⟩)
  · obtain ⟨skip', state', hsc', hop', hdown⟩ := evalLoop_closers plain
      (List.replicate (g.opens + 1 - k) mask)
      (.documentSet ∅ :: .endGroup :: closers (List.replicate (k - 1) mask)) skip s' state stack
      hsc hops'
    obtain ⟨state'', hbm, hend⟩ := evalLoop_empty_top plain
      (.endGroup :: closers (List.replicate (k - 1) mask)) skip' s' state' hop' hsc'
    refine ⟨state'', hbm, ?_⟩
    have hlen : (List.replicate (g.opens + 1 - k) mask ++
        ∅ :: List.replicate (k - 1) mask).length = g.opens + 1 := by
      simp only [length_append, length_replicate, length_cons]
      omega
    rw [filters_inside, hlen, evalLoop_replicate_or plain, closers_append]
    exact (hrun _).trans (hdown.trans hend)

theorem inSync_inside
    (hval : ∀ set, val (.documentSet set) = some (some set)) (us : List Bitmap) (o : Op)
    (h : Forest SearchLeaf) (hin : inSync mask val h o none = true) :
    topInSync mask val (Forest.inside (us.map .documentSet) (.group o h .nil)) none = true := by
  induction us generalizing o h with
  | nil => simp [Forest.inside, topInSync, hin]
  | cons u us ih =>
    refine ih .or (.group o h (.leaf (.documentSet u) .nil)) ?_
    simp [inSync, hin, hval, State.shortCircuits]

theorem populated_inside (us : List Bitmap) (o : Op)
    (h : Forest SearchLeaf) (hp : populated val (.group o h .nil) = true) :
    populated val (Forest.inside (us.map .documentSet) (.group o h .nil)) = true := by
  induction us generalizing o h with
  | nil => exact hp
  | cons u us ih =>
    refine ih .or (.group o h (.leaf (.documentSet u) .nil)) ?_
    simpa [populated] using hp

end Surrounding

end Bearmail.Search
