import Bearmail.Search.Filter

/-!
# The boolean evaluation loop

`SearchQuery::filter` (`local.rs`), `query_account` and `query_global`
(`query.rs`) run the same loop over the flat filter list: an explicit stack of
group states, a running bitmap per group that is `None` until the first member,
and a short circuit that skips filters once the running bitmap of an `And` is
empty. `evalLoop` is that loop; the three callers differ in their leaves, which
a `Backend` supplies.
-/

namespace Bearmail.Search

open Nested
open List Bool

universe u v w

variable {D : Type u} [DecidableEq D] {σ : Type v} {ε : Type w}

structure State (D : Type u) where
  op : Op
  bm : Option (Finset D)

/-- "Apply logical operation": the running bitmap of a group after one more result. -/
def absorb (mask : Finset D) : Op → Option (Finset D) → Option (Finset D) → Finset D
  | .and, some dest, some result => dest ∩ result
  | .and, some _, none => ∅
  | .or, some dest, some result => dest ∪ result
  | .or, some dest, none => dest
  | .not, some dest, some result => dest ∩ symmDiff result mask
  | .not, some dest, none => dest
  | .not, none, some result => symmDiff result mask
  | _, none, some result => result
  | .not, none, none => mask
  | _, none, none => ∅

def State.apply (mask : Finset D) (state : State D) (result : Option (Finset D)) : State D :=
  { state with bm := some (absorb mask state.op state.bm result) }

/-- "And short-circuit": the group is an `And` and its running bitmap is empty. -/
def State.shortCircuits (state : State D) : Bool :=
  decide (state.op = .and) && decide (state.bm = some ∅)

/-- What a caller of the loop does with the filters that are not `End`. A leaf
returns `none` for `continue`, and otherwise the optional bitmap it found; `s`
is the caller's own state. Opening a group can be refused. -/
structure Backend (σ : Type v) (ε : Type w) (D : Type u) where
  leaf : SearchLeaf → σ → Except ε (Option (Option (Finset D)) × σ)
  group : Op → Except ε Unit

/-- The loop. `skip` is set while the inner loop of the short circuit drops
filters: it consumes everything that is not an `End`. -/
def evalLoop (B : Backend σ ε D) (mask : Finset D) :
    List SearchFilter → Bool → σ → State D → List (State D) → Except ε (State D)
  | [], _, _, state, _ => .ok state
  | filter :: filters, skip, s, state, stack =>
    if skip && decide (filter ≠ .endGroup) then evalLoop B mask filters true s state stack
    else
      match filter.token with
      | .opening op =>
        match B.group op with
        | .error e => .error e
        | .ok _ => evalLoop B mask filters false s ⟨op, none⟩ (state :: stack)
      | .closing =>
        match stack with
        -- an `End` with nothing to pop leaves the loop
        | [] => .ok state
        | prev :: stack =>
          let next := prev.apply mask state.bm
          evalLoop B mask filters next.shortCircuits s next stack
      | .leaf a =>
        match B.leaf a s with
        | .error e => .error e
        | .ok (none, s) => evalLoop B mask filters false s state stack
        | .ok (some result, s) =>
          let next := state.apply mask result
          evalLoop B mask filters next.shortCircuits s next stack

variable (f : Forest SearchLeaf) (op : Op)

section Steps

variable (B : Backend σ ε D) (mask : Finset D) (fs : List SearchFilter) (s : σ)
  (state : State D) (stack : List (State D))

theorem toFilter_ne_end (a : SearchLeaf) : a.toFilter ≠ .endGroup := by
  cases a <;> simp [SearchLeaf.toFilter]

theorem ofOp_ne_end : SearchFilter.ofOp op ≠ .endGroup := by
  cases op <;> simp [SearchFilter.ofOp]

attribute [local simp] evalLoop

theorem evalLoop_skip {filter : SearchFilter} (h : filter ≠ .endGroup) :
    evalLoop B mask (filter :: fs) true s state stack = evalLoop B mask fs true s state stack := by
  simp [h]

theorem evalLoop_opening {op : Op} (h : B.group op = .ok ()) :
    evalLoop B mask (.ofOp op :: fs) false s state stack =
      evalLoop B mask fs false s ⟨op, none⟩ (state :: stack) := by
  simp [h]

theorem evalLoop_closing (skip : Bool) (prev : State D) :
    evalLoop B mask (.endGroup :: fs) skip s state (prev :: stack) =
      evalLoop B mask fs (prev.apply mask state.bm).shortCircuits s
        (prev.apply mask state.bm) stack := by
  simp [SearchFilter.token]

theorem evalLoop_leaf {a : SearchLeaf} {result : Option (Finset D)} {s' : σ}
    (h : B.leaf a s = .ok (some result, s')) :
    evalLoop B mask (a.toFilter :: fs) false s state stack =
      evalLoop B mask fs (state.apply mask result).shortCircuits s' (state.apply mask result) stack := by
  simp [h]

theorem evalLoop_leaf_continue {a : SearchLeaf} {s' : σ} (h : B.leaf a s = .ok (none, s')) :
    evalLoop B mask (a.toFilter :: fs) false s state stack =
      evalLoop B mask fs false s' state stack := by
  simp [h]

/-- With nothing on the stack, a fired short circuit ends the evaluation: the
next `End`, whichever group it closes, leaves the loop. -/
theorem evalLoop_skip_top : evalLoop B mask fs true s state [] = .ok state := by
  induction fs with
  | nil => rfl
  | cons filter fs ih =>
    by_cases h : filter = .endGroup
    · subst h
      simp [SearchFilter.token]
    · rw [evalLoop_skip B mask fs s state [] h, ih]

end Steps

/-! ## What the loop computes while it stays in step with the brackets -/

section Running

variable (mask : Finset D) (val : SearchLeaf → Option (Option (Finset D)))

/-- The running bitmap of a group of kind `op` after all the members of `f`,
starting from `bm`. `val` gives what each leaf contributes. -/
def running : Forest SearchLeaf → Op → Option (Finset D) → Option (Finset D)
  | .nil, _, bm => bm
  | .leaf a rest, op, bm =>
    match val a with
    | none => running rest op bm
    | some result => running rest op (some (absorb mask op bm result))
  | .group o members rest, op, bm =>
    running rest op (some (absorb mask op bm (running members o none)))

/-- The short circuit of a nested group never has a group to skip: once the
running bitmap of an `And` is empty, all its later members are leaves. -/
def inSync : Forest SearchLeaf → Op → Option (Finset D) → Bool
  | .nil, _, _ => true
  | .leaf a rest, op, bm =>
    match val a with
    | none => inSync rest op bm
    | some result =>
      let next := absorb mask op bm result
      if (State.mk op (some next)).shortCircuits then !rest.hasGroup else inSync rest op (some next)
  | .group o members rest, op, bm =>
    let next := absorb mask op bm (running mask val members o none)
    inSync members o none &&
      if (State.mk op (some next)).shortCircuits then !rest.hasGroup else inSync rest op (some next)

/-- The condition on the top level, whose short circuit may skip anything. -/
def topInSync : Forest SearchLeaf → Option (Finset D) → Bool
  | .nil, _ => true
  | .leaf a rest, bm =>
    match val a with
    | none => topInSync rest bm
    | some result =>
      let next := absorb mask .and bm result
      (State.mk .and (some next)).shortCircuits || topInSync rest (some next)
  | .group o members rest, bm =>
    let next := absorb mask .and bm (running mask val members o none)
    inSync mask val members o none &&
      ((State.mk .and (some next)).shortCircuits || topInSync rest (some next))

def Accepted (B : Backend σ ε D) (ok : SearchLeaf → Prop) : Forest SearchLeaf → Prop
  | .nil => True
  | .leaf a rest => ok a ∧ Accepted B ok rest
  | .group op members rest => B.group op = .ok () ∧ Accepted B ok members ∧ Accepted B ok rest

/-- Every accepted leaf returns `val`, whatever the backend's state, as long as
that state satisfies `inv`. -/
structure LeafSpec (B : Backend σ ε D) (inv : σ → Prop) (ok : SearchLeaf → Prop) : Prop where
  leaf : ∀ {a s}, ok a → inv s → ∃ s', B.leaf a s = .ok (val a, s') ∧ inv s'

end Running

section InStep

variable {B : Backend σ ε D} {mask : Finset D} {inv : σ → Prop} {ok : SearchLeaf → Prop}
  {val : SearchLeaf → Option (Option (Finset D))}

theorem shortCircuits_iff {op : Op} {b : Finset D} :
    (State.mk op (some b)).shortCircuits = true ↔ op = .and ∧ b = ∅ := by
  simp [State.shortCircuits]

omit [DecidableEq D] in
theorem accepted_of_leaves (hg : ∀ op, B.group op = .ok ()) (f : Forest SearchLeaf)
    (h : ∀ a ∈ f.leaves, ok a) : Accepted B ok f := by
  induction f with
  | nil => trivial
  | leaf a rest ih =>
    exact ⟨h a mem_cons_self, ih fun b hb => h b (mem_cons_of_mem a hb)⟩
  | group op members rest ihm ih =>
    exact ⟨hg op, ihm fun b hb => h b (mem_append_left _ hb), ih fun b hb => h b (mem_append_right _ hb)⟩

theorem running_and_empty : running mask val f .and (some ∅) = some ∅ := by
  have habs : ∀ r : Option (Finset D), absorb mask .and (some ∅) r = ∅ := by
    intro r
    cases r <;> simp [absorb]
  induction f with
  | nil => rfl
  | leaf a rest ih =>
    unfold running
    cases val a with
    | none => exact ih
    | some r => simpa only [habs] using ih
  | group o members rest _ ih =>
    unfold running
    simpa only [habs] using ih

theorem evalLoop_skip_leaves (hf : f.hasGroup = false) (fs : List SearchFilter) (s : σ)
    (state : State D) (stack : List (State D)) :
    evalLoop B mask (filters f ++ fs) true s state stack = evalLoop B mask fs true s state stack := by
  induction f with
  | nil => rfl
  | leaf a rest ih =>
    have hr : rest.hasGroup = false := hf
    have h := evalLoop_skip B mask (filters rest ++ fs) s state stack (toFilter_ne_end a)
    exact h.trans (ih hr)
  | group op members rest _ _ => simp [Forest.hasGroup] at hf

theorem inSync_of_no_group (hf : f.hasGroup = false) (op : Op) (bm : Option (Finset D)) : inSync mask val f op bm = true := by
  induction f generalizing bm with
  | nil => rfl
  | leaf a rest ih =>
    have hr : rest.hasGroup = false := hf
    unfold inSync
    cases val a with
    | none => exact ih hr bm
    | some r => simp [hr, ih hr]
  | group o members rest _ _ => simp [Forest.hasGroup] at hf

theorem topInSync_of_no_group (hf : f.hasGroup = false) (bm : Option (Finset D)) : topInSync mask val f bm = true := by
  induction f generalizing bm with
  | nil => rfl
  | leaf a rest ih =>
    have hr : rest.hasGroup = false := hf
    unfold topInSync
    cases val a with
    | none => exact ih hr bm
    | some r => simp [ih hr]
  | group o members rest _ _ => simp [Forest.hasGroup] at hf

/-- After one more result `r`, the loop either goes on with the rest of the
group or skips it, and both ways end with the bitmap `running` computes. -/
theorem evalLoop_after_result (rest : Forest SearchLeaf) (op : Op) (r : Finset D)
    (s : σ) (stack : List (State D)) (hs : inv s)
    (hsync : (if (State.mk op (some r)).shortCircuits then !rest.hasGroup
      else inSync mask val rest op (some r)) = true)
    (ih : inSync mask val rest op (some r) = true → ∃ skip s', inv s' ∧ ∀ fs,
      evalLoop B mask (filters rest ++ fs) false s ⟨op, some r⟩ stack =
        evalLoop B mask fs skip s' ⟨op, running mask val rest op (some r)⟩ stack) :
    ∃ skip s', inv s' ∧ ∀ fs,
      evalLoop B mask (filters rest ++ fs) (State.mk op (some r)).shortCircuits s ⟨op, some r⟩ stack =
        evalLoop B mask fs skip s' ⟨op, running mask val rest op (some r)⟩ stack := by
  cases hc : (State.mk op (some r)).shortCircuits with
  | false =>
    rw [hc] at hsync
    exact ih hsync
  | true =>
    rw [hc] at hsync
    obtain ⟨rfl, rfl⟩ := shortCircuits_iff.mp hc
    refine ⟨true, s, hs, fun fs => ?_⟩
    rw [running_and_empty]
    exact evalLoop_skip_leaves rest (by simpa using hsync) fs s _ stack

theorem evalLoop_inSync (spec : LeafSpec val B inv ok) (f : Forest SearchLeaf)
    (hok : Accepted B ok f) (op : Op) (bm : Option (Finset D)) (s : σ)
    (stack : List (State D)) (hs : inv s) (hsync : inSync mask val f op bm = true) :
    ∃ skip s', inv s' ∧ ∀ fs, evalLoop B mask (filters f ++ fs) false s ⟨op, bm⟩ stack =
      evalLoop B mask fs skip s' ⟨op, running mask val f op bm⟩ stack := by
  induction f generalizing op bm s stack with
  | nil => exact ⟨false, s, hs, fun _ => rfl⟩
  | leaf a rest ih =>
    obtain ⟨ha, hrest⟩ := hok
    obtain ⟨s', hleaf, hs'⟩ := spec.leaf ha hs
    cases hv : val a with
    | none =>
      rw [hv] at hleaf
      simp only [inSync, hv] at hsync
      obtain ⟨skip, s'', hs'', hrun⟩ := ih hrest op bm s' stack hs' hsync
      refine ⟨skip, s'', hs'', fun fs => ?_⟩
      simp only [running, hv]
      exact (evalLoop_leaf_continue B mask (filters rest ++ fs) s ⟨op, bm⟩ stack hleaf).trans (hrun fs)
    | some r =>
      rw [hv] at hleaf
      simp only [inSync, hv] at hsync
      obtain ⟨skip, s'', hs'', hrun⟩ := evalLoop_after_result rest op (absorb mask op bm r) s'
        stack hs' hsync (ih hrest op _ s' stack hs')
      refine ⟨skip, s'', hs'', fun fs => ?_⟩
      simp only [running, hv]
      exact (evalLoop_leaf B mask (filters rest ++ fs) s ⟨op, bm⟩ stack hleaf).trans (hrun fs)
  | group o members rest ihm ih =>
    obtain ⟨hg, hm, hrest⟩ := hok
    obtain ⟨hsm, hsync⟩ := (and_eq_true _ _).mp hsync
    obtain ⟨skipm, sm, hsm', hmem⟩ := ihm hm o none s (⟨op, bm⟩ :: stack) hs hsm
    obtain ⟨skip, s'', hs'', hrun⟩ := evalLoop_after_result rest op
      (absorb mask op bm (running mask val members o none)) sm stack hsm' hsync
      (ih hrest op _ sm stack hsm')
    refine ⟨skip, s'', hs'', fun fs => ?_⟩
    rw [filters_group_append, evalLoop_opening B mask _ s _ stack hg, hmem, evalLoop_closing]
    exact hrun fs

/-- A fired short circuit ends the run of the top level with an empty bitmap,
which no later member changes. -/
theorem evalLoop_top_after_result (rest : Forest SearchLeaf) (r : Finset D) (s : σ)
    (hsync : ((State.mk .and (some r)).shortCircuits || topInSync mask val rest (some r)) = true)
    (ih : topInSync mask val rest (some r) = true →
      evalLoop B mask (filters rest) false s ⟨.and, some r⟩ [] =
        .ok ⟨.and, running mask val rest .and (some r)⟩) :
    evalLoop B mask (filters rest) (State.mk .and (some r)).shortCircuits s ⟨.and, some r⟩ [] =
      .ok ⟨.and, running mask val rest .and (some r)⟩ := by
  cases hc : (State.mk .and (some r)).shortCircuits with
  | false =>
    rw [hc] at hsync
    exact ih (by simpa using hsync)
  | true =>
    obtain ⟨-, rfl⟩ := shortCircuits_iff.mp hc
    rw [evalLoop_skip_top, running_and_empty]

theorem evalLoop_top (spec : LeafSpec val B inv ok) (f : Forest SearchLeaf)
    (hok : Accepted B ok f) (bm : Option (Finset D)) (s : σ) (hs : inv s)
    (hsync : topInSync mask val f bm = true) :
    evalLoop B mask (filters f) false s ⟨.and, bm⟩ [] = .ok ⟨.and, running mask val f .and bm⟩ := by
  induction f generalizing bm s with
  | nil => rfl
  | leaf a rest ih =>
    obtain ⟨ha, hrest⟩ := hok
    obtain ⟨s', hleaf, hs'⟩ := spec.leaf ha hs
    cases hv : val a with
    | none =>
      rw [hv] at hleaf
      simp only [topInSync, hv] at hsync
      simp only [running, hv]
      exact (evalLoop_leaf_continue B mask (filters rest) s ⟨.and, bm⟩ [] hleaf).trans
        (ih hrest bm s' hs' hsync)
    | some r =>
      rw [hv] at hleaf
      simp only [topInSync, hv] at hsync
      simp only [running, hv]
      exact (evalLoop_leaf B mask (filters rest) s ⟨.and, bm⟩ [] hleaf).trans
        (evalLoop_top_after_result rest _ s' hsync (ih hrest _ s' hs'))
  | group o members rest _ ih =>
    obtain ⟨hg, hm, hrest⟩ := hok
    obtain ⟨hsm, hsync⟩ := (and_eq_true _ _).mp hsync
    obtain ⟨skipm, sm, hsm', hmem⟩ := evalLoop_inSync spec members hm o none s [⟨.and, bm⟩] hs hsm
    rw [filters_group, evalLoop_opening B mask _ s _ [] hg, hmem, evalLoop_closing]
    exact evalLoop_top_after_result rest _ sm hsync (ih hrest _ sm hsm')

end InStep

/-! ## The meaning of the running bitmap -/

section Meaning

variable {mask : Finset D} {val : SearchLeaf → Option (Option (Finset D))}

def leafSet (val : SearchLeaf → Option (Option (Finset D))) (a : SearchLeaf) :
    Option (Finset D) :=
  (val a).map (·.getD ∅)

/-- Whether a list has a member the loop does not pass over. -/
def hasMember (val : SearchLeaf → Option (Option (Finset D))) : Forest SearchLeaf → Bool
  | .nil => false
  | .leaf a rest => (val a).isSome || hasMember val rest
  | .group _ _ _ => true

/-- Every `And` and every `Not` below has a member. -/
def populated (val : SearchLeaf → Option (Option (Finset D))) : Forest SearchLeaf → Bool
  | .nil => true
  | .leaf _ rest => populated val rest
  | .group op members rest =>
    (decide (op = .or) || hasMember val members) && populated val members && populated val rest

/-- What the running bitmap of a group says about one document; before the
first member, a group of kind `And` or `Not` has not excluded anything. -/
def Denotes (op : Op) (bm : Option (Finset D)) (d : D) : Prop :=
  match bm with
  | none => op ≠ .or
  | some b => d ∈ b

theorem mem_absorb {d : D} (hd : d ∈ mask) (op : Op) (bm r : Option (Finset D)) :
    d ∈ absorb mask op bm r ↔ op.join (Denotes op bm d) (op.counts (d ∈ r.getD ∅)) := by
  cases op <;> cases bm <;> cases r <;>
    simp [absorb, Denotes, Op.join, Op.counts, Finset.mem_symmDiff, hd]

theorem running_isSome (bm : Option (Finset D)) (h : (bm.isSome || hasMember val f) = true) : (running mask val f op bm).isSome = true := by
  induction f generalizing bm with
  | nil => simpa [hasMember, running] using h
  | leaf a rest ih =>
    unfold running
    cases hv : val a with
    | none => exact ih bm (by simpa [hasMember, hv] using h)
    | some r => exact ih _ rfl
  | group o members rest _ ih => exact ih _ rfl

omit [DecidableEq D] in
theorem denotes_getD {op : Op} {bm : Option (Finset D)} (h : op = .or ∨ bm.isSome = true) (d : D) :
    Denotes op bm d ↔ d ∈ bm.getD ∅ := by
  cases bm with
  | none => simpa [Denotes] using h
  | some b => rfl

omit [DecidableEq D] in
theorem join_denotes_none (d : D) (p : Prop) :
    op.join (Denotes op (none : Option (Finset D)) d) p ↔ p := by
  cases op <;> simp [Op.join, Denotes]

theorem mem_running_of_denotes {d : D} (hd : d ∈ mask) {o : Op} {members : Forest SearchLeaf}
    (hne : o = .or ∨ hasMember val members = true)
    (h : Denotes o (running mask val members o none) d ↔ o.join (Denotes o (none : Option (Finset D)) d)
        (o.Holds d (members.values mask (leafSet val)))) :
    d ∈ (running mask val members o none).getD ∅ ↔
      d ∈ o.combine mask (members.values mask (leafSet val)) := by
  have hsome : o = .or ∨ (running mask val members o none).isSome = true := by
    rcases hne with hor | hm
    · exact Or.inl hor
    · exact Or.inr (running_isSome members o none (by simp [hm]))
  rw [← denotes_getD hsome, h, join_denotes_none, mem_combine hd]

theorem holds_running {d : D} (hd : d ∈ mask) (f : Forest SearchLeaf)
    (hpop : populated val f = true) (op : Op) (bm : Option (Finset D)) :
    Denotes op (running mask val f op bm) d ↔
      op.join (Denotes op bm d) (op.Holds d (f.values mask (leafSet val))) := by
  induction f generalizing op bm with
  | nil => cases op <;> simp [running, Forest.values, Op.join, Op.Holds]
  | leaf a rest ih =>
    have hrest : populated val rest = true := hpop
    cases hv : val a with
    | none => simpa [running, hv, Forest.values, leafSet] using ih hrest op bm
    | some r =>
      have h := ih hrest op (some (absorb mask op bm r))
      simp only [running, hv, Forest.values, leafSet, Option.map_some, Option.toList_some,
        singleton_append]
      rw [h, holds_cons, ← join_assoc]
      simp only [Denotes]
      rw [mem_absorb hd]
      rfl
  | group o members rest ihm ih =>
    simp only [populated, and_eq_true, or_eq_true, decide_eq_true_eq] at hpop
    obtain ⟨⟨hne, hm⟩, hrest⟩ := hpop
    have hmem := mem_running_of_denotes hd hne (ihm hm o none)
    have h := ih hrest op (some (absorb mask op bm (running mask val members o none)))
    simp only [running, Forest.values]
    rw [h, holds_cons, ← join_assoc]
    simp only [Denotes]
    rw [mem_absorb hd, hmem]
    rfl

/-- The reference result of a query: an `And` of the top-level members, within the mask. -/
def reference (mask : Finset D) (val : SearchLeaf → Option (Option (Finset D)))
    (f : Forest SearchLeaf) : Finset D :=
  Op.and.combine mask (f.values mask (leafSet val)) ∩ mask

theorem running_inter_mask (hpop : populated val f = true) (hmem : hasMember val f = true) :
    (running mask val f .and none).getD ∅ ∩ mask = reference mask val f := by
  ext d
  simp only [reference, Finset.mem_inter]
  refine and_congr_left fun hd => ?_
  exact mem_running_of_denotes hd (Or.inr hmem) (holds_running hd f hpop .and none)

end Meaning

end Bearmail.Search
