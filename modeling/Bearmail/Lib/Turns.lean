import Mathlib.Data.Nat.Notation

/-!
# Loops that come to an end

A loop that takes turns until one stops it. A rank that falls with every turn bounds their number, so that
the loop is a function of the state it starts in. Its rules unfold one turn.
-/

/-- What a turn comes to: another turn, with what it reported, or the end. -/
inductive Turn (σ ε : Type) where
  | again (next : σ) (events : List ε)
  | stop (last : σ)

structure Loop (σ ε : Type) where
  turn : σ → Turn σ ε
  rank : σ → ℕ
  falls : ∀ {s next events}, turn s = .again next events → rank next < rank s

namespace Loop

variable {σ ε : Type} (loop : Loop σ ε)

def go : ℕ → σ → σ × List ε
  | 0, s => (s, [])
  | turns + 1, s =>
    match loop.turn s with
    | .stop last => (last, [])
    | .again next events => ((go turns next).1, events ++ (go turns next).2)

def run (s : σ) : σ × List ε := loop.go (loop.rank s + 1) s

variable {loop}

variable {s : σ}

attribute [local simp] go

theorem go_eq {turns turns' : ℕ} (h : loop.rank s < turns) (h' : loop.rank s < turns') :
    loop.go turns s = loop.go turns' s := by
  induction turns generalizing turns' s with
  | zero => omega
  | succ turns ih =>
    cases turns' with
    | zero => omega
    | succ turns' =>
      rw [go, go]
      cases hturn : loop.turn s with
      | stop last => rfl
      | again next events =>
        have hfalls := loop.falls hturn
        have hgo : loop.go turns next = loop.go turns' next := ih (by omega) (by omega)
        simp [hgo]

theorem run_stop {last : σ} (h : loop.turn s = .stop last) : loop.run s = (last, []) := by
  rw [run, go, h]

theorem run_again {next : σ} {events : List ε} (h : loop.turn s = .again next events) :
    loop.run s = ((loop.run next).1, events ++ (loop.run next).2) := by
  have hgo : loop.go (loop.rank s) next = loop.run next :=
    go_eq (loop.falls h) (Nat.lt_succ_self _)
  rw [run, go, h]
  dsimp only
  rw [hgo]

theorem run_congr {s' : σ} (h : loop.turn s = loop.turn s') : loop.run s = loop.run s' := by
  cases hturn : loop.turn s' with
  | stop last => rw [run_stop hturn, run_stop (h.trans hturn)]
  | again next events => rw [run_again hturn, run_again (h.trans hturn)]

theorem turns_induction {motive : σ → Prop}
    (turn : ∀ s, (∀ next events, loop.turn s = .again next events → motive next) → motive s)
    (s : σ) : motive s := by
  induction hrank : loop.rank s using Nat.strongRecOn generalizing s with
  | _ n ih =>
    exact turn s fun next events h => ih (loop.rank next) (hrank ▸ loop.falls h) next rfl

theorem run_holds {inv post : σ → Prop}
    (hagain : ∀ s next events, inv s → loop.turn s = .again next events → inv next)
    (hstop : ∀ s last, inv s → loop.turn s = .stop last → post last) (h : inv s) :
    post (loop.run s).1 := by
  induction s using loop.turns_induction with
  | turn s ih =>
    cases hturn : loop.turn s with
    | stop last =>
      rw [run_stop hturn]
      exact hstop s last h hturn
    | again next events =>
      rw [run_again hturn]
      exact ih next events hturn (hagain s next events h hturn)

/-! ## What holds at every turn -/

variable (loop) in
def goAlong (cond : σ → Prop) : ℕ → σ → Prop
  | 0, _ => True
  | turns + 1, s => cond s ∧ ∀ next events, loop.turn s = .again next events → goAlong cond turns next

variable (loop) in
/-- A condition that holds of the state before every turn. -/
def Along (cond : σ → Prop) (s : σ) : Prop := loop.goAlong cond (loop.rank s + 1) s

theorem goAlong_iff {cond : σ → Prop} {turns turns' : ℕ} (h : loop.rank s < turns)
    (h' : loop.rank s < turns') : loop.goAlong cond turns s ↔ loop.goAlong cond turns' s := by
  induction turns generalizing turns' s with
  | zero => omega
  | succ turns ih =>
    cases turns' with
    | zero => omega
    | succ turns' =>
      refine and_congr_right fun _ => forall_congr' fun next => forall_congr' fun events => ?_
      refine imp_congr_right fun hturn => ?_
      have hfalls := loop.falls hturn
      exact ih (by omega) (by omega)

theorem along_stop {cond : σ → Prop} {last : σ} (h : loop.turn s = .stop last) :
    loop.Along cond s ↔ cond s := by
  refine ⟨fun halong => halong.1, fun hcond => ⟨hcond, fun next events hturn => ?_⟩⟩
  rw [h] at hturn
  cases hturn

theorem along_again {cond : σ → Prop} {next : σ} {events : List ε}
    (h : loop.turn s = .again next events) : loop.Along cond s ↔ cond s ∧ loop.Along cond next := by
  have hgo : loop.goAlong cond (loop.rank s) next ↔ loop.Along cond next :=
    goAlong_iff (loop.falls h) (Nat.lt_succ_self _)
  refine and_congr_right fun _ => ⟨fun hnext => hgo.mp (hnext next events h), ?_⟩
  intro halong next' events' hturn
  rw [h] at hturn
  cases hturn
  exact hgo.mpr halong

end Loop
