/-!
# Receivers

A receiver is given a string in pieces and stops behind what it was made to receive. Its laws say that it
does not matter where the string is cut, and that it leaves alone what stands behind.
-/

/-- What a receiver makes of a piece: a state to go on from, or a result and the rest of the piece. -/
inductive Taken (α σ β : Type) where
  | more (state : σ)
  | done (result : β) (rest : List α)

structure Receiver (α σ β : Type) where
  ingest : σ → List α → Taken α σ β
  more_append : ∀ {s s' xs} (ys : List α), ingest s xs = .more s' → ingest s (xs ++ ys) = ingest s' ys
  done_append : ∀ {s b xs rest} (ys : List α), ingest s xs = .done b rest →
    ingest s (xs ++ ys) = .done b (rest ++ ys)
  shrinks : ∀ {s b xs rest}, ingest s xs = .done b rest → rest.length ≤ xs.length

namespace Receiver

variable {α σ β : Type}

def itemwise (step : σ → α → σ ⊕ β) : σ → List α → Taken α σ β
  | s, [] => .more s
  | s, x :: xs =>
    match step s x with
    | .inl s => itemwise step s xs
    | .inr b => .done b xs

theorem itemwise_more_append (step : σ → α → σ ⊕ β) {s s' : σ} {xs : List α} (ys : List α)
    (h : itemwise step s xs = .more s') : itemwise step s (xs ++ ys) = itemwise step s' ys := by
  induction xs generalizing s with
  | nil =>
    cases h
    rfl
  | cons x xs ih =>
    rw [List.cons_append, itemwise]
    rw [itemwise] at h
    cases hstep : step s x with
    | inl s =>
      rw [hstep] at h
      exact ih h
    | inr b =>
      rw [hstep] at h
      cases h

theorem itemwise_done (step : σ → α → σ ⊕ β) {s : σ} {b : β} {xs rest : List α}
    (h : itemwise step s xs = .done b rest) :
    rest.length < xs.length ∧ ∀ ys, itemwise step s (xs ++ ys) = .done b (rest ++ ys) := by
  induction xs generalizing s with
  | nil => cases h
  | cons x xs ih =>
    rw [itemwise] at h
    cases hstep : step s x with
    | inl s =>
      rw [hstep] at h
      refine ⟨Nat.lt_succ_of_lt (ih h).1, fun ys => ?_⟩
      rw [List.cons_append, itemwise, hstep]
      exact (ih h).2 ys
    | inr b =>
      rw [hstep] at h
      cases h
      simp [itemwise, hstep]

def ofStep (step : σ → α → σ ⊕ β) : Receiver α σ β where
  ingest := itemwise step
  more_append := itemwise_more_append step
  done_append ys h := (itemwise_done step h).2 ys
  shrinks h := Nat.le_of_lt (itemwise_done step h).1

theorem ofStep_take {step : σ → α → σ ⊕ β} {s : σ} {b : β} {xs rest : List α}
    (h : (ofStep step).ingest s xs = .done b rest) : rest.length < xs.length :=
  (itemwise_done step h).1

def never : Receiver α σ β where
  ingest s _ := .more s
  more_append _ h := by cases h; rfl
  done_append _ h := by cases h
  shrinks h := by cases h

end Receiver
