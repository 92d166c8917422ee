import Mathlib.Data.List.Basic

/-!
# Batches of writes

A batch of writes is cut into transactions. A transaction does all of its writes, or none when one of
them fails; behind a transaction that fails nothing more is done.
-/

namespace Batch

variable {σ ω : Type*} (apply : σ → ω → Option σ) (isLarge : List ω → Bool)

def transact : σ → List ω → Option σ
  | s, [] => some s
  | s, write :: writes => (apply s write).bind fun next => transact next writes

def cut : List ω → List ω → List (List ω)
  | chunk, [] => [chunk]
  | chunk, write :: writes =>
    if isLarge (chunk ++ [write]) then (chunk ++ [write]) :: cut [] writes
    else cut (chunk ++ [write]) writes

/-- The transactions up to the first that fails, and whether none did. -/
def commitAll : σ → List (List ω) → σ × Bool
  | s, [] => (s, true)
  | s, chunk :: rest =>
    match transact apply s chunk with
    | none => (s, false)
    | some next => commitAll next rest

def commit (s : σ) (writes : List ω) : σ × Bool := commitAll apply s (cut isLarge [] writes)

variable {apply isLarge}

theorem transact_append (s : σ) (writes writes' : List ω) : transact apply s (writes ++ writes') =
      (transact apply s writes).bind fun next => transact apply next writes' := by
  induction writes generalizing s with
  | nil => rfl
  | cons write writes ih =>
    rw [List.cons_append, transact, transact]
    cases apply s write with
    | none => rfl
    | some next => exact ih next

theorem flatten_cut (chunk writes : List ω) : (cut isLarge chunk writes).flatten = chunk ++ writes := by
  induction writes generalizing chunk with
  | nil => simp [cut]
  | cons write writes ih =>
    rw [cut]
    split
    · rw [List.flatten_cons, ih]
      simp
    · rw [ih]
      simp

theorem commitAll_of_transact {s s' : σ} {chunks : List (List ω)}
    (h : transact apply s chunks.flatten = some s') : commitAll apply s chunks = (s', true) := by
  induction chunks generalizing s with
  | nil =>
    rw [List.flatten_nil, transact, Option.some.injEq] at h
    rw [commitAll, h]
  | cons chunk chunks ih =>
    rw [List.flatten_cons, transact_append, Option.bind_eq_some_iff] at h
    obtain ⟨next, hchunk, hrest⟩ := h
    rw [commitAll, hchunk]
    exact ih hrest

theorem commit_of_transact {s s' : σ} {writes : List ω} (h : transact apply s writes = some s') :
    commit apply isLarge s writes = (s', true) := by
  refine commitAll_of_transact ?_
  rw [flatten_cut]
  exact h

end Batch
