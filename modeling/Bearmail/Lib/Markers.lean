import Mathlib.Data.List.Flatten

/-!
# Operations that set the context of others

A list of operations of which some, the markers, set the context of those that follow: what is done in
which context, and lists that are cut in segments at offsets.
-/

namespace Markers

open List

variable {κ ο σ ε : Type*} (mark : ο → κ → κ)

/-- The context after some operations. An operation that is no marker leaves it as it is. -/
def after (context : κ) (ops : List ο) : κ := ops.foldl (fun context op => mark op context) context

/-- Each operation with the context it is done in. -/
def trace : κ → List ο → List (κ × ο)
  | _, [] => []
  | context, op :: ops => (context, op) :: trace (mark op context) ops

variable (context : κ) (ops : List ο)

@[simp] theorem after_nil : after mark context [] = context := rfl

@[simp] theorem after_cons (op : ο) (ops : List ο) :
    after mark context (op :: ops) = after mark (mark op context) ops := rfl

@[simp] theorem after_append (ops' : List ο) :
    after mark context (ops ++ ops') = after mark (after mark context ops) ops' :=
  foldl_append

@[simp] theorem trace_nil : trace mark context [] = [] := rfl

@[simp] theorem trace_cons (op : ο) (ops : List ο) :
    trace mark context (op :: ops) = (context, op) :: trace mark (mark op context) ops := rfl

@[simp] theorem trace_append (ops' : List ο) : trace mark context (ops ++ ops') =
      trace mark context ops ++ trace mark (after mark context ops) ops' := by
  induction ops generalizing context with
  | nil => rfl
  | cons op ops ih => simp [ih]

theorem mem_of_mem_trace {context : κ} {ops : List ο} {entry : κ × ο}
    (h : entry ∈ trace mark context ops) : entry.2 ∈ ops := by
  induction ops generalizing context with
  | nil => exact absurd h not_mem_nil
  | cons op rest ih =>
    rcases mem_cons.mp h with rfl | hrest
    · exact mem_cons_self
    · exact mem_cons_of_mem _ (ih hrest)

def loop (exec : κ → ο → σ → Except ε σ) : κ → List ο → σ → Except ε σ
  | _, [], s => .ok s
  | context, op :: ops, s => exec context op s >>= loop exec (mark op context) ops

theorem loop_eq_foldlM (exec : κ → ο → σ → Except ε σ) (context : κ) (ops : List ο) (s : σ) :
    loop mark exec context ops s =
      (trace mark context ops).foldlM (fun s entry => exec entry.1 entry.2 s) s := by
  induction ops generalizing context s with
  | nil => rfl
  | cons op ops ih =>
    exact bind_congr fun s' => ih (mark op context) s'

/-! ## Segments -/

def offsets : Nat → List (List ο) → List Nat
  | _, [] => []
  | start, segment :: rest => (start + segment.length) :: offsets (start + segment.length) rest

def slices (ops : List ο) : Nat → List Nat → List (List ο)
  | _, [] => []
  | start, stop :: rest => (ops.drop start).take (stop - start) :: slices ops stop rest

theorem offsets_append (start : Nat) (segments segments' : List (List ο)) :
    offsets start (segments ++ segments') =
      offsets start segments ++ offsets (start + segments.flatten.length) segments' := by
  induction segments generalizing start with
  | nil => simp [offsets]
  | cons segment rest ih => simp [offsets, ih, Nat.add_assoc]

theorem slices_offsets (before : List ο) (segments : List (List ο)) :
    slices (before ++ segments.flatten) before.length (offsets before.length segments) =
      segments := by
  induction segments generalizing before with
  | nil => rfl
  | cons segment rest ih =>
    have hrest := ih (before ++ segment)
    rw [length_append, append_assoc, ← flatten_cons] at hrest
    rw [offsets, slices, hrest, drop_left, Nat.add_sub_cancel_left, flatten_cons, take_left]

end Markers
