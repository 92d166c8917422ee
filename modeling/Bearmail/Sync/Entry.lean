import Bearmail.Store.ChangeLog

/-!
# Reading an entry of the change log

`Changes::deserialize` in `store/src/query/log.rs` goes through the bytes of an entry: the counts of the
lists first, then the ids, each of which is folded into the list of changes at once.
-/

namespace Bearmail.Sync

open List

def readIds (step : Nat → List Change → Nat → List Change) :
    Nat → Nat → List Change × List UInt8 → Option (List Change × List UInt8)
  | 0, _, state => some state
  | count + 1, position, (changes, bytes) =>
    match Leb128.decode64 bytes with
    | none => none
    | some (id, bytes) => readIds step count (position + 1) (step position changes id, bytes)

/-- The changes with those of the entry, and whether it has any of containers and of items. -/
def deserializeBytes (changes : List Change) (bytes : List UInt8) :
    Option (List Change × Bool × Bool) := do
  let (containerInserts, bytes) ← Leb128.decode64 bytes
  let (containerUpdates, bytes) ← Leb128.decode64 bytes
  let (containerPropertyChanges, bytes) ← Leb128.decode64 bytes
  let (containerDeletes, bytes) ← Leb128.decode64 bytes
  let (itemInserts, bytes) ← Leb128.decode64 bytes
  let (itemUpdates, bytes) ← Leb128.decode64 bytes
  let (itemDeletes, bytes) ← Leb128.decode64 bytes
  let state ← readIds (fun _ => pushInsert true) containerInserts 0 (changes, bytes)
  -- behind the updates come those of properties only
  let state ← readIds (fun position => pushUpdate true (decide (containerUpdates ≤ position)))
    (containerUpdates + containerPropertyChanges) 0 state
  let state ← readIds (fun _ => pushDelete true) containerDeletes 0 state
  let state ← readIds (fun _ => pushInsert false) itemInserts 0 state
  let state ← readIds (fun _ => pushUpdate false false) itemUpdates 0 state
  let (changes, _) ← readIds (fun _ => pushDelete false) itemDeletes 0 state
  some (changes,
    decide (containerInserts + containerUpdates + containerPropertyChanges + containerDeletes > 0),
    decide (itemInserts + itemUpdates + itemDeletes > 0))

section Loops

variable {step : Nat → List Change → Nat → List Change} {f : List Change → Nat → List Change}

theorem readIds_add (first second position : Nat) (state : List Change × List UInt8) :
    readIds step (first + second) position state =
      (readIds step first position state).bind (readIds step second (position + first)) := by
  induction first generalizing position state with
  | zero => simp [readIds]
  | succ first ih =>
    obtain ⟨changes, bytes⟩ := state
    rw [Nat.add_right_comm, readIds, readIds]
    cases Leb128.decode64 bytes with
    | none => rfl
    | some read =>
      dsimp only
      rw [ih, Nat.add_assoc, Nat.add_comm 1]

theorem readIds_encode {ids : List Nat} (hids : ∀ id ∈ ids, id < 2 ^ 64) {position : Nat}
    (hstep : ∀ p, position ≤ p → p < position + ids.length → step p = f) (changes : List Change)
    (rest : List UInt8) :
    readIds step ids.length position (changes, ids.flatMap Leb128.encode ++ rest) =
      some (ids.foldl f changes, rest) := by
  induction ids generalizing position changes with
  | nil => rfl
  | cons id ids ih =>
    obtain ⟨hid, hids⟩ := forall_mem_cons.mp hids
    rw [length_cons] at hstep
    rw [length_cons, flatMap_cons, append_assoc, readIds, Leb128.decode64_encode hid]
    dsimp only
    rw [hstep position (Nat.le_refl _) (by omega),
      ih hids fun p hle hlt => hstep p (by omega) (by omega), foldl_cons]

end Loops

theorem deserializeBytes_serialize {entry : LogEntry} (changes : List Change)
    (hsizes : ∀ ids ∈ [entry.containerInserts, entry.containerUpdates,
      entry.containerPropertyChanges, entry.containerDeletes, entry.itemInserts, entry.itemUpdates,
      entry.itemDeletes], ids.length < 2 ^ 64 ∧ ∀ id ∈ ids, id < 2 ^ 64) :
    deserializeBytes changes (Store.serialize entry) =
      some (deserialize changes entry, entry.hasContainerChanges, entry.hasItemChanges) := by
  simp only [forall_mem_cons, not_mem_nil, false_implies, implies_true, and_true] at hsizes
  obtain ⟨⟨h1, hci⟩, ⟨h2, hcu⟩, ⟨h3, hcp⟩, ⟨h4, hcd⟩, ⟨h5, hii⟩, ⟨h6, hiu⟩, h7, hid⟩ := hsizes
  have hupdates : ∀ (changes : List Change) (rest : List UInt8),
      readIds (fun position => pushUpdate true (decide (entry.containerUpdates.length ≤ position)))
          (entry.containerUpdates.length + entry.containerPropertyChanges.length) 0
          (changes, entry.containerUpdates.flatMap Leb128.encode ++
            (entry.containerPropertyChanges.flatMap Leb128.encode ++ rest)) =
        some (entry.containerPropertyChanges.foldl (pushUpdate true true)
          (entry.containerUpdates.foldl (pushUpdate true false) changes), rest) := by
    intro changes rest
    rw [readIds_add, readIds_encode (f := pushUpdate true false) hcu fun p _ hlt => by
      rw [decide_eq_false (by omega)], Option.bind_some,
      readIds_encode (f := pushUpdate true true) hcp fun p hle _ => by
        rw [decide_eq_true (by omega)]]
  have hsome {α β : Type} (a : α) (f : α → Option β) : (some a >>= f) = f a := rfl
  simp only [Store.serialize, flatMap_cons, flatMap_nil, List.append_nil, flatMap_append, append_assoc]
  rw [deserializeBytes]
  -- the counts of the seven lists
  rw [Leb128.decode64_encode h1, hsome]
  dsimp only
  rw [Leb128.decode64_encode h2, hsome]
  rw [Leb128.decode64_encode h3, hsome]
  rw [Leb128.decode64_encode h4, hsome]
  rw [Leb128.decode64_encode h5, hsome]
  rw [Leb128.decode64_encode h6, hsome]
  rw [Leb128.decode64_encode h7, hsome]
  rw [readIds_encode hci fun _ _ _ => rfl, hsome, hupdates, hsome,
    readIds_encode hcd fun _ _ _ => rfl, hsome, readIds_encode hii fun _ _ _ => rfl, hsome,
    readIds_encode hiu fun _ _ _ => rfl, hsome]
  have hlast := @readIds_encode (fun _ => pushDelete false) (pushDelete false) _ hid 0
    (fun _ _ _ => rfl) (entry.itemUpdates.foldl (pushUpdate false false) (entry.itemInserts.foldl (pushInsert false)
      (entry.containerDeletes.foldl (pushDelete true) (entry.containerPropertyChanges.foldl
        (pushUpdate true true) (entry.containerUpdates.foldl (pushUpdate true false)
          (entry.containerInserts.foldl (pushInsert true) changes)))))) []
  rw [List.append_nil] at hlast
  rw [hlast]
  rfl

end Bearmail.Sync
