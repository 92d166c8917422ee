import Mathlib.Data.List.Basic

/-!
# Framing

Items that stand one after the other in a string, and a reader that gets the string in pieces. What the
reader of the first item must satisfy is said once. From it follow: it does not matter how the string is
cut, what was written is read back, and what is read is what was written.
-/

universe u

/-- Reads the first item off a string. None asks for more of the string. -/
structure Framing (α β ε : Type u) where
  next : List α → Except ε (Option (β × List α))
  shrinks : ∀ {s b r}, next s = .ok (some (b, r)) → r.length < s.length
  stable : ∀ {s b r} (t : List α), next s = .ok (some (b, r)) → next (s ++ t) = .ok (some (b, r ++ t))
  stable_error : ∀ {s e} (t : List α), next s = .error e → next (s ++ t) = .error e
  next_nil : next [] = .ok none

namespace Framing

variable {α β ε : Type u} (framing : Framing α β ε)

/-- All items of the string, and what is left for the next piece. -/
def all (s : List α) : Except ε (List β × List α) :=
  match h : framing.next s with
  | .error e => .error e
  | .ok none => .ok ([], s)
  | .ok (some (b, r)) =>
    have := framing.shrinks h
    match all r with
    | .error e => .error e
    | .ok (bs, rest) => .ok (b :: bs, rest)
termination_by s.length

variable {framing}

variable {s rest : List α} {bs : List β}

theorem all_of_error {e : ε} (h : framing.next s = .error e) : framing.all s = .error e := by
  rw [all]
  split <;> simp_all

theorem all_of_none (h : framing.next s = .ok none) : framing.all s = .ok ([], s) := by
  rw [all]
  split <;> simp_all

theorem all_of_some {r : List α} {b : β} (h : framing.next s = .ok (some (b, r))) :
    framing.all s = (framing.all r).map fun (bs, rest) => (b :: bs, rest) := by
  rw [all]
  split
  · simp_all
  · simp_all
  · rename_i b' r' h'
    obtain ⟨rfl, rfl⟩ : b' = b ∧ r' = r := by simpa [h'] using h
    cases framing.all r' <;> rfl

theorem all_nil : framing.all [] = .ok ([], []) := all_of_none framing.next_nil

theorem items_induction {motive : List α → Prop} (error : ∀ s e, framing.next s = .error e → motive s)
    (short : ∀ s, framing.next s = .ok none → motive s)
    (item : ∀ s b r, framing.next s = .ok (some (b, r)) → motive r → motive s) (s : List α) :
    motive s := by
  induction hn : s.length using Nat.strongRecOn generalizing s with
  | _ n ih =>
    match h : framing.next s with
    | .error e => exact error s e h
    | .ok none => exact short s h
    | .ok (some (b, r)) => exact item s b r h (ih r.length (hn ▸ framing.shrinks h) r rfl)

/-! ## Pieces -/

theorem all_append (s t : List α) :
    framing.all (s ++ t) = do
      let (bs, rest) ← framing.all s
      let (bs', rest') ← framing.all (rest ++ t)
      return (bs ++ bs', rest') := by
  induction s using framing.items_induction with
  | error s e h => rw [all_of_error (framing.stable_error t h), all_of_error h]; rfl
  | short s h =>
    rw [all_of_none h]
    cases hread : framing.all (s ++ t) <;> simp [bind, Except.bind, hread, pure, Except.pure]
  | item s b r h ih =>
    rw [all_of_some (framing.stable t h), all_of_some h, ih]
    cases framing.all r with
    | error e => rfl
    | ok read =>
      cases hrest : framing.all (read.2 ++ t) <;>
        simp [bind, Except.bind, Except.map, hrest, pure, Except.pure]

variable (framing) in
/-- The pieces of a string, each after what the one before has left. -/
def feed (rest : List α) : List (List α) → Except ε (List β × List α)
  | [] => .ok ([], rest)
  | piece :: pieces => do
    let (bs, rest) ← framing.all (rest ++ piece)
    let (bs', rest) ← feed rest pieces
    return (bs ++ bs', rest)

theorem all_short (hs : framing.next s = .ok none) (h : framing.all s = .ok (bs, rest)) : bs = [] ∧ rest = s := by
  simpa [all_of_none hs, eq_comm] using h

theorem all_item {b : β} {r : List α} (hs : framing.next s = .ok (some (b, r)))
    (h : framing.all s = .ok (bs, rest)) : ∃ bs', bs = b :: bs' ∧ framing.all r = .ok (bs', rest) := by
  rw [all_of_some hs] at h
  cases hr : framing.all r with
  | error e => simp [hr, Except.map] at h
  | ok read =>
    obtain ⟨rfl, rfl⟩ : b :: read.1 = bs ∧ read.2 = rest := by simpa [hr, Except.map] using h
    exact ⟨read.1, rfl, rfl⟩

theorem next_rest (h : framing.all s = .ok (bs, rest)) : framing.next rest = .ok none := by
  induction s using framing.items_induction generalizing bs with
  | error s e hs => simp [all_of_error hs] at h
  | short s hs =>
    obtain ⟨-, rfl⟩ := all_short hs h
    exact hs
  | item s b r hs ih =>
    obtain ⟨bs', -, hr⟩ := all_item hs h
    exact ih hr

theorem feed_flatten (hrest : framing.next rest = .ok none) (pieces : List (List α)) :
    framing.feed rest pieces = framing.all (rest ++ pieces.flatten) := by
  induction pieces generalizing rest with
  | nil => simp [feed, all_of_none hrest]
  | cons piece pieces ih =>
    rw [List.flatten_cons, ← List.append_assoc, all_append, feed]
    cases hread : framing.all (rest ++ piece) with
    | error e => rfl
    | ok read => simp [bind, Except.bind, ih (next_rest hread)]

/-! ## Writing -/

variable {write : β → Except ε (List α)}

theorem all_written (hread : ∀ b p t, write b = .ok p → framing.next (p ++ t) = .ok (some (b, t)))
    {ps : List (List α)} (h : bs.mapM write = .ok ps) : framing.all ps.flatten = .ok (bs, []) := by
  induction bs generalizing ps with
  | nil =>
    obtain rfl : ps = [] := by simpa [pure, Except.pure, eq_comm] using h
    exact all_nil
  | cons b bs ih =>
    cases hb : write b with
    | error e => simp [hb, bind, Except.bind] at h
    | ok p =>
      cases hbs : bs.mapM write with
      | error e => simp [hb, hbs, bind, Except.bind] at h
      | ok qs =>
        obtain rfl : p :: qs = ps := by
          simpa [hb, hbs, bind, Except.bind, pure, Except.pure] using h
        rw [List.flatten_cons, all_of_some (hread b p qs.flatten hb), ih hbs]
        rfl

theorem written_of_all
    (hwrite : ∀ s b r, framing.next s = .ok (some (b, r)) → ∃ p, write b = .ok p ∧ s = p ++ r)
    (h : framing.all s = .ok (bs, rest)) :
    ∃ ps, bs.mapM write = .ok ps ∧ s = ps.flatten ++ rest := by
  induction s using framing.items_induction generalizing bs with
  | error s e hs => simp [all_of_error hs] at h
  | short s hs =>
    obtain ⟨rfl, rfl⟩ := all_short hs h
    exact ⟨[], rfl, rfl⟩
  | item s b r hs ih =>
    obtain ⟨bs', rfl, hr⟩ := all_item hs h
    obtain ⟨p, hp, rfl⟩ := hwrite s b r hs
    obtain ⟨ps, hps, rfl⟩ := ih hr
    exact ⟨p :: ps, by simp [hp, hps, bind, Except.bind, pure, Except.pure], by simp⟩

end Framing
