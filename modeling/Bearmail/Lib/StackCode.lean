import Mathlib.Logic.Relation
import Mathlib.Tactic.Common

/-!
# Stack code with forward jumps

Code for a stack machine whose jumps only skip instructions. What an instruction
does to the height of the stack is given by its `Effect`; a jump may be taken or
not. Code is *typed* from one height to another when it never lacks operands,
never jumps out and arrives at the same height along every path.
-/

namespace StackCode

universe u

/-- An instruction replaces operands by results, or may skip some of what follows. -/
inductive Effect where
  | op (pops pushes : Nat)
  | skip (count : Nat)
  deriving DecidableEq, Repr

variable {Item : Type u} (effect : Item → Effect)

inductive Typed : List Item → Nat → Nat → Prop where
  | done (height : Nat) : Typed [] height height
  | op {item : Item} {rest : List Item} {height final pops pushes : Nat}
      (heffect : effect item = .op pops pushes) (hpops : pops ≤ height)
      (hrest : Typed rest (height - pops + pushes) final) : Typed (item :: rest) height final
  | skip {item : Item} {rest : List Item} {height final count : Nat}
      (heffect : effect item = .skip count) (hcount : count ≤ rest.length)
      (hrest : Typed rest height final) (hskipped : Typed (rest.drop count) height final) :
      Typed (item :: rest) height final

/-- One step of a run, by the code left and the height of the stack. -/
inductive Moves : List Item × Nat → List Item × Nat → Prop where
  | op {item : Item} {rest : List Item} {height pops pushes : Nat}
      (heffect : effect item = .op pops pushes) :
      Moves (item :: rest, height) (rest, height - pops + pushes)
  | stay {item : Item} {rest : List Item} {height count : Nat}
      (heffect : effect item = .skip count) : Moves (item :: rest, height) (rest, height)
  | skip {item : Item} {rest : List Item} {height count : Nat} (heffect : effect item = .skip count) :
      Moves (item :: rest, height) (rest.drop count, height)

/-- The operands of the next instruction are there, and it does not jump out. -/
def Sound (height : Nat) : List Item → Prop
  | [] => True
  | item :: rest =>
    match effect item with
    | .op pops _ => pops ≤ height
    | .skip count => count ≤ rest.length

variable {effect}

variable {code : List Item} {height final : Nat}

theorem Typed.append {more : List Item} {middle : Nat} (h : Typed effect code height middle)
    (hmore : Typed effect more middle final) : Typed effect (code ++ more) height final := by
  induction h with
  | done => exact hmore
  | op heffect hpops _ ih => exact .op heffect hpops (ih hmore)
  | skip heffect hcount _ _ ih ihskipped =>
    rw [List.cons_append]
    refine .skip heffect ?_ (ih hmore) ?_
    · rw [List.length_append]
      exact Nat.le_add_right_of_le hcount
    · rw [List.drop_append_of_le_length hcount]
      exact ihskipped hmore

theorem Typed.moves {code' : List Item} {height' : Nat} (h : Typed effect code height final)
    (hmoves : Moves effect (code, height) (code', height')) : Typed effect code' height' final := by
  cases hmoves with
  | op heffect =>
    cases h with
    | op heffect' _ hrest =>
      cases heffect.symm.trans heffect'
      exact hrest
    | skip heffect' => cases heffect.symm.trans heffect'
  | stay heffect =>
    cases h with
    | op heffect' => cases heffect.symm.trans heffect'
    | skip _ _ hrest _ => exact hrest
  | skip heffect =>
    cases h with
    | op heffect' => cases heffect.symm.trans heffect'
    | skip heffect' _ _ hskipped =>
      cases heffect.symm.trans heffect'
      exact hskipped

theorem Typed.reaches {code' : List Item} {height' : Nat} (h : Typed effect code height final)
    (hreaches : Relation.ReflTransGen (Moves effect) (code, height) (code', height')) :
    Typed effect code' height' final := by
  generalize hend : (code', height') = reached at hreaches
  induction hreaches generalizing code' height' with
  | refl =>
    cases hend
    exact h
  | @tail middle reached _ hmoves ih =>
    subst hend
    exact (ih rfl).moves hmoves

theorem Typed.sound (h : Typed effect code height final) : Sound effect height code := by
  cases h with
  | done => trivial
  | op heffect hpops =>
    rw [Sound, heffect]
    exact hpops
  | skip heffect hcount =>
    rw [Sound, heffect]
    exact hcount

theorem Typed.height_eq (h : Typed effect [] height final) : height = final := by
  cases h
  rfl

end StackCode
