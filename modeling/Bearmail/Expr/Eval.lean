import Bearmail.Expr.Ast
import Bearmail.Lib.StackCode

/-!
# Evaluating programs

`EvalContext::eval` of `common/src/expr/eval.rs`. The bodies of the functions, the
resolver of the variables, the settings of the server and the regular expressions
are parameters; an asynchronous function may fail and may change the stores it
works on, which are the `world`.
-/

namespace Bearmail.Expr

open Imap (utf8)

open Fallible (bind_eq_ok)

open StackCode (Effect)

structure Env (W E : Type) where
  resolveVariable : ExpressionVariable → Variable
  resolveGlobal : List UInt8 → Variable
  system : W → SystemVariable → Variable
  function : Nat → List Variable → Variable
  asyncFunction : Nat → List Variable → W → Except E (Variable × W)
  captures : Regex → String → Option (List (Option String))
  floats : Floats

structure EvalState (W : Type) where
  stack : List Variable
  captures : List String
  world : W

variable {W E : Type}

def pop : List Variable → Variable × List Variable
  | [] => (default, [])
  | v :: stack => (v, stack)

/-- The arguments of a function in order, the last one on top. -/
def popArgs : Nat → List Variable → List Variable × List Variable
  | 0, stack => ([], stack)
  | n + 1, stack =>
    let (v, stack) := pop stack
    let (args, stack) := popArgs n stack
    (args ++ [v], stack)

def ofConstant : Constant → Variable
  | .static c => .constant c
  | .integer n => .integer n
  | .float f => .float f
  | .string s => .string s

namespace EvalState

/-- Replace the stack by what is left of it and one more value. -/
def push (s : EvalState W) (stack : List Variable) (v : Variable) : EvalState W :=
  { s with stack := v :: stack }

def call (env : Env W E) (fnc : Nat) (args : List Variable) (s : EvalState W) :
    Except E (Variable × W) :=
  if fnc < functions.length then .ok (env.function fnc args, s.world)
  else env.asyncFunction (fnc - functions.length) args s.world

def exec (env : Env W E) (s : EvalState W) : ExpressionItem → Except E (EvalState W)
  | .var v => .ok (s.push s.stack (env.resolveVariable v))
  | .global g => .ok (s.push s.stack (env.resolveGlobal g))
  | .constant c => .ok (s.push s.stack (ofConstant c))
  | .capture n => .ok (s.push s.stack (.string (s.captures.getD n "")))
  | .system setting => .ok (s.push s.stack (env.system s.world setting))
  | .unaryOperator op =>
    let (value, stack) := pop s.stack
    .ok (s.push stack (op.apply value))
  | .binaryOperator op =>
    let (right, stack) := pop s.stack
    let (left, stack) := pop stack
    .ok (s.push stack (op.apply env.floats left right))
  | .function fnc numArgs => do
    let (args, stack) := popArgs numArgs s.stack
    let (result, world) ← s.call env fnc args
    return { s with stack := result :: stack, world := world }
  | .arrayAccess =>
    let (index, stack) := pop s.stack
    let (array, stack) := pop stack
    .ok (s.push stack (array.intoArray.getD (index.toUsize.getD 0) default))
  | .arrayBuild numItems =>
    let (items, stack) := popArgs numItems s.stack
    .ok (s.push stack (.array items))
  | .regex regex =>
    let (value, stack) := pop s.stack
    let captures := match env.captures regex (value.intoString env.floats) with
      | some captures => captures.map (·.getD "")
      | none => []
    .ok { s with stack := ofBool (!captures.isEmpty) :: stack, captures := captures }
  | .jmpIf _ _ => .ok s

/-- The top of the stack sends a jump on its way. -/
def jumps (s : EvalState W) (val : Bool) : Bool := s.stack.head?.any Variable.toBool == val

end EvalState

def eval (env : Env W E) : Nat → List ExpressionItem → EvalState W → Except E (EvalState W)
  | _, [], s => .ok s
  | skip + 1, _ :: rest, s => eval env skip rest s
  | 0, .jmpIf val pos :: rest, s => eval env (if s.jumps val then pos else 0) rest s
  | 0, item :: rest, s => do
    let s ← s.exec env item
    eval env 0 rest s

def evalVariable (env : Env W E) (items : List ExpressionItem) (s : EvalState W) :
    Except E Variable := do
  let s ← eval env 0 items s
  return s.stack.headD default

/-! ## The loop as a run -/

theorem eval_skip (env : Env W E) (skip : Nat) (items : List ExpressionItem) (s : EvalState W) :
    eval env skip items s = eval env 0 (items.drop skip) s := by
  induction items generalizing skip with
  | nil =>
    cases skip <;> rfl
  | cons item items ih =>
    cases skip with
    | zero => rfl
    | succ skip => exact ih skip

theorem eval_jmpIf (env : Env W E) (val : Bool) (pos : Nat) (rest : List ExpressionItem)
    (s : EvalState W) : eval env 0 (.jmpIf val pos :: rest) s =
      eval env 0 (if s.jumps val then rest.drop pos else rest) s := by
  rw [eval, eval_skip]
  split <;> rfl

def ExpressionItem.isJump : ExpressionItem → Bool
  | .jmpIf _ _ => true
  | _ => false

theorem eval_item (env : Env W E) {item : ExpressionItem} (h : item.isJump = false)
    (rest : List ExpressionItem) (s : EvalState W) :
    eval env 0 (item :: rest) s = s.exec env item >>= eval env 0 rest := by
  cases item with
  | jmpIf val pos => cases h
  | _ => rfl

inductive Turn (env : Env W E) :
    List ExpressionItem × EvalState W → List ExpressionItem × EvalState W → Prop where
  | item {item : ExpressionItem} {rest : List ExpressionItem} {s s' : EvalState W}
      (hitem : item.isJump = false) (h : s.exec env item = .ok s') :
      Turn env (item :: rest, s) (rest, s')
  | jump {val : Bool} {pos : Nat} {rest : List ExpressionItem} {s : EvalState W} :
      Turn env (.jmpIf val pos :: rest, s) (if s.jumps val then rest.drop pos else rest, s)

abbrev Reaches (env : Env W E) := Relation.ReflTransGen (Turn env)

variable {env : Env W E} {items items' : List ExpressionItem} {s s' : EvalState W}

theorem eval_of_turn (h : Turn env (items, s) (items', s')) :
    eval env 0 items s = eval env 0 items' s' := by
  cases h with
  | item hitem h =>
    rw [eval_item env hitem, h]
    rfl
  | jump => exact eval_jmpIf env _ _ _ s

theorem eval_eq_ok_iff : eval env 0 items s = .ok s' ↔ Reaches env (items, s) ([], s') := by
  constructor
  · intro h
    induction hlength : items.length using Nat.strong_induction_on generalizing items s with
    | _ n ih =>
      cases items with
      | nil =>
        cases h
        exact .refl
      | cons item rest =>
        cases hitem : item.isJump with
        | false =>
          rw [eval_item env hitem] at h
          obtain ⟨s₁, hexec, h⟩ := bind_eq_ok.mp h
          exact .head (.item hitem hexec) (ih rest.length (hlength ▸ Nat.lt_succ_self _) h rfl)
        | true =>
          cases item with
          | jmpIf val pos =>
            rw [eval_jmpIf] at h
            refine .head .jump (ih _ ?_ h rfl)
            rw [← hlength]
            split
            · exact Nat.lt_succ_of_le (List.length_drop.trans_le (Nat.sub_le _ _))
            · exact Nat.lt_succ_self _
          | _ => cases hitem
  · intro h
    generalize hstart : (items, s) = start at h
    induction h using Relation.ReflTransGen.head_induction_on generalizing items s with
    | refl =>
      cases hstart
      rfl
    | head hturn _ ih =>
      subst hstart
      exact (eval_of_turn hturn).trans (ih rfl)

/-! ## Heights -/

/-- The operands an item takes from the stack; what it yields is one value. -/
def ExpressionItem.effect : ExpressionItem → Effect
  | .unaryOperator _ | .regex _ => .op 1 1
  | .binaryOperator _ | .arrayAccess => .op 2 1
  | .function _ numArgs => .op numArgs 1
  | .arrayBuild numItems => .op numItems 1
  | .jmpIf _ pos => .skip pos
  | _ => .op 0 1

theorem length_pop (stack : List Variable) : (pop stack).2.length = stack.length - 1 := by
  cases stack <;> rfl

theorem length_popArgs (n : Nat) (stack : List Variable) :
    (popArgs n stack).2.length = stack.length - n := by
  induction n generalizing stack with
  | zero => rfl
  | succ n ih =>
    rw [popArgs]
    rw [ih, length_pop]
    omega

theorem length_exec {item : ExpressionItem} (hitem : item.isJump = false)
    (h : s.exec env item = .ok s') {rest : List ExpressionItem} :
    StackCode.Moves ExpressionItem.effect (item :: rest, s.stack.length) (rest, s'.stack.length) := by
  have hmoves {pops : Nat} (heffect : item.effect = .op pops 1)
      (hlength : s'.stack.length = s.stack.length - pops + 1) :
      StackCode.Moves ExpressionItem.effect (item :: rest, s.stack.length) (rest, s'.stack.length) := by
    rw [hlength]
    exact .op heffect
  have htwo : (pop (pop s.stack).2).2.length = s.stack.length - 2 := by
    rw [length_pop, length_pop]
    omega
  cases item with
  | jmpIf val pos => cases hitem
  | var | global | constant | capture | system =>
    cases h
    exact hmoves rfl rfl
  | unaryOperator | regex =>
    cases h
    exact hmoves rfl (congrArg (· + 1) (length_pop s.stack))
  | binaryOperator | arrayAccess =>
    cases h
    exact hmoves rfl (congrArg (· + 1) htwo)
  | arrayBuild numItems =>
    cases h
    exact hmoves rfl (congrArg (· + 1) (length_popArgs numItems s.stack))
  | function fnc numArgs =>
    obtain ⟨⟨result, world⟩, -, h⟩ := bind_eq_ok.mp h
    cases h
    exact hmoves rfl (congrArg (· + 1) (length_popArgs numArgs s.stack))

theorem Turn.moves (h : Turn env (items, s) (items', s')) :
    StackCode.Moves ExpressionItem.effect (items, s.stack.length) (items', s'.stack.length) := by
  cases h with
  | item hitem h => exact length_exec hitem h
  | jump =>
    split
    · exact .skip rfl
    · exact .stay rfl

theorem Reaches.moves (h : Reaches env (items, s) (items', s')) :
    Relation.ReflTransGen (StackCode.Moves ExpressionItem.effect) (items, s.stack.length)
      (items', s'.stack.length) :=
  h.lift (fun config => (config.1, config.2.stack.length)) fun _ _ hturn => hturn.moves

end Bearmail.Expr
