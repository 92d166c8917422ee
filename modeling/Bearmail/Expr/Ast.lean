import Bearmail.Expr.Parser
import Mathlib.Logic.Function.Iterate

/-!
# Trees of expressions

What an expression says, apart from the parser: its tokens in order and the
postfix program that computes it, with the jumps of `&&` and `||`. A tree is
*layered* when each operand of an operator binds tightly enough to stand there
without parentheses.
-/

namespace Bearmail.Expr

open ExpressionParser (shortCircuit functionItem)

inductive Atom where
  | var (v : ExpressionVariable)
  | constant (c : Constant)
  | global (name : List UInt8)
  | capture (n : Nat)

namespace Atom

def token : Atom → Token
  | .var v => .var v
  | .constant c => .constant c
  | .global name => .global name
  | .capture n => .capture n

def item : Atom → ExpressionItem
  | .var v => .var v
  | .constant c => .constant c
  | .global name => .global name
  | .capture n => .capture n

def isVar : Atom → Bool
  | .var _ => true
  | _ => false

end Atom

inductive Ast where
  | atom (a : Atom)
  | system (setting : SystemVariable)
  | unary (op : UnaryOperator) (e : Ast)
  | binary (op : BinaryOperator) (l r : Ast)
  | paren (e : Ast)
  | call (name : String) (fnc numArgs : Nat) (args : List Ast)
  | regex (regex : Regex) (e : Ast)
  | array (items : List Ast)
  | index (base i : Ast)

namespace Ast

@[elab_as_elim, induction_eliminator]
theorem induct {P : Ast → Prop} (atom : ∀ a, P (.atom a)) (system : ∀ setting, P (.system setting))
    (unary : ∀ op e, P e → P (.unary op e))
    (binary : ∀ op l r, P l → P r → P (.binary op l r)) (paren : ∀ e, P e → P (.paren e))
    (call : ∀ name fnc numArgs args, (∀ e ∈ args, P e) → P (.call name fnc numArgs args))
    (regex : ∀ regex e, P e → P (.regex regex e))
    (array : ∀ items, (∀ e ∈ items, P e) → P (.array items))
    (index : ∀ base i, P base → P i → P (.index base i)) (e : Ast) : P e :=
  @Ast.rec P (fun args => ∀ e ∈ args, P e) atom system unary binary paren call regex array index
    (List.forall_mem_nil _) (fun _ _ hfirst hrest => List.forall_mem_cons.mpr ⟨hfirst, hrest⟩) e

/-! ## Tokens and programs -/

mutual

def tokens : Ast → List Token
  | .atom a => [a.token]
  | .system setting => [.system setting, .openParen, .closeParen]
  | .unary op e => .unaryOperator op :: e.tokens
  | .binary op l r => l.tokens ++ .binaryOperator op :: r.tokens
  | .paren e => .openParen :: (e.tokens ++ [.closeParen])
  | .call name fnc numArgs args =>
    .function name fnc numArgs :: .openParen :: (argTokens args ++ [.closeParen])
  | .regex re e => .regex re :: .openParen :: (e.tokens ++ [.closeParen])
  | .array items => .openBracket :: (argTokens items ++ [.closeBracket])
  | .index base i => base.tokens ++ .openBracket :: (i.tokens ++ [.closeBracket])

def argTokens : List Ast → List Token
  | [] => []
  | e :: es => e.tokens ++ moreTokens es

def moreTokens : List Ast → List Token
  | [] => []
  | e :: es => .comma :: (e.tokens ++ moreTokens es)

end

def jump (op : BinaryOperator) (pos : Nat) : List ExpressionItem :=
  match shortCircuit op with
  | some val => [.jmpIf val pos]
  | none => []

mutual

/-- The postfix program of a tree, with a length for the items of each array literal. -/
def program (length : List Ast → Nat) : Ast → List ExpressionItem
  | .atom a => [a.item]
  | .system setting => [.system setting]
  | .unary op e => e.program length ++ [.unaryOperator op]
  | .binary op l r =>
    l.program length ++ (jump op (((r.program length).length + 1) % 2 ^ 32) ++
      (r.program length ++ [.binaryOperator op]))
  | .paren e => e.program length
  | .call _ fnc numArgs args => programs length args ++ [.function fnc numArgs]
  | .regex re e => e.program length ++ [.regex re]
  | .array items => programs length items ++ [.arrayBuild (length items)]
  | .index base i => base.program length ++ (i.program length ++ [.arrayAccess])

def programs (length : List Ast → Nat) : List Ast → List ExpressionItem
  | [] => []
  | e :: es => e.program length ++ programs length es

end

def compile : Ast → List ExpressionItem := program List.length

def leads : Ast → Bool
  | .unary _ _ | .paren _ => false
  | .binary _ l _ => l.leads
  | .index base _ => base.leads
  | _ => true

/-- The length that the parser gives an array literal. -/
def leading (items : List Ast) : Nat := items.countP leads % 2 ^ 32

/-- The program that the parser makes of a tree when it accepts it. -/
def built : Ast → List ExpressionItem := program leading

def builtAll : List Ast → List ExpressionItem := programs leading

theorem builtAll_nil : builtAll [] = [] := rfl

theorem builtAll_cons (e : Ast) (es : List Ast) : builtAll (e :: es) = e.built ++ builtAll es :=
  rfl

/-! ## Where a tree can stand -/

def level : Ast → Nat
  | .binary op _ _ => op.precedence
  | .unary _ _ => 8
  | _ => 9

mutual

def Everywhere (p : Ast → Prop) : Ast → Prop
  | .atom a => p (.atom a)
  | .system setting => p (.system setting)
  | .unary op e => p (.unary op e) ∧ e.Everywhere p
  | .binary op l r => p (.binary op l r) ∧ l.Everywhere p ∧ r.Everywhere p
  | .paren e => p (.paren e) ∧ e.Everywhere p
  | .call name fnc numArgs args => p (.call name fnc numArgs args) ∧ EverywhereAll p args
  | .regex re e => p (.regex re e) ∧ e.Everywhere p
  | .array items => p (.array items) ∧ EverywhereAll p items
  | .index base i => p (.index base i) ∧ base.Everywhere p ∧ i.Everywhere p

def EverywhereAll (p : Ast → Prop) : List Ast → Prop
  | [] => True
  | e :: es => e.Everywhere p ∧ EverywhereAll p es

end

theorem everywhereAll_iff {p : Ast → Prop} {es : List Ast} :
    EverywhereAll p es ↔ ∀ e ∈ es, e.Everywhere p := by
  induction es with
  | nil => exact iff_of_true trivial (List.forall_mem_nil _)
  | cons e es ih => simp [EverywhereAll, ih]

/-- Each operand holds together where it stands. -/
def Fitting : Ast → Prop
  | .unary _ e => 8 ≤ e.level
  | .binary op l r => op.precedence ≤ l.level ∧ op.precedence < r.level
  | .index base _ => base.level = 9
  | _ => True

abbrev Layered : Ast → Prop := Everywhere Fitting

/-- The functions with their numbers and how many arguments they take. -/
def knownFunctions : List (String × Nat × Nat) :=
  functions.zipIdx.map (fun entry => (entry.1.1, entry.2, entry.1.2)) ++
    asyncFunctions.map fun entry => (entry.1, entry.2.1 + functions.length, entry.2.2)

def Known : Ast → Prop
  | .call name fnc numArgs args => (name, fnc, numArgs) ∈ knownFunctions ∧ args.length = numArgs
  | _ => True

/-- The last token is a variable or closes a group. -/
def endsVar : Ast → Bool
  | .atom a => a.isVar
  | .unary _ e => e.endsVar
  | .binary _ _ r => r.endsVar
  | _ => true

/-- What is indexed ends in a variable or closes a group. -/
def Indexable : Ast → Prop
  | .index base _ => base.endsVar = true
  | _ => True

/-- The items of an array literal start with an operand, and an `i32` counts them. -/
def Counted : Ast → Prop
  | .array items => (∀ e ∈ items, e.leads = true) ∧ items.length < 2 ^ 31
  | _ => True

/-- The two counts that the parser keeps of the items of an array literal agree. -/
def Agreeing : Ast → Prop
  | .array items => satInc^[items.length] 0 = asI32 (leading items)
  | _ => True

end Ast

end Bearmail.Expr
