import Bearmail.Expr.Eval
import Bearmail.Expr.Refused

/-!
# Stacks of accepted programs

The parser does not count operands: `+` alone is accepted, and evaluating it pops
from an empty stack, where the evaluator goes on with a default. What it accepts
never jumps out of the program, though, and the program of an expression is typed
stack code.
-/

namespace Bearmail.Expr

open StackCode (Typed Sound)
open List

open Imap (utf8)

open Fallible (bind_eq_ok)

/-! ## Jumps -/

def JumpsInside (rest : List ExpressionItem) : Prop :=
  ∀ val pos tail, rest = .jmpIf val pos :: tail → pos ≤ tail.length

section Runs

variable {W E : Type} {env : Env W E} {items rest : List ExpressionItem} {s s' : EvalState W}

theorem Turn.suffix (h : Turn env (items, s) (rest, s')) : rest <:+ items := by
  cases h with
  | item => exact suffix_cons _ _
  | jump =>
    split
    · exact (drop_suffix _ _).trans (suffix_cons _ _)
    · exact suffix_cons _ _

theorem Reaches.suffix (h : Reaches env (items, s) (rest, s')) : rest <:+ items := by
  generalize hend : (rest, s') = reached at h
  induction h generalizing rest s' with
  | refl =>
    cases hend
    exact suffix_refl _
  | @tail middle reached _ hturn ih =>
    subst hend
    exact hturn.suffix.trans (ih rfl)

theorem Landed.jumpsInside (h : Landed items) (hreaches : Reaches env (items, s) (rest, s')) :
    JumpsInside rest := by
  rintro val pos tail rfl
  obtain ⟨before, rfl⟩ := hreaches.suffix
  have hget : (before ++ .jmpIf val pos :: tail)[before.length]? = some (.jmpIf val pos) := by
    rw [List.getElem?_append_right (Nat.le_refl _), Nat.sub_self]
    rfl
  obtain ⟨n, op, -, rfl, hoperator⟩ := h _ _ _ hget
  obtain ⟨hinside, -⟩ := List.getElem?_eq_some_iff.mp hoperator
  rw [length_append, length_cons] at hinside
  omega

end Runs

/-! ## Heights -/

namespace Ast

theorem typed_item {item : ExpressionItem} {pops : Nat} (h : item.effect = .op pops 1)
    (height : Nat) : Typed ExpressionItem.effect [item] (height + pops) (height + 1) := by
  refine .op h (Nat.le_add_left _ _) ?_
  rw [Nat.add_sub_cancel]
  exact .done _

theorem typed_jump (op : BinaryOperator) {right : List ExpressionItem} {height : Nat}
    (h : Typed ExpressionItem.effect right (height + 1) (height + 2)) :
    Typed ExpressionItem.effect
      (jump op (right.length + 1) ++ (right ++ [ExpressionItem.binaryOperator op]))
      (height + 1) (height + 1) := by
  have hoperator : Typed ExpressionItem.effect (right ++ [ExpressionItem.binaryOperator op])
      (height + 1) (height + 1) := h.append (typed_item rfl height)
  unfold jump
  split
  · have hdrop : (right ++ [ExpressionItem.binaryOperator op]).drop (right.length + 1) = [] :=
      drop_eq_nil_of_le (by simp)
    rw [singleton_append]
    refine .skip rfl ?_ hoperator ?_
    · simp
    · rw [hdrop]
      exact .done _
  · exact hoperator

theorem typed_programs {es : List Ast}
    (h : ∀ e ∈ es, ∀ height, Typed ExpressionItem.effect e.compile height (height + 1))
    (height : Nat) :
    Typed ExpressionItem.effect (programs List.length es) height (height + es.length) := by
  induction es generalizing height with
  | nil => exact .done _
  | cons e es ih =>
    obtain ⟨he, hes⟩ := forall_mem_cons.mp h
    rw [length_cons, Nat.add_comm es.length, ← Nat.add_assoc]
    exact (he height).append (ih hes _)

theorem length_le_programs {length : List Ast → Nat} {e : Ast} {es : List Ast} (h : e ∈ es) :
    (e.program length).length ≤ (programs length es).length := by
  induction es with
  | nil => cases h
  | cons first es ih =>
    rw [programs, length_append]
    obtain rfl | h := mem_cons.mp h
    · exact Nat.le_add_right _ _
    · exact Nat.le_add_left_of_le (ih h)

theorem typed_compile (e : Ast) (hknown : e.Everywhere Known) (h : e.compile.length < 2 ^ 32)
    (height : Nat) : Typed ExpressionItem.effect e.compile height (height + 1) := by
  induction e generalizing height with
  | atom a => cases a <;> exact @typed_item _ 0 rfl height
  | system setting => exact @typed_item _ 0 rfl height
  | unary op e ih =>
    have hlength : (e.compile ++ [ExpressionItem.unaryOperator op]).length < 2 ^ 32 := h
    rw [length_append] at hlength
    exact (ih hknown.2 (Nat.lt_of_add_right_lt hlength) height).append (typed_item rfl height)
  | binary op l r ihl ihr =>
    have hlength : (l.compile ++ (jump op ((r.compile.length + 1) % 2 ^ 32) ++
        (r.compile ++ [ExpressionItem.binaryOperator op]))).length < 2 ^ 32 := h
    rw [length_append, length_append, length_append, length_singleton] at hlength
    have hr : r.compile.length + 1 < 2 ^ 32 := by omega
    have hright := ihr hknown.2.2 (by omega) (height + 1)
    show Typed _ (l.compile ++ (jump op ((r.compile.length + 1) % 2 ^ 32) ++
      (r.compile ++ [ExpressionItem.binaryOperator op]))) _ _
    rw [Nat.mod_eq_of_lt hr]
    exact (ihl hknown.2.1 (by omega) height).append (typed_jump op hright)
  | paren e ih => exact ih hknown.2 h height
  | call name fnc numArgs args ih =>
    obtain ⟨⟨-, rfl⟩, hargs⟩ := hknown
    have hlength : (programs List.length args ++
        [ExpressionItem.function fnc args.length]).length < 2 ^ 32 := h
    rw [length_append] at hlength
    have htyped := typed_programs fun e he =>
      ih e he (everywhereAll_iff.mp hargs e he)
        (lt_of_le_of_lt (length_le_programs he) (Nat.lt_of_add_right_lt hlength))
    exact (htyped height).append (typed_item rfl height)
  | regex re e ih =>
    have hlength : (e.compile ++ [ExpressionItem.regex re]).length < 2 ^ 32 := h
    rw [length_append] at hlength
    exact (ih hknown.2 (Nat.lt_of_add_right_lt hlength) height).append (typed_item rfl height)
  | array items ih =>
    have hlength : (programs List.length items ++
        [ExpressionItem.arrayBuild items.length]).length < 2 ^ 32 := h
    rw [length_append] at hlength
    have htyped := typed_programs fun e he =>
      ih e he (everywhereAll_iff.mp hknown.2 e he)
        (lt_of_le_of_lt (length_le_programs he) (Nat.lt_of_add_right_lt hlength))
    exact (htyped height).append (typed_item rfl height)
  | index base i ihb ihi =>
    have hlength : (base.compile ++ (i.compile ++ [ExpressionItem.arrayAccess])).length < 2 ^ 32 := h
    rw [length_append, length_append] at hlength
    have hi := ihi hknown.2.2 (by omega) (height + 1)
    have haccess : Typed ExpressionItem.effect [ExpressionItem.arrayAccess] (height + 2)
        (height + 1) := typed_item rfl height
    exact (ihb hknown.2.1 (by omega) height).append (hi.append haccess)

/-! ## Arrays of short programs -/

theorem program_ne_nil (length : List Ast → Nat) (e : Ast) : 0 < (e.program length).length := by
  induction e with
  | atom | system => exact Nat.zero_lt_one
  | paren e ih => exact ih
  | unary | call | regex | array =>
    rw [program, length_append]
    exact Nat.succ_pos _
  | binary op l r ihl ihr | index base i ihb ihi =>
    rw [program, length_append]
    omega

theorem length_items_le (length : List Ast → Nat) (es : List Ast) :
    es.length ≤ (programs length es).length := by
  induction es with
  | nil => exact Nat.le_refl _
  | cons e es ih =>
    have he := program_ne_nil length e
    rw [programs, length_append, length_cons]
    omega

theorem everywhere_shorter (e : Ast) {bound : Nat} (h : e.built.length < bound) :
    e.Everywhere fun e => e.built.length < bound := by
  have hall {es : List Ast} {item : ExpressionItem}
      (ih : ∀ e ∈ es, e.built.length < bound → e.Everywhere fun e => e.built.length < bound)
      (h : (builtAll es ++ [item]).length < bound) :
      EverywhereAll (fun e => e.built.length < bound) es := by
    rw [length_append] at h
    refine everywhereAll_iff.mpr fun e he => ih e he ?_
    exact lt_of_le_of_lt (length_le_programs he) (Nat.lt_of_add_right_lt h)
  have hone {e : Ast} {item : ExpressionItem} (h : (e.built ++ [item]).length < bound) :
      e.built.length < bound := by
    rw [length_append] at h
    exact Nat.lt_of_add_right_lt h
  induction e with
  | atom | system => exact h
  | unary op e ih | regex re e ih => exact ⟨h, ih (hone h)⟩
  | binary op l r ihl ihr =>
    have hparts : (l.built ++ (jump op ((r.built.length + 1) % 2 ^ 32) ++
        (r.built ++ [ExpressionItem.binaryOperator op]))).length < bound := h
    rw [length_append, length_append, length_append] at hparts
    exact ⟨h, ihl (by omega), ihr (by omega)⟩
  | paren e ih => exact ⟨h, ih h⟩
  | call name fnc numArgs args ih | array args ih => exact ⟨h, hall ih h⟩
  | index base i ihb ihi =>
    have hparts : (base.built ++ (i.built ++ [ExpressionItem.arrayAccess])).length < bound := h
    rw [length_append, length_append] at hparts
    exact ⟨h, ihb (by omega), ihi (by omega)⟩

/-- The two counts of the items of an array literal agree only on the true one when there
are fewer of them than an `i32` counts. -/
theorem counted_of_agreeing (e : Ast) (h : e.Agreeing) (hlength : e.built.length < 2 ^ 31) :
    e.Counted := by
  cases e with
  | array items =>
    have hitems : items.length ≤ (builtAll items).length := length_items_le leading items
    have hcount : items.countP leads ≤ items.length := countP_le_length
    have hbuilt : (builtAll items ++ [ExpressionItem.arrayBuild (leading items)]).length < 2 ^ 31 :=
      hlength
    rw [length_append] at hbuilt
    refine (counted_array_iff items).mpr ⟨h, ?_⟩
    rw [Agreeing, leading, iterate_satInc_zero, Nat.mod_eq_of_lt (by omega), asI32_of_lt (by omega)] at h
    rw [leading]
    omega
  | _ => trivial

theorem everywhere_counted {e : Ast} (h : e.Everywhere Agreeing)
    (hlength : e.built.length < 2 ^ 31) : e.Everywhere Counted := by
  have hboth : e.Everywhere fun e => e.Agreeing ∧ e.built.length < 2 ^ 31 :=
    (everywhere_and (fun _ => Iff.rfl) e).mpr ⟨h, everywhere_shorter e hlength⟩
  have hcounted := everywhere_and (p := Counted) (r := fun e => e.Agreeing ∧ e.built.length < 2 ^ 31)
    (fun e => (and_iff_right_of_imp fun h => counted_of_agreeing e h.1 h.2).symm) e
  exact (hcounted.mp hboth).1

end Ast

/-! ## Accepted programs -/

/-- The program of an accepted expression with fewer than `2 ^ 31` items is the compiled tree. -/
theorem compile_of_parse {ext : Externals} {tokenMap : TokenMap} {expr : List UInt8}
    {items : List ExpressionItem} (h : parse ext tokenMap expr = .ok items) {e : Ast}
    (hlayered : e.Layered) (hknown : e.Everywhere Ast.Known)
    (hindexable : e.Everywhere Ast.Indexable) (hlexes : Lexes ext (.new expr tokenMap) e.tokens)
    (hlength : items.length < 2 ^ 31) : items = e.compile := by
  have hfeed := (parseLoop_of_lexes hlexes .new).symm.trans h
  obtain hagreeing | hrefused := agreeing_or_refused hlayered hknown hindexable
  · rw [finish_feed_tokens hlayered hknown hindexable hagreeing] at hfeed
    cases hfeed
    exact (e.counted_iff.mp (Ast.everywhere_counted hagreeing hlength)).2
  · exact absurd hfeed (((hrefused _ (ready_new _)).bind _).ne_ok _)

/-- Every run finds its operands, stays inside and ends with one value. -/
def Balanced {W E : Type} (env : Env W E) (items : List ExpressionItem) (s : EvalState W) : Prop :=
  ∀ rest s', Reaches env (items, s) (rest, s') →
    Sound ExpressionItem.effect s'.stack.length rest ∧ (rest = [] → s'.stack.length = 1)

/-- No run of an accepted program jumps out, and the program of an expression is balanced. -/
theorem balanced_of_parse {W E : Type} (env : Env W E) {ext : Externals} {tokenMap : TokenMap}
    {expr : List UInt8} {items : List ExpressionItem} (h : parse ext tokenMap expr = .ok items)
    (s : EvalState W) (hempty : s.stack = []) :
    (∀ rest s', Reaches env (items, s) (rest, s') → JumpsInside rest) ∧
      ∀ e : Ast, e.Layered → e.Everywhere Ast.Known → e.Everywhere Ast.Indexable →
        Lexes ext (.new expr tokenMap) e.tokens → items.length < 2 ^ 31 →
        Balanced env items s := by
  refine ⟨fun rest s' => (landed_of_parse h).jumpsInside, ?_⟩
  intro e hlayered hknown hindexable hlexes hlength rest s' hreaches
  obtain rfl := compile_of_parse h hlayered hknown hindexable hlexes hlength
  have hstart := e.typed_compile hknown (hlength.trans (by decide)) s.stack.length
  have htyped := hstart.reaches hreaches.moves
  refine ⟨htyped.sound, ?_⟩
  rintro rfl
  rw [htyped.height_eq, hempty]
  rfl

theorem parse_plus (ext : Externals) : parse ext .default (utf8 "+") = .ok [.binaryOperator .add] := by
  have hlexes : Lexes ext (.new (utf8 "+") .default) [.binaryOperator .add] :=
    .token rfl (.done rfl)
  rw [parse, parseLoop_of_lexes hlexes]
  rfl

def Env.empty : Env Unit Unit where
  resolveVariable _ := default
  resolveGlobal _ := default
  system _ _ := default
  function _ _ := default
  asyncFunction _ _ w := .ok (default, w)
  captures _ _ := none
  floats := ⟨fun _ => "", fun _ => ""⟩

/-- The operator pops from an empty stack. -/
theorem not_balanced_of_parse : ¬ ∀ (env : Env Unit Unit) (ext : Externals) (tokenMap : TokenMap)
    (expr : List UInt8) (items : List ExpressionItem) (s : EvalState Unit),
    parse ext tokenMap expr = .ok items → s.stack = [] → Balanced env items s := by
  intro hall
  let ext : Externals := ⟨fun _ => false, fun _ => false⟩
  have hbalanced := hall .empty ext _ _ _ ⟨[], [], ()⟩ (parse_plus ext) rfl
  have hsound : 2 ≤ 0 := (hbalanced _ _ .refl).1
  exact absurd hsound (by decide)

/-- `1&&2` is an expression. -/
theorem balanced_one_and_two : Balanced .empty
    [.constant (.integer 1), .jmpIf false 2, .constant (.integer 2), .binaryOperator .and]
    ⟨[], [], ()⟩ := by
  let ext : Externals := ⟨fun _ => false, fun _ => false⟩
  let e : Ast := .binary .and (.atom (.constant (.integer 1))) (.atom (.constant (.integer 2)))
  have hlexes : Lexes ext (.new (utf8 "1&&2") .default) e.tokens :=
    .token rfl (.token rfl (.token rfl (.done rfl)))
  have hparse : parse ext .default (utf8 "1&&2") = .ok e.compile := by
    rw [parse, parseLoop_of_lexes hlexes]
    rfl
  have hlayered : e.Layered := by
    refine ⟨⟨?_, ?_⟩, trivial, trivial⟩ <;> decide
  exact (balanced_of_parse .empty hparse ⟨[], [], ()⟩ rfl).2 e hlayered
    ⟨trivial, trivial, trivial⟩ ⟨trivial, trivial, trivial⟩ hlexes (by decide)

end Bearmail.Expr
