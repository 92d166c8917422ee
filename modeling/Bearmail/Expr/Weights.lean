import Mathlib.Algebra.GroupWithZero.Nat
import Bearmail.Expr.Refused

/-!
# Signs and indices in programs

The parser neither loses nor makes up operators: what it has read of some kind is in
the output or waits on the stack. Here the kinds are signs and array accesses, the
two that the tokenizer and the parser tell from others by what comes before.
-/

namespace Bearmail.Expr

open Fallible (bind_eq_ok)
open List

/-! ## Weights -/

/-- What a sign and an array access weigh; all else weighs nothing. -/
structure Weight where
  minus : Nat
  access : Nat

variable (output : List ExpressionItem) (jmpPos : Option Nat) (entries : List Entry)

namespace Weight

variable (w : Weight)

def item : ExpressionItem → Nat
  | .unaryOperator .minus => w.minus
  | .arrayAccess => w.access
  | _ => 0

def token : Token → Nat
  | .unaryOperator .minus => w.minus
  | .function _ fnc _ => if fnc = idArrayAccess then w.access else 0
  | _ => 0

def items (output : List ExpressionItem) : Nat := (output.map w.item).sum

def stack (stack : List Entry) : Nat := (stack.map fun entry => w.token entry.1).sum

@[simp] theorem items_append (more : List ExpressionItem) :
    w.items (output ++ more) = w.items output + w.items more := by
  rw [items, List.map_append, sum_append]
  rfl

@[simp] theorem items_singleton (item : ExpressionItem) : w.items [item] = w.item item := by
  simp [items]

@[simp] theorem stack_cons (token : Token) (jmpPos : Option Nat) (entries : List Entry) :
    w.stack ((token, jmpPos) :: entries) = w.token token + w.stack entries := by
  rfl

theorem item_operatorItem {token : Token} {item : ExpressionItem}
    (h : token.operatorItem = some item) : w.item item = w.token token := by
  cases token <;> cases h
  · rfl
  · rename_i op
    cases op <;> rfl

theorem item_functionItem (name : String) (fnc numArgs : Nat) :
    w.item (ExpressionParser.functionItem fnc numArgs) = w.token (.function name fnc numArgs) := by
  have htoken : w.token (.function name fnc numArgs) =
      if fnc = idArrayAccess then w.access else 0 := rfl
  rw [ExpressionParser.functionItem, htoken]
  split
  · rfl
  · split <;> rfl

theorem items_updateJmpPos : w.items (updateJmpPos output jmpPos) = w.items output := by
  unfold updateJmpPos
  split
  · rfl
  · rename_i j
    split
    · rename_i val pos hget
      obtain ⟨hlt, hget⟩ := List.getElem?_eq_some_iff.mp hget
      have hj : j < (output.map w.item).length := by rwa [length_map]
      have hzero : (output.map w.item)[j] = 0 := by
        rw [getElem_map, hget]
        rfl
      unfold items
      rw [map_set]
      show ((output.map w.item).set j 0).sum = _
      rw [← hzero, set_getElem_self]
    · rfl

theorem items_emit (item : ExpressionItem) :
    w.items (emit output jmpPos item) = w.items output + w.item item := by
  rw [emit, items_append, items_updateJmpPos, items_singleton]

theorem popWhile (pops : Token → Bool) (output : List ExpressionItem) (entries : List Entry) :
    w.items (popWhile pops output entries).1 + w.stack (popWhile pops output entries).2 =
      w.items output + w.stack entries := by
  induction entries generalizing output with
  | nil => rfl
  | cons entry entries ih =>
    rw [Bearmail.Expr.popWhile]
    split
    · rename_i hitem
      split
      · rw [ih, items_emit, stack_cons, item_operatorItem w hitem, Nat.add_assoc]
      · rfl
    · rfl

theorem closeGroup {opens : Token → Bool} (hopens : ∀ token, opens token = true → w.token token = 0)
    {output output' : List ExpressionItem} {entries entries' : List Entry}
    (h : closeGroup opens output entries = .ok (output', entries')) :
    w.items output' + w.stack entries' = w.items output + w.stack entries := by
  induction entries generalizing output with
  | nil => cases h
  | cons entry entries ih =>
    rw [Bearmail.Expr.closeGroup] at h
    split at h
    · rename_i hopen
      cases h
      rw [stack_cons, hopens _ hopen, Nat.zero_add]
    · split at h
      · rename_i hitem
        rw [ih h, items_emit, stack_cons, item_operatorItem w hitem, Nat.add_assoc]
      · cases h

theorem drain {output items : List ExpressionItem} {entries : List Entry}
    (h : drain output entries = .ok items) : w.items items = w.items output + w.stack entries := by
  induction entries generalizing output with
  | nil =>
    cases h
    rfl
  | cons entry entries ih =>
    rw [Bearmail.Expr.drain] at h
    split at h
    · rename_i hitem
      rw [ih h, items_emit, stack_cons, item_operatorItem w hitem, Nat.add_assoc]
    · cases h

theorem stack_bumpArray : w.stack (bumpArray entries) = w.stack entries := by
  unfold bumpArray
  split
  · split <;> rfl
  · split <;> rfl
  · rfl

/-! ## The weight of what is read -/

def held (p : ExpressionParser) : Nat := w.items p.output + w.stack p.operatorStack

/-- What a token adds, after a token that can be indexed or not. -/
def gain (lastIsVarOrFnc : Bool) : Token → Nat
  | .openBracket => if lastIsVarOrFnc then w.access else 0
  | token => w.token token

end Weight

def Token.isVarOrFnc : Token → Bool
  | .var _ | .closeParen | .closeBracket => true
  | _ => false

namespace Weight

variable (w : Weight)

def gains : Bool → List Token → Nat
  | _, [] => 0
  | lastIsVarOrFnc, token :: tokens => w.gain lastIsVarOrFnc token + gains token.isVarOrFnc tokens

theorem held_incArgCount (p : ExpressionParser) : w.held p.incArgCount = w.held p := by
  unfold ExpressionParser.incArgCount
  split
  · rfl
  · unfold held
    rw [stack_bumpArray]

theorem held_endGroup {p p' : ExpressionParser} (h : p.endGroup = .ok p') :
    w.held p' = w.held p ∧ p'.lastIsVarOrFnc = true := by
  have hpop {item : ExpressionItem} {token : Token} {jmpPos : Option Nat} {entries : List Entry}
      {argCount : List Int} (hitem : w.item item = w.token token)
      (hstack : p.operatorStack = (token, jmpPos) :: entries) :
      w.held ⟨p.output ++ [item], entries, argCount, true⟩ = w.held p := by
    rw [held, held, hstack, stack_cons, items_append, items_singleton, hitem, Nat.add_assoc]
  unfold ExpressionParser.endGroup at h
  split at h
  · rename_i hstack
    obtain ⟨⟨gotArgs, argCount⟩, -, h⟩ := bind_eq_ok.mp h
    dsimp only at h
    split_ifs at h <;> cases h
    exact ⟨hpop (w.item_functionItem _ _ _) hstack, rfl⟩
  · rename_i hstack
    obtain ⟨⟨gotArgs, argCount⟩, -, h⟩ := bind_eq_ok.mp h
    dsimp only at h
    split_ifs at h <;> cases h
    exact ⟨hpop rfl hstack, rfl⟩
  · rename_i hstack
    obtain ⟨⟨gotArgs, argCount⟩, -, h⟩ := bind_eq_ok.mp h
    dsimp only at h
    split_ifs at h <;> cases h
    exact ⟨hpop rfl hstack, rfl⟩
  · cases h
    exact ⟨rfl, rfl⟩

theorem held_step {p p' : ExpressionParser} {token : Token} (h : p.step token = .ok p') :
    w.held p' = w.held p + w.gain p.lastIsVarOrFnc token ∧ p'.lastIsVarOrFnc = token.isVarOrFnc := by
  have hclose {opens : Token → Bool} (hopens : ∀ token, opens token = true → w.token token = 0)
      (hclose : p.close opens = .ok p') : w.held p' = w.held p ∧ p'.lastIsVarOrFnc = true := by
    obtain ⟨⟨output, entries⟩, hgroup, hend⟩ := bind_eq_ok.mp hclose
    obtain ⟨hheld, hlast⟩ := w.held_endGroup hend
    exact ⟨hheld.trans (w.closeGroup hopens hgroup), hlast⟩
  have hoperand {item : ExpressionItem} (hitem : w.item item = 0) :
      w.held { p.incArgCount with output := p.output ++ [item] } = w.held p := by
    rw [← w.held_incArgCount p, held, held, items_append, items_singleton, hitem, p.incArgCount_output]
    rfl
  cases token with
  | closeParen | closeBracket =>
    exact hclose (fun token htoken => by cases token <;> first | rfl | cases htoken) h
  | binaryOperator op =>
    cases h
    have hpopped := w.popWhile (ExpressionParser.popsBefore op) p.output p.operatorStack
    unfold ExpressionParser.binary
    split
    · refine ⟨?_, rfl⟩
      show w.items (_ ++ [_]) + w.stack (_ :: _) = w.items p.output + w.stack p.operatorStack
      rw [items_append, items_singleton, ← hpopped]
      exact congrArg (_ + ·) (Nat.zero_add _)
    · refine ⟨?_, rfl⟩
      show _ + w.stack (_ :: _) = w.items p.output + w.stack p.operatorStack
      rw [← hpopped]
      exact congrArg (_ + ·) (Nat.zero_add _)
  | openBracket =>
    cases h
    unfold ExpressionParser.openBracket gain
    split
    · rename_i hlast
      refine ⟨?_, rfl⟩
      show w.items p.output + w.stack (_ :: _ :: _) = w.items p.output + w.stack p.operatorStack + _
      rw [Nat.add_assoc, Nat.add_comm (w.stack p.operatorStack)]
      exact congrArg (_ + ·) (Nat.zero_add _)
    · refine ⟨?_, rfl⟩
      rw [← w.held_incArgCount p]
      exact congrArg (_ + ·) ((Nat.zero_add _).trans (Nat.zero_add _))
  | comma =>
    cases h
    exact ⟨w.popWhile _ _ _, rfl⟩
  | var | constant | global | capture =>
    cases h
    exact ⟨hoperand rfl, rfl⟩
  | unaryOperator | openParen =>
    cases h
    refine ⟨?_, rfl⟩
    show w.items p.output + w.stack (_ :: _) = w.items p.output + w.stack p.operatorStack + _
    rw [Nat.add_assoc, Nat.add_comm (w.stack p.operatorStack)]
    rfl
  | function | regex | system =>
    cases h
    refine ⟨?_, rfl⟩
    rw [← w.held_incArgCount p]
    show w.items _ + w.stack (_ :: _) = w.items _ + w.stack _ + _
    rw [Nat.add_assoc, Nat.add_comm (w.stack p.incArgCount.operatorStack)]
    rfl

theorem held_feed {p q : ExpressionParser} {tokens : List Token} (h : p.feed tokens = .ok q) :
    w.held q = w.held p + w.gains p.lastIsVarOrFnc tokens := by
  induction tokens generalizing p with
  | nil =>
    cases h
    rfl
  | cons token tokens ih =>
    obtain ⟨p', hstep, h⟩ := bind_eq_ok.mp h
    obtain ⟨hheld, hlast⟩ := w.held_step hstep
    rw [ih h, hheld, hlast, gains, Nat.add_assoc]

theorem items_of_feed {tokens : List Token} {items : List ExpressionItem}
    (h : ExpressionParser.new.feed tokens >>= ExpressionParser.finish = .ok items) :
    w.items items = w.gains false tokens := by
  obtain ⟨q, hfeed, hfinish⟩ := bind_eq_ok.mp h
  rw [w.drain hfinish]
  exact (w.held_feed hfeed).trans (Nat.zero_add _)

end Weight

/-! ## The weight of a tree -/

namespace Ast

mutual

/-- The sum of a number over a tree and everything it is made of. -/
def tally (f : Ast → Nat) : Ast → Nat
  | .atom a => f (.atom a)
  | .system setting => f (.system setting)
  | .unary op e => f (.unary op e) + e.tally f
  | .binary op l r => f (.binary op l r) + (l.tally f + r.tally f)
  | .paren e => f (.paren e) + e.tally f
  | .call name fnc numArgs args => f (.call name fnc numArgs args) + tallies f args
  | .regex re e => f (.regex re e) + e.tally f
  | .array items => f (.array items) + tallies f items
  | .index base i => f (.index base i) + (base.tally f + i.tally f)

def tallies (f : Ast → Nat) : List Ast → Nat
  | [] => 0
  | e :: es => e.tally f + tallies f es

end

theorem tally_le {f g : Ast → Nat} (hle : ∀ e, f e ≤ g e) (e : Ast) :
    e.tally f ≤ e.tally g ∧ (e.tally f = e.tally g → e.Everywhere fun e => f e = g e) := by
  have hsum {m m' n n' : Nat} {p q : Prop} (h : m ≤ n ∧ (m = n → p))
      (h' : m' ≤ n' ∧ (m' = n' → q)) : m + m' ≤ n + n' ∧ (m + m' = n + n' → p ∧ q) := by
    refine ⟨by omega, fun heq => ⟨h.2 ?_, h'.2 ?_⟩⟩ <;> omega
  have hnode (e : Ast) : f e ≤ g e ∧ (f e = g e → f e = g e) := ⟨hle e, fun h => h⟩
  have hall {es : List Ast} (h : ∀ e ∈ es,
      e.tally f ≤ e.tally g ∧ (e.tally f = e.tally g → e.Everywhere fun e => f e = g e)) :
      tallies f es ≤ tallies g es ∧
        (tallies f es = tallies g es → EverywhereAll (fun e => f e = g e) es) := by
    induction es with
    | nil => exact ⟨Nat.le_refl _, fun _ => trivial⟩
    | cons e es ih =>
      obtain ⟨he, hes⟩ := forall_mem_cons.mp h
      exact hsum he (ih hes)
  induction e with
  | atom | system => exact hnode _
  | unary op e ih | paren e ih | regex re e ih => exact hsum (hnode _) ih
  | binary op l r ihl ihr | index l r ihl ihr => exact hsum (hnode _) (hsum ihl ihr)
  | call name fnc numArgs args ih | array args ih => exact hsum (hnode _) (hall ih)

end Ast

namespace Weight

variable (w : Weight)

def writes : Ast → Nat
  | .unary .minus _ => w.minus
  | .index _ _ => w.access
  | _ => 0

/-- What the parser takes the tokens of a node for. -/
def reads : Ast → Nat
  | .unary .minus _ => w.minus
  | .index base _ => if base.endsVar then w.access else 0
  | _ => 0

theorem items_programs {length : List Ast → Nat} {es : List Ast}
    (h : ∀ e ∈ es, w.items (e.program length) = e.tally w.writes) :
    w.items (Ast.programs length es) = Ast.tallies w.writes es := by
  induction es with
  | nil => rfl
  | cons e es ih =>
    obtain ⟨he, hes⟩ := forall_mem_cons.mp h
    rw [Ast.programs, items_append, he, ih hes, Ast.tallies]

theorem items_program (length : List Ast → Nat) (e : Ast) :
    w.items (e.program length) = e.tally w.writes := by
  have hjump (op : BinaryOperator) (pos : Nat) : w.items (Ast.jump op pos) = 0 := by
    unfold Ast.jump
    split <;> rfl
  induction e with
  | atom a => cases a <;> rfl
  | system setting => rfl
  | unary op e ih =>
    rw [Ast.program, items_append, ih, Nat.add_comm]
    cases op <;> rfl
  | binary op l r ihl ihr =>
    rw [Ast.program, items_append, items_append, items_append, ihl, ihr, hjump, items_singleton,
      Ast.tally]
    show _ = 0 + _
    simp only [Nat.zero_add]
    rfl
  | paren e ih => exact ih.trans (Nat.zero_add _).symm
  | call name fnc numArgs args ih =>
    rw [Ast.program, items_append, items_programs w ih, Nat.add_comm]
    rfl
  | regex re e ih =>
    rw [Ast.program, items_append, ih, Nat.add_comm]
    rfl
  | array items ih =>
    rw [Ast.program, items_append, items_programs w ih, Nat.add_comm]
    rfl
  | index base i ihb ihi =>
    rw [Ast.program, items_append, items_append, ihb, ihi, items_singleton, Ast.tally,
      ← Nat.add_assoc, Nat.add_comm]
    rfl

theorem gain_isVarOrFnc_closing {closing : Token}
    (h : closing = .closeParen ∨ closing = .closeBracket) (last : Bool) :
    w.gain last closing = 0 ∧ closing.isVarOrFnc = true := by
  rcases h with rfl | rfl <;> exact ⟨rfl, rfl⟩

/-- A tree read after something that cannot be indexed. -/
def Gains (e : Ast) : Prop :=
  ∀ rest, w.gains false (e.tokens ++ rest) = e.tally w.reads + w.gains e.endsVar rest

theorem gains_moreTokens {es : List Ast} (h : ∀ e ∈ es, w.Gains e) {closing : Token}
    (hclosing : closing = .closeParen ∨ closing = .closeBracket) (last : Bool)
    (rest : List Token) : w.gains last (Ast.moreTokens es ++ closing :: rest) =
      Ast.tallies w.reads es + w.gains true rest := by
  induction es generalizing last with
  | nil =>
    obtain ⟨hgain, hlast⟩ := w.gain_isVarOrFnc_closing hclosing last
    show w.gain last closing + w.gains closing.isVarOrFnc rest = 0 + _
    rw [hgain, hlast]
  | cons e es ih =>
    obtain ⟨he, hes⟩ := forall_mem_cons.mp h
    show w.gain last .comma + w.gains false (e.tokens ++ Ast.moreTokens es ++ closing :: rest) = _
    rw [append_assoc, he, ih hes, Ast.tallies]
    have hcomma : w.gain last .comma = 0 := rfl
    omega

theorem gains_argTokens {es : List Ast} (h : ∀ e ∈ es, w.Gains e) {closing : Token}
    (hclosing : closing = .closeParen ∨ closing = .closeBracket) (rest : List Token) :
    w.gains false (Ast.argTokens es ++ closing :: rest) =
      Ast.tallies w.reads es + w.gains true rest := by
  cases es with
  | nil => exact @gains_moreTokens w [] (forall_mem_nil _) _ hclosing false rest
  | cons e es =>
    obtain ⟨he, hes⟩ := forall_mem_cons.mp h
    rw [Ast.argTokens, append_assoc, he, w.gains_moreTokens hes hclosing, Ast.tallies, Nat.add_assoc]

theorem gains_tokens {e : Ast} (hknown : e.Everywhere Ast.Known) : w.Gains e := by
  have hall {es : List Ast} (ih : ∀ e ∈ es, e.Everywhere Ast.Known → w.Gains e)
      (h : Ast.EverywhereAll Ast.Known es) : ∀ e ∈ es, w.Gains e :=
    fun e he => ih e he (Ast.everywhereAll_iff.mp h e he)
  have hparen {e : Ast} (h : w.Gains e) (rest : List Token) :
      w.gains false (e.tokens ++ .closeParen :: rest) = e.tally w.reads + w.gains true rest := by
    rw [h]
    exact congrArg (_ + ·) (Nat.zero_add _)
  induction e with
  | atom a =>
    intro rest
    cases a <;> exact (Nat.zero_add _).trans (Nat.zero_add _).symm
  | system setting =>
    intro rest
    show 0 + (0 + (0 + w.gains true rest)) = 0 + w.gains true rest
    omega
  | unary op e ih =>
    intro rest
    show w.token (.unaryOperator op) + w.gains false (e.tokens ++ rest) = _
    rw [ih hknown.2, ← Nat.add_assoc]
    cases op <;> rfl
  | binary op l r ihl ihr =>
    intro rest
    show w.gains false (l.tokens ++ .binaryOperator op :: r.tokens ++ rest) =
      0 + (l.tally w.reads + r.tally w.reads) + w.gains r.endsVar rest
    rw [append_assoc, ihl hknown.2.1]
    show _ + (0 + w.gains false (r.tokens ++ rest)) = _
    rw [ihr hknown.2.2]
    omega
  | paren e ih =>
    intro rest
    show 0 + w.gains false (e.tokens ++ [Token.closeParen] ++ rest) =
      0 + e.tally w.reads + w.gains true rest
    rw [append_assoc, singleton_append, hparen (ih hknown.2)]
    omega
  | call name fnc numArgs args ih =>
    intro rest
    obtain ⟨⟨hfunction, -⟩, hargs⟩ := hknown
    have hfnc : w.token (.function name fnc numArgs) = 0 :=
      if_neg (Nat.ne_of_lt ((knownFunctions_bound _ hfunction).1.trans (by decide)))
    show w.token (.function name fnc numArgs) + (0 + w.gains false (Ast.argTokens args ++ [Token.closeParen] ++ rest)) =
      0 + Ast.tallies w.reads args + w.gains true rest
    rw [hfnc, append_assoc, singleton_append, w.gains_argTokens (hall ih hargs) (.inl rfl)]
    omega
  | regex re e ih =>
    intro rest
    show 0 + (0 + w.gains false (e.tokens ++ [Token.closeParen] ++ rest)) =
      0 + e.tally w.reads + w.gains true rest
    rw [append_assoc, singleton_append, hparen (ih hknown.2)]
    omega
  | array items ih =>
    intro rest
    show 0 + w.gains false (Ast.argTokens items ++ [.closeBracket] ++ rest) =
      0 + Ast.tallies w.reads items + w.gains true rest
    rw [append_assoc, singleton_append, w.gains_argTokens (hall ih hknown.2) (.inr rfl)]
    omega
  | index base i ihb ihi =>
    intro rest
    show w.gains false (base.tokens ++ .openBracket :: (i.tokens ++ [.closeBracket]) ++ rest) =
      w.reads (.index base i) + (base.tally w.reads + i.tally w.reads) + w.gains true rest
    rw [append_assoc, ihb hknown.2.1]
    show _ + (w.reads (.index base i) + w.gains false (i.tokens ++ [.closeBracket] ++ rest)) = _
    rw [append_assoc, ihi hknown.2.2]
    show _ + (_ + (_ + (0 + w.gains true rest))) = _
    omega

end Weight

theorem Ast.indexable_of_feed {e : Ast} (hknown : e.Everywhere Ast.Known)
    (h : ExpressionParser.new.feed e.tokens >>= ExpressionParser.finish = .ok e.compile) :
    e.Everywhere Ast.Indexable := by
  let w : Weight := ⟨0, 1⟩
  have hgains := w.gains_tokens hknown []
  have hitems := w.items_of_feed h
  rw [List.append_nil] at hgains
  rw [Ast.compile, w.items_program, hgains] at hitems
  have hindex (base i : Ast) : w.reads (.index base i) ≤ w.writes (.index base i) ∧
        (w.reads (.index base i) = w.writes (.index base i) ↔ base.endsVar = true) := by
    show (if base.endsVar = true then 1 else 0) ≤ 1 ∧
      ((if base.endsVar = true then 1 else 0) = 1 ↔ base.endsVar = true)
    split <;> simp_all
  have hnode (e : Ast) : w.reads e ≤ w.writes e ∧ (w.reads e = w.writes e ↔ e.Indexable) := by
    cases e with
    | index base i => exact hindex base i
    | unary op e => cases op <;> exact ⟨Nat.le_refl _, iff_of_true rfl trivial⟩
    | _ => exact ⟨Nat.le_refl _, iff_of_true rfl trivial⟩
  have hsame := (Ast.tally_le (fun e => (hnode e).1) e).2 hitems.symm
  have hboth := Ast.everywhere_and (q := Ast.Indexable)
    (fun e => (hnode e).2.trans (and_self_iff).symm) e
  exact (hboth.mp hsame).1

theorem Ast.gains_of_feed {e : Ast} (hknown : e.Everywhere Ast.Known) {tokens : List Token}
    (h : ExpressionParser.new.feed tokens >>= ExpressionParser.finish = .ok e.compile) :
    Weight.gains ⟨1, 0⟩ false tokens = Weight.gains ⟨1, 0⟩ false e.tokens := by
  let w : Weight := ⟨1, 0⟩
  have hgains := w.gains_tokens hknown []
  have hsame : w.reads = w.writes := by
    funext e
    cases e with
    | index base i =>
      exact ite_self 0
    | unary op e => cases op <;> rfl
    | _ => rfl
  rw [List.append_nil, hsame, ← w.items_program List.length] at hgains
  exact (w.items_of_feed h).symm.trans hgains.symm

end Bearmail.Expr
