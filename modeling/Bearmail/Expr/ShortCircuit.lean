import Bearmail.Expr.Balanced

/-!
# Jumps over operands

The jump after the left operand of `&&` and `||` leaves that operand where the
operator would leave its result, and what the right operand would have done is not
done: its functions are not called and its captures are not taken. Without its
jumps a program computes the same where neither can be told.
-/

namespace Bearmail.Expr

open Imap (utf8)
open List

open Fallible (bind_eq_ok)

open ExpressionParser (shortCircuit)

def strip (items : List ExpressionItem) : List ExpressionItem := items.filter fun item => !item.isJump

theorem strip_append (items more : List ExpressionItem) :
    strip (items ++ more) = strip items ++ strip more :=
  filter_append _ _

variable {item : ExpressionItem} {items : List ExpressionItem}

theorem strip_item (h : item.isJump = false) (items : List ExpressionItem) :
    strip (item :: items) = item :: strip items := by
  rw [strip, filter_cons, h]
  rfl

theorem isJump_of_mem_strip (h : item ∈ strip items) : item.isJump = false := by
  have := (mem_filter.mp h).2
  revert this
  cases item.isJump <;> simp

variable {W E : Type} {env : Env W E}

theorem eval_append (h : ∀ item ∈ items, item.isJump = false) (more : List ExpressionItem)
    (s : EvalState W) : eval env 0 (items ++ more) s = eval env 0 items s >>= eval env 0 more := by
  induction items generalizing s with
  | nil => rfl
  | cons item items ih =>
    obtain ⟨hitem, hitems⟩ := forall_mem_cons.mp h
    rw [cons_append, eval_item env hitem, eval_item env hitem]
    cases s.exec env item with
    | error e => rfl
    | ok s' => exact ih hitems s'

/-- What a jump skips cannot be told: the operand that stays is the value of the operator, and
the operand that is skipped would have left its value and changed nothing. -/
structure Harmless (env : Env W E) (val : Bool) (operand : List ExpressionItem)
    (s : EvalState W) : Prop where
  canonical : s.stack.head? = some (ofBool val)
  operand : ∃ v, eval env 0 (strip operand) s = .ok (s.push s.stack v)

theorem apply_of_shortCircuit {op : BinaryOperator} {val : Bool} (h : shortCircuit op = some val)
    (floats : Floats) (v : Variable) : op.apply floats (ofBool val) v = ofBool val := by
  cases op <;> cases h
  · exact opAnd_false v
  · exact opOr_true v

theorem Harmless.eval {val : Bool} {operand : List ExpressionItem} {s : EvalState W}
    (h : Harmless env val operand s) {op : BinaryOperator} (hop : shortCircuit op = some val)
    (rest : List ExpressionItem) :
    eval env 0 (strip operand ++ .binaryOperator op :: rest) s = eval env 0 rest s := by
  obtain ⟨v, hv⟩ := h.operand
  obtain ⟨stack, captures, world⟩ := s
  obtain ⟨tail, rfl⟩ := List.head?_eq_some_iff.mp h.canonical
  have hexec : EvalState.exec env ⟨v :: ofBool val :: tail, captures, world⟩ (.binaryOperator op) =
      .ok ⟨op.apply env.floats (ofBool val) v :: tail, captures, world⟩ := rfl
  rw [eval_append (fun _ => isJump_of_mem_strip), hv]
  refine (eval_item env rfl rest _).trans ?_
  rw [EvalState.push, hexec, apply_of_shortCircuit hop]
  rfl

theorem Landed.tail (h : Landed (item :: items)) : Landed items := by
  intro j val pos hget
  obtain ⟨n, op, hop, hpos, hn⟩ := h (j + 1) val pos hget
  rw [Nat.add_right_comm] at hn
  exact ⟨n, op, hop, hpos, hn⟩

theorem Landed.drop (h : Landed items) (n : Nat) : Landed (items.drop n) := by
  induction n generalizing items with
  | zero => exact h
  | succ n ih =>
    cases items with
    | nil => exact h
    | cons item items => exact ih h.tail

theorem Landed.split {val : Bool} {pos : Nat} {rest : List ExpressionItem}
    (h : Landed (.jmpIf val pos :: rest)) (hlength : rest.length + 1 < 2 ^ 32) :
    ∃ op, shortCircuit op = some val ∧
      rest = rest.take (pos - 1) ++ .binaryOperator op :: rest.drop pos := by
  obtain ⟨n, op, hop, hpos, hn⟩ := h 0 val pos rfl
  cases n with
  | zero => cases hn
  | succ n =>
    obtain ⟨hlt, hget⟩ := List.getElem?_eq_some_iff.mp hn
    rw [length_cons] at hlt
    rw [Nat.mod_eq_of_lt (by omega)] at hpos
    subst hpos
    refine ⟨op, hop, ?_⟩
    simp [← hget, getElem_cons_drop, take_append_drop]

theorem eval_strip_of_landed {s : EvalState W} (h : Landed items) (hlength : items.length < 2 ^ 32)
    (hharmless : ∀ val pos rest s', Reaches env (items, s) (.jmpIf val pos :: rest, s') →
      s'.jumps val = true → Harmless env val (rest.take (pos - 1)) s') :
    eval env 0 items s = eval env 0 (strip items) s := by
  induction hn : items.length using Nat.strong_induction_on generalizing items s with
  | _ n ih =>
    subst hn
    cases items with
    | nil => rfl
    | cons item rest =>
      have hrest : rest.length < (item :: rest).length := Nat.lt_succ_self _
      cases hitem : item.isJump with
      | false =>
        rw [strip_item hitem, eval_item env hitem, eval_item env hitem]
        cases hexec : s.exec env item with
        | error e => rfl
        | ok s' =>
          refine ih _ hrest h.tail (hrest.trans hlength) ?_ rfl
          intro val pos tail t hreaches
          exact hharmless val pos tail t (.head (.item hitem hexec) hreaches)
      | true =>
        cases item with
        | jmpIf val pos =>
          have hstrip : strip (.jmpIf val pos :: rest) = strip rest := rfl
          rw [hstrip, eval_jmpIf]
          have hnext : ∀ {val' pos' tail t}, Reaches env
              (if s.jumps val then rest.drop pos else rest, s) (.jmpIf val' pos' :: tail, t) →
              t.jumps val' = true → Harmless env val' (tail.take (pos' - 1)) t :=
            fun hreaches => hharmless _ _ _ _ (.head .jump hreaches)
          split at hnext
          · rename_i hjumps
            obtain ⟨op, hop, hsplit⟩ := h.split hlength
            have hdrop : (rest.drop pos).length < (ExpressionItem.jmpIf val pos :: rest).length :=
              Nat.lt_succ_of_le (length_drop.trans_le (Nat.sub_le _ _))
            have hskipped := hharmless val pos rest s .refl hjumps
            rw [if_pos hjumps, ih _ hdrop (h.tail.drop pos) (hdrop.trans hlength)
              (fun _ _ _ _ => hnext) rfl]
            conv_rhs => rw [hsplit, strip_append]
            exact (hskipped.eval hop _).symm
          · rename_i hjumps
            rw [if_neg hjumps]
            exact ih _ hrest h.tail (hrest.trans hlength) (fun _ _ _ _ => hnext) rfl
        | _ => cases hitem

/-! ## Accepted programs -/

/-- Where no jump that is taken can be told, an accepted program computes what it does without
its jumps. -/
theorem evalVariable_strip_of_parse (env : Env W E) {ext : Externals} {tokenMap : TokenMap}
    {expr : List UInt8} {items : List ExpressionItem} (h : parse ext tokenMap expr = .ok items)
    (hlength : items.length < 2 ^ 32) (s : EvalState W)
    (hharmless : ∀ val pos rest s', Reaches env (items, s) (.jmpIf val pos :: rest, s') →
      s'.jumps val = true → Harmless env val (rest.take (pos - 1)) s') :
    evalVariable env items s = evalVariable env (strip items) s := by
  rw [evalVariable, evalVariable, eval_strip_of_landed (landed_of_parse h) hlength hharmless]

/-- The jump of `0&&2`. -/
theorem evalVariable_zero_and_two :
    evalVariable Env.empty
        [.constant (.integer 0), .jmpIf false 2, .constant (.integer 2), .binaryOperator .and]
        ⟨[], [], ()⟩ =
      evalVariable Env.empty
        [.constant (.integer 0), .constant (.integer 2), .binaryOperator .and] ⟨[], [], ()⟩ := by
  let ext : Externals := ⟨fun _ => false, fun _ => false⟩
  have hlexes : Lexes ext (.new (utf8 "0&&2") .default)
      [.constant (.integer 0), .binaryOperator .and, .constant (.integer 2)] :=
    .token rfl (.token rfl (.token rfl (.done rfl)))
  have hparse : parse ext .default (utf8 "0&&2") = .ok [.constant (.integer 0), .jmpIf false 2,
      .constant (.integer 2), .binaryOperator .and] := by
    rw [parse, parseLoop_of_lexes hlexes]
    rfl
  refine evalVariable_strip_of_parse .empty hparse (by decide) _ ?_
  intro val pos rest s' hreaches _
  obtain heq | ⟨config, hturn, hreaches⟩ := hreaches.cases_head
  · cases heq
  obtain ⟨-, hexec⟩ := hturn
  cases hexec
  obtain heq | ⟨config, hturn, hreaches⟩ := hreaches.cases_head
  · cases heq
    exact ⟨rfl, .integer 2, rfl⟩
  cases hturn with
  | item hitem => cases hitem
  | jump =>
    obtain heq | ⟨config, hturn, -⟩ := hreaches.cases_head
    · cases heq
    · cases hturn

def Env.counter : Env Int64 Unit where
  resolveVariable _ := default
  resolveGlobal _ := default
  system _ _ := default
  function _ _ := default
  asyncFunction fnc _ n := if fnc = 5 then .ok (.integer (n + 1), n + 1) else .ok (.integer n, n)
  captures _ _ := none
  floats := ⟨fun _ => "", fun _ => ""⟩

def counterIncr : ExpressionItem := .function (5 + functions.length) 3

def counterGet : ExpressionItem := .function (6 + functions.length) 2

def skipsCounter : List ExpressionItem :=
  [.constant (.integer 1), .jmpIf true 5, .constant (.string "s"), .constant (.string "k"),
    .constant (.integer 1), counterIncr, .binaryOperator .or, .constant (.string "s"),
    .constant (.string "k"), counterGet, .binaryOperator .add]

theorem parse_skipsCounter (ext : Externals) :
    parse ext .default (utf8 "(1||counter_incr('s','k',1))+counter_get('s','k')") =
      .ok skipsCounter := by
  have hlexes : Lexes ext (.new (utf8 "(1||counter_incr('s','k',1))+counter_get('s','k')") .default)
      [.openParen, .constant (.integer 1), .binaryOperator .or,
        .function "counter_incr" (5 + functions.length) 3, .openParen, .constant (.string "s"),
        .comma, .constant (.string "k"), .comma, .constant (.integer 1), .closeParen, .closeParen,
        .binaryOperator .add, .function "counter_get" (6 + functions.length) 2, .openParen,
        .constant (.string "s"), .comma, .constant (.string "k"), .closeParen] := by
    repeat' first | exact .done rfl | apply Lexes.token rfl
  rw [parse, parseLoop_of_lexes hlexes]
  rfl

/-- The counter that is not reached is not counted up. -/
theorem not_evalVariable_strip_of_parse : ¬ ∀ (env : Env Int64 Unit) (ext : Externals)
    (tokenMap : TokenMap) (expr : List UInt8) (items : List ExpressionItem) (s : EvalState Int64),
    parse ext tokenMap expr = .ok items →
      evalVariable env items s = evalVariable env (strip items) s := by
  intro hall
  let ext : Externals := ⟨fun _ => false, fun _ => false⟩
  have hsame := hall .counter ext _ _ _ ⟨[], [], 0⟩ (parse_skipsCounter ext)
  have hleft : evalVariable .counter skipsCounter ⟨[], [], 0⟩ = .ok (.integer 1) := rfl
  have hright : evalVariable .counter (strip skipsCounter) ⟨[], [], 0⟩ = .ok (.integer 2) := rfl
  rw [hleft] at hsame
  cases hsame

end Bearmail.Expr
