import Bearmail.Expr.Tokenizer

/-!
# The parser of expressions

`ExpressionParser` of `common/src/expr/parser.rs`: a shunting-yard over the tokens.
Both stacks are kept with their top first. A jump is emitted after the left
operand of a `&&` or a `||` and its distance is filled in when the operator is.
-/

namespace Bearmail.Expr

open Imap (Piece Result fail)
open List

open Fallible (bind_eq_ok)

abbrev Entry := Token × Option Nat

structure ExpressionParser where
  output : List ExpressionItem
  operatorStack : List Entry
  argCount : List Int
  lastIsVarOrFnc : Bool

/-! ## Emitting items -/

def updateJmpPos (output : List ExpressionItem) : Option Nat → List ExpressionItem
  | none => output
  | some jmpPos =>
    match output[jmpPos]? with
    | some (.jmpIf val _) => output.set jmpPos (.jmpIf val ((output.length - jmpPos) % 2 ^ 32))
    | _ => output

/-- The item an operator becomes when it leaves the stack. -/
def Token.operatorItem : Token → Option ExpressionItem
  | .binaryOperator op => some (.binaryOperator op)
  | .unaryOperator op => some (.unaryOperator op)
  | _ => none

def emit (output : List ExpressionItem) (jmpPos : Option Nat) (item : ExpressionItem) :
    List ExpressionItem :=
  updateJmpPos output jmpPos ++ [item]

/-- The loops that pop operators while a condition holds of the top. -/
def popWhile (pops : Token → Bool) (output : List ExpressionItem) :
    List Entry → List ExpressionItem × List Entry
  | [] => (output, [])
  | (token, jmpPos) :: stack =>
    match token.operatorItem with
    | some item =>
      if pops token then popWhile pops (emit output jmpPos item) stack
      else (output, (token, jmpPos) :: stack)
    | none => (output, (token, jmpPos) :: stack)

def closeGroup (opens : Token → Bool) (output : List ExpressionItem) :
    List Entry → Result (List ExpressionItem × List Entry)
  | [] => fail "Mismatched parentheses"
  | (token, jmpPos) :: stack =>
    if opens token then .ok (output, stack)
    else
      match token.operatorItem with
      | some item => closeGroup opens (emit output jmpPos item) stack
      | none => fail "Mismatched parentheses"

def drain (output : List ExpressionItem) : List Entry → Result (List ExpressionItem)
  | [] => .ok output
  | (token, jmpPos) :: stack =>
    match token.operatorItem with
    | some item => drain (emit output jmpPos item) stack
    | none => fail "Invalid token on the operator stack"

/-! ## Counting arguments -/

/-- The array literal whose bracket is on top of the stack has one more item. -/
def bumpArray : List Entry → List Entry
  | [(.function name fnc numArgs, jmpPos)] =>
    if fnc = idArrayBuild then [(.function name fnc ((numArgs + 1) % 2 ^ 32), jmpPos)]
    else [(.function name fnc numArgs, jmpPos)]
  | top :: (.function name fnc numArgs, jmpPos) :: stack =>
    if fnc = idArrayBuild then
      top :: (.function name fnc ((numArgs + 1) % 2 ^ 32), jmpPos) :: stack
    else top :: (.function name fnc numArgs, jmpPos) :: stack
  | stack => stack

/-- `saturating_add` and `saturating_sub` of one. -/
def satInc (n : Int) : Int := min (n + 1) (2 ^ 31 - 1)

def satDec (n : Int) : Int := max (n - 1) (-2 ^ 31)

def asI32 (n : Nat) : Int := if n < 2 ^ 31 then n else n - 2 ^ 32

variable {p p' : ExpressionParser} {ext : Externals} {items : List ExpressionItem}
  {item : ExpressionItem}

namespace ExpressionParser

def new : ExpressionParser := ⟨[], [], [], false⟩

def incArgCount (p : ExpressionParser) : ExpressionParser :=
  match p.argCount with
  | [] => p
  | count :: counts =>
    { p with argCount := satInc count :: counts, operatorStack := bumpArray p.operatorStack }

def decArgCount (p : ExpressionParser) : ExpressionParser :=
  match p.argCount with
  | [] => p
  | count :: counts => { p with argCount := satDec count :: counts }

/-! ## Tokens -/

def operand (p : ExpressionParser) (item : ExpressionItem) (isVarOrFnc : Bool) : ExpressionParser :=
  { p.incArgCount with output := p.output ++ [item], lastIsVarOrFnc := isVarOrFnc }

/-- A function, `matches` or `system`, whose arguments follow. -/
def call (p : ExpressionParser) (token : Token) : ExpressionParser :=
  { p.incArgCount with
    argCount := 0 :: p.incArgCount.argCount
    operatorStack := (token, none) :: p.incArgCount.operatorStack
    lastIsVarOrFnc := false }

def popArgCount (p : ExpressionParser) : Result (Int × List Int) :=
  match p.argCount with
  | count :: counts => .ok (count, counts)
  | [] => fail "called Option::unwrap() on a None value"

def functionItem (fnc numArgs : Nat) : ExpressionItem :=
  if fnc = idArrayAccess then .arrayAccess
  else if fnc = idArrayBuild then .arrayBuild numArgs
  else .function fnc numArgs

/-- What a closed group is the arguments of. -/
def endGroup (p : ExpressionParser) : Result ExpressionParser :=
  match p.operatorStack with
  | (.function name fnc numArgs, _) :: stack => do
    let (gotArgs, argCount) ← p.popArgCount
    if gotArgs = asI32 numArgs then
      return ⟨p.output ++ [functionItem fnc numArgs], stack, argCount, true⟩
    else if fnc = idArrayAccess then fail "Missing array index"
    else .error [.text ("Expression function " ++ name.quote ++ " expected "), .number numArgs,
      .text (" arguments, got " ++ toString gotArgs)]
  | (.regex regex, _) :: stack => do
    let (gotArgs, argCount) ← p.popArgCount
    if gotArgs = 1 then return ⟨p.output ++ [.regex regex], stack, argCount, true⟩
    else fail "Expression function \"matches\" expected 2 arguments"
  | (.system setting, _) :: stack => do
    let (gotArgs, argCount) ← p.popArgCount
    if gotArgs = 0 then return ⟨p.output ++ [.system setting], stack, argCount, true⟩
    else fail "Expression function expected 1 argument"
  | _ => .ok { p with lastIsVarOrFnc := true }

def close (p : ExpressionParser) (opens : Token → Bool) : Result ExpressionParser := do
  let (output, stack) ← closeGroup opens p.output p.operatorStack
  { p with output := output, operatorStack := stack }.endGroup

def popsBefore (op : BinaryOperator) : Token → Bool
  | .binaryOperator top => decide (op.precedence ≤ top.precedence)
  | .unaryOperator _ => true
  | _ => false

/-- The value on which the left operand settles an operator. -/
def shortCircuit : BinaryOperator → Option Bool
  | .and => some false
  | .or => some true
  | _ => none

def binary (p : ExpressionParser) (op : BinaryOperator) : ExpressionParser :=
  let popped := popWhile (popsBefore op) p.output p.operatorStack
  match shortCircuit op with
  | some val =>
    { p.decArgCount with
      output := popped.1 ++ [.jmpIf val 0]
      operatorStack := (.binaryOperator op, some popped.1.length) :: popped.2
      lastIsVarOrFnc := false }
  | none =>
    { p.decArgCount with
      output := popped.1
      operatorStack := (.binaryOperator op, none) :: popped.2
      lastIsVarOrFnc := false }

def openBracket (p : ExpressionParser) : ExpressionParser :=
  if p.lastIsVarOrFnc then
    { p with
      argCount := 1 :: p.argCount
      operatorStack := (.openBracket, none) :: (.function "array" idArrayAccess 2, none) ::
        p.operatorStack
      lastIsVarOrFnc := false }
  else
    { p.incArgCount with
      argCount := 0 :: p.incArgCount.argCount
      operatorStack := (.openBracket, none) :: (.function "array" idArrayBuild 0, none) ::
        p.incArgCount.operatorStack
      lastIsVarOrFnc := false }

def opensParen : Token → Bool
  | .openParen => true
  | _ => false

def opensBracket : Token → Bool
  | .openBracket => true
  | _ => false

def step (p : ExpressionParser) : Token → Result ExpressionParser
  | .var v => .ok (p.operand (.var v) true)
  | .constant c => .ok (p.operand (.constant c) false)
  | .global g => .ok (p.operand (.global g) false)
  | .capture c => .ok (p.operand (.capture c) false)
  | .unaryOperator op =>
    .ok { p with
      operatorStack := (.unaryOperator op, none) :: p.operatorStack, lastIsVarOrFnc := false }
  | .openParen =>
    .ok { p with operatorStack := (.openParen, none) :: p.operatorStack, lastIsVarOrFnc := false }
  | .closeParen => p.close opensParen
  | .closeBracket => p.close opensBracket
  | .binaryOperator op => .ok (p.binary op)
  | .function name fnc numArgs => .ok (p.call (.function name fnc numArgs))
  | .regex regex => .ok (p.call (.regex regex))
  | .system setting => .ok (p.call (.system setting))
  | .openBracket => .ok p.openBracket
  | .comma =>
    let popped := popWhile (fun _ => true) p.output p.operatorStack
    .ok { p with output := popped.1, operatorStack := popped.2, lastIsVarOrFnc := false }

/-- The end of `parse`; the stack it then finds empty is. -/
def finish (p : ExpressionParser) : Result (List ExpressionItem) := drain p.output p.operatorStack

def feed (p : ExpressionParser) (tokens : List Token) : Result ExpressionParser :=
  tokens.foldlM step p

theorem feed_cons (p : ExpressionParser) (token : Token) (tokens : List Token) :
    p.feed (token :: tokens) = p.step token >>= fun p => p.feed tokens :=
  foldlM_cons

theorem feed_append (p : ExpressionParser) (tokens more : List Token) :
    p.feed (tokens ++ more) = p.feed tokens >>= fun p => p.feed more :=
  foldlM_append

theorem feed_induction {P : ExpressionParser → Prop}
    (hstep : ∀ p token p', P p → p.step token = .ok p' → P p') {tokens : List Token} (h : P p)
    (hfeed : p.feed tokens = .ok p') : P p' := by
  induction tokens generalizing p with
  | nil =>
    cases hfeed
    exact h
  | cons token tokens ih =>
    obtain ⟨p₁, hfirst, hrest⟩ := bind_eq_ok.mp hfeed
    exact ih (hstep p token p₁ h hfirst) hrest

end ExpressionParser

/-! ## The loop over the tokens -/

def parseLoop (ext : Externals) (tk : Tokenizer) (p : ExpressionParser) :
    Result (List ExpressionItem) :=
  match _h : tk.next ext with
  | .error e => .error e
  | .ok (none, _) => p.finish
  | .ok (some token, tk') => do
    let p ← p.step token
    parseLoop ext tk' p
termination_by tk.size
decreasing_by exact Tokenizer.next_shrinks _h

def parse (ext : Externals) (tokenMap : TokenMap) (expr : List UInt8) :
    Result (List ExpressionItem) :=
  parseLoop ext (.new expr tokenMap) .new

/-- The tokens `next` gives until it gives none. -/
inductive Lexes (ext : Externals) : Tokenizer → List Token → Prop where
  | done {tk tk' : Tokenizer} (h : tk.next ext = .ok (none, tk')) : Lexes ext tk []
  | token {tk tk' : Tokenizer} {token : Token} {tokens : List Token}
      (h : tk.next ext = .ok (some token, tk')) (rest : Lexes ext tk' tokens) :
      Lexes ext tk (token :: tokens)

theorem parseLoop_of_lexes {tk : Tokenizer} {tokens : List Token} (h : Lexes ext tk tokens)
    (p : ExpressionParser) : parseLoop ext tk p = p.feed tokens >>= ExpressionParser.finish := by
  induction h generalizing p with
  | done h =>
    rw [parseLoop]
    split <;> rename_i hnext <;> rw [h] at hnext <;> cases hnext
    rfl
  | token h rest ih =>
    rw [parseLoop]
    split <;> rename_i hnext <;> rw [h] at hnext <;> cases hnext
    rw [ExpressionParser.feed_cons]
    cases p.step _ with
    | error e => rfl
    | ok p' => exact ih p'

theorem lexes_of_parseLoop {tk : Tokenizer} (h : parseLoop ext tk p = .ok items) :
    ∃ tokens, Lexes ext tk tokens := by
  induction tk, p using parseLoop.induct ext with
  | case1 tk p e hnext =>
    rw [parseLoop] at h
    split at h <;> rename_i hnext' <;> rw [hnext] at hnext' <;> cases hnext'
    cases h
  | case2 tk p tk' hnext => exact ⟨[], .done hnext⟩
  | case3 tk p token tk' hnext ih =>
    rw [parseLoop] at h
    split at h <;> rename_i hnext' <;> rw [hnext] at hnext' <;> cases hnext'
    obtain ⟨p', -, h⟩ := bind_eq_ok.mp h
    obtain ⟨tokens, hlexes⟩ := ih p' h
    exact ⟨token :: tokens, .token hnext hlexes⟩

/-! ## Where jumps land -/

open ExpressionParser (shortCircuit)

/-- The operators on the stack with the jumps they are to patch. -/
def pending (stack : List Entry) : List (Token × Nat) :=
  stack.filterMap fun entry =>
    if entry.1.operatorItem.isSome then entry.2.map (entry.1, ·) else none

/-- A jump has its target right after an operator that it may settle. -/
def LandsAt (output : List ExpressionItem) (j : Nat) (val : Bool) (pos : Nat) : Prop :=
  ∃ n op, shortCircuit op = some val ∧ pos = n % 2 ^ 32 ∧ output[j + n]? = some (.binaryOperator op)

/-- Every jump has landed, or an operator on the stack will patch it. -/
structure Aims (output : List ExpressionItem) (pend : List (Token × Nat)) : Prop where
  jump : ∀ token j, (token, j) ∈ pend → ∃ op val pos, token = .binaryOperator op ∧
    shortCircuit op = some val ∧ output[j]? = some (.jmpIf val pos)
  lands : ∀ j val pos, output[j]? = some (.jmpIf val pos) →
    (∃ token, (token, j) ∈ pend) ∨ LandsAt output j val pos

def Landed (items : List ExpressionItem) : Prop :=
  ∀ j val pos, items[j]? = some (.jmpIf val pos) → LandsAt items j val pos

section Aims

variable {output : List ExpressionItem} {pend : List (Token × Nat)} {stack : List Entry}

theorem aims_nil : Aims [] [] where
  jump _ _ h := by cases h
  lands _ _ _ h := by cases h

theorem getElem?_append_some {output : List ExpressionItem} {j : Nat} (h : output[j]? = some item)
    (more : List ExpressionItem) : (output ++ more)[j]? = some item := by
  obtain ⟨hlt, -⟩ := List.getElem?_eq_some_iff.mp h
  rw [List.getElem?_append_left hlt, h]

theorem LandsAt.append {j pos : Nat} {val : Bool} (h : LandsAt output j val pos)
    (more : List ExpressionItem) : LandsAt (output ++ more) j val pos := by
  obtain ⟨n, op, hop, hpos, hget⟩ := h
  exact ⟨n, op, hop, hpos, getElem?_append_some hget more⟩

theorem Aims.append (h : Aims output pend) (hitem : ∀ val pos, item ≠ .jmpIf val pos) :
    Aims (output ++ [item]) pend where
  jump token j hmem := by
    obtain ⟨op, val, pos, htoken, hop, hget⟩ := h.jump token j hmem
    exact ⟨op, val, pos, htoken, hop, getElem?_append_some hget _⟩
  lands j val pos hget := by
    rw [List.getElem?_append] at hget
    split at hget
    · exact (h.lands j val pos hget).imp_right fun hlands => hlands.append _
    · rw [List.getElem?_singleton] at hget
      split at hget
      · exact absurd (Option.some.inj hget) (hitem val pos)
      · cases hget

theorem Aims.jmpIf (h : Aims output pend) {op : BinaryOperator} {val : Bool}
    (hop : shortCircuit op = some val) :
    Aims (output ++ [.jmpIf val 0]) ((.binaryOperator op, output.length) :: pend) where
  jump token j hmem := by
    obtain heq | hmem := mem_cons.mp hmem
    · cases heq
      exact ⟨op, val, 0, rfl, hop, List.getElem?_concat_length⟩
    · obtain ⟨op, val, pos, htoken, hop, hget⟩ := h.jump token j hmem
      exact ⟨op, val, pos, htoken, hop, getElem?_append_some hget _⟩
  lands j val' pos hget := by
    by_cases hj : j = output.length
    · exact .inl ⟨_, mem_cons.mpr (.inl (by rw [hj]))⟩
    · obtain ⟨hlt, -⟩ := List.getElem?_eq_some_iff.mp hget
      rw [length_append, length_singleton] at hlt
      rw [List.getElem?_append_left (by omega)] at hget
      obtain ⟨token, hmem⟩ | hlands := h.lands j val' pos hget
      · exact .inl ⟨token, mem_cons_of_mem _ hmem⟩
      · exact .inr (hlands.append _)

theorem Aims.patch {op : BinaryOperator} {j : Nat} (h : Aims output ((.binaryOperator op, j) :: pend)) :
    Aims (emit output (some j) (.binaryOperator op)) pend := by
  obtain ⟨op', val, pos, heq, hop, hget⟩ := h.jump _ j (mem_cons_self ..)
  cases heq
  obtain ⟨hlt, -⟩ := List.getElem?_eq_some_iff.mp hget
  have hset : updateJmpPos output (some j) =
      output.set j (.jmpIf val ((output.length - j) % 2 ^ 32)) := by
    rw [updateJmpPos, hget]
  rw [emit, hset]
  have hself : (output.set j (.jmpIf val ((output.length - j) % 2 ^ 32)))[j]? =
      some (.jmpIf val ((output.length - j) % 2 ^ 32)) := List.getElem?_set_self hlt
  have hne {i : Nat} (hi : i ≠ j) :
      (output.set j (.jmpIf val ((output.length - j) % 2 ^ 32)))[i]? = output[i]? :=
    List.getElem?_set_ne (Ne.symm hi)
  constructor
  · intro token i hmem
    obtain ⟨op', val', pos', htoken, hop', hget'⟩ := h.jump token i (mem_cons_of_mem _ hmem)
    by_cases hi : i = j
    · subst hi
      rw [hget] at hget'
      cases hget'
      exact ⟨op', val, _, htoken, hop', getElem?_append_some hself _⟩
    · exact ⟨op', val', pos', htoken, hop', getElem?_append_some ((hne hi).trans hget') _⟩
  · intro i val' pos' hi
    rw [List.getElem?_append] at hi
    split at hi
    · by_cases heq : i = j
      · subst heq
        rw [hself] at hi
        cases hi
        refine .inr ⟨output.length - i, op, hop, rfl, ?_⟩
        rw [Nat.add_sub_cancel' hlt.le, List.getElem?_append_right (by rw [length_set]),
          length_set, Nat.sub_self]
        rfl
      · rw [hne heq] at hi
        obtain ⟨token, hmem⟩ | ⟨n, op', hop', hpos', hn⟩ := h.lands i val' pos' hi
        · obtain hmem | hmem := mem_cons.mp hmem
          · cases hmem
            exact absurd rfl heq
          · exact .inl ⟨token, hmem⟩
        · have hnj : i + n ≠ j := by
            rintro rfl
            rw [hget] at hn
            cases hn
          exact .inr ⟨n, op', hop', hpos', getElem?_append_some ((hne hnj).trans hn) _⟩
    · rw [List.getElem?_singleton] at hi
      split at hi <;> cases hi

theorem Aims.emit {token : Token} {jmpPos : Option Nat}
    (h : Aims output (pending ((token, jmpPos) :: stack))) (hitem : token.operatorItem = some item) :
    Aims (emit output jmpPos item) (pending stack) := by
  have hitem' : ∀ val pos, item ≠ .jmpIf val pos := by
    rintro val pos rfl
    cases token <;> cases hitem
  have hpending : pending ((token, jmpPos) :: stack) =
      (jmpPos.map (token, ·)).toList ++ pending stack := by
    rw [pending, filterMap_cons, hitem]
    cases jmpPos <;> rfl
  rw [hpending] at h
  cases jmpPos with
  | none => exact h.append hitem'
  | some j =>
    obtain ⟨op, -, -, rfl, -⟩ := h.jump token j (mem_cons_self ..)
    cases hitem
    exact h.patch

theorem pending_cons {token : Token} (htoken : token.operatorItem = none) (jmpPos : Option Nat)
    (stack : List Entry) : pending ((token, jmpPos) :: stack) = pending stack := by
  rw [pending, filterMap_cons, htoken]
  rfl

theorem pending_none (token : Token) (stack : List Entry) :
    pending ((token, none) :: stack) = pending stack := by
  rw [pending, filterMap_cons]
  cases token.operatorItem <;> rfl

theorem pending_bumpArray (stack : List Entry) : pending (bumpArray stack) = pending stack := by
  unfold bumpArray
  split
  · split <;> rfl
  · rename_i top name fnc numArgs jmpPos stack
    have hcount (n : Nat) : pending (top :: (.function name fnc n, jmpPos) :: stack) =
        pending (top :: stack) := by
      rfl
    split
    · simp [hcount]
    · rfl
  · rfl

theorem Aims.popWhile {pops : Token → Bool} (h : Aims output (pending stack)) :
    Aims (popWhile pops output stack).1 (pending (popWhile pops output stack).2) := by
  induction stack generalizing output with
  | nil => exact h
  | cons entry stack ih =>
    rw [Bearmail.Expr.popWhile]
    split
    · rename_i hitem
      split
      · exact ih (h.emit hitem)
      · exact h
    · exact h

theorem Aims.closeGroup {opens : Token → Bool} {output' : List ExpressionItem}
    {stack' : List Entry} (hopens : ∀ token, opens token = true → token.operatorItem = none)
    (h : Aims output (pending stack))
    (hclose : closeGroup opens output stack = .ok (output', stack')) :
    Aims output' (pending stack') := by
  induction stack generalizing output with
  | nil => cases hclose
  | cons entry stack ih =>
    rw [Bearmail.Expr.closeGroup] at hclose
    split at hclose
    · rename_i hopen
      cases hclose
      rwa [pending_cons (hopens _ hopen)] at h
    · split at hclose
      · rename_i hitem
        exact ih (h.emit hitem) hclose
      · cases hclose

theorem Aims.landed (h : Aims output []) : Landed output := by
  intro j val pos hget
  obtain ⟨token, hmem⟩ | hlands := h.lands j val pos hget
  · cases hmem
  · exact hlands

theorem Aims.drain (h : Aims output (pending stack)) (hdrain : drain output stack = .ok items) :
    Landed items := by
  induction stack generalizing output with
  | nil =>
    cases hdrain
    exact h.landed
  | cons entry stack ih =>
    rw [Bearmail.Expr.drain] at hdrain
    split at hdrain
    · rename_i hitem
      exact ih (h.emit hitem) hdrain
    · cases hdrain

end Aims

theorem functionItem_ne_jmpIf (fnc numArgs : Nat) (val : Bool) (pos : Nat) :
    ExpressionParser.functionItem fnc numArgs ≠ .jmpIf val pos := by
  unfold ExpressionParser.functionItem
  split
  · nofun
  · split <;> nofun

namespace ExpressionParser

/-- The jumps of the output and the operators on the stack fit. -/
def Aiming (p : ExpressionParser) : Prop := Aims p.output (pending p.operatorStack)

@[simp] theorem incArgCount_output (p : ExpressionParser) : p.incArgCount.output = p.output := by
  unfold incArgCount
  split <;> rfl

theorem Aiming.incArgCount (h : p.Aiming) : p.incArgCount.Aiming := by
  unfold ExpressionParser.incArgCount
  split
  · exact h
  · unfold Aiming
    rw [pending_bumpArray]
    exact h

theorem Aiming.endGroup (h : p.Aiming) (hend : p.endGroup = .ok p') : p'.Aiming := by
  unfold ExpressionParser.endGroup at hend
  unfold Aiming at h
  split at hend
  · rename_i hstack
    rw [hstack] at h
    obtain ⟨⟨gotArgs, argCount⟩, -, hend⟩ := bind_eq_ok.mp hend
    dsimp only at hend
    split_ifs at hend <;> cases hend
    exact h.append fun val pos => functionItem_ne_jmpIf _ _ val pos
  · rename_i hstack
    rw [hstack] at h
    obtain ⟨⟨gotArgs, argCount⟩, -, hend⟩ := bind_eq_ok.mp hend
    dsimp only at hend
    split_ifs at hend <;> cases hend
    exact h.append nofun
  · rename_i hstack
    rw [hstack] at h
    obtain ⟨⟨gotArgs, argCount⟩, -, hend⟩ := bind_eq_ok.mp hend
    dsimp only at hend
    split_ifs at hend <;> cases hend
    exact h.append nofun
  · cases hend
    exact h

theorem Aiming.step {token : Token} (h : p.Aiming) (hstep : p.step token = .ok p') : p'.Aiming := by
  have hclose {opens : Token → Bool} (hopens : ∀ token, opens token = true → token.operatorItem = none)
      (hclose : p.close opens = .ok p') : p'.Aiming := by
    obtain ⟨⟨output, stack⟩, hgroup, hend⟩ := bind_eq_ok.mp hclose
    have hclosed : Aiming { p with output := output, operatorStack := stack } :=
      Aims.closeGroup hopens h hgroup
    exact hclosed.endGroup hend
  cases token with
  | closeParen | closeBracket =>
    exact hclose (fun token htoken => by cases token <;> first | rfl | cases htoken) hstep
  | binaryOperator op =>
    cases hstep
    have hpopped := @Aims.popWhile _ _ (popsBefore op) h
    unfold binary
    split
    · rename_i hop
      exact hpopped.jmpIf hop
    · unfold Aiming
      rwa [pending_none]
  | openBracket =>
    cases hstep
    unfold openBracket Aiming
    split
    · dsimp only
      exact h
    · dsimp only
      exact h.incArgCount
  | comma =>
    cases hstep
    exact Aims.popWhile h
  | var | constant | global | capture =>
    cases hstep
    have hinc := h.incArgCount
    rw [Aiming, incArgCount_output] at hinc
    exact hinc.append nofun
  | unaryOperator | openParen =>
    cases hstep
    unfold Aiming
    rwa [pending_none]
  | function | regex | system =>
    cases hstep
    exact h.incArgCount

end ExpressionParser

/-- Every jump of an accepted program lands right after an operator that it settles. -/
theorem landed_of_parse {tokenMap : TokenMap} {expr : List UInt8}
    (h : parse ext tokenMap expr = .ok items) : Landed items := by
  obtain ⟨tokens, hlexes⟩ := lexes_of_parseLoop h
  rw [parse, parseLoop_of_lexes hlexes] at h
  obtain ⟨p, hfeed, hfinish⟩ := bind_eq_ok.mp h
  have haims := ExpressionParser.feed_induction (P := ExpressionParser.Aiming)
    (fun _ _ _ h hstep => h.step hstep) (p := .new) aims_nil hfeed
  exact Aims.drain haims hfinish

end Bearmail.Expr
