import Bearmail.Expr.Ast

/-!
# The parser reads trees

The shunting-yard emits an operand at once and keeps an operator until one that
binds no tighter, a closing token or the end of the text pops it. What it still
keeps after a tree is *pending*: flushing it completes the program of the tree.
-/

namespace Bearmail.Expr

open ExpressionParser
open Imap (Result fail)
open List

open Fallible (bind_eq_ok)

/-! ## Pending operators -/

def flush (output : List ExpressionItem) : List Entry → List ExpressionItem
  | [] => output
  | (token, jmpPos) :: pending =>
    match token.operatorItem with
    | some item => flush (emit output jmpPos item) pending
    | none => flush output pending

theorem flush_append (output : List ExpressionItem) (pending more : List Entry) :
    flush output (pending ++ more) = flush (flush output pending) more := by
  induction pending generalizing output with
  | nil => rfl
  | cons entry pending ih =>
    rw [cons_append, flush, flush]
    split <;> exact ih _

/-- An operator that binds at least this tightly. -/
def Pends (k : Nat) : Entry → Prop
  | (.binaryOperator op, _) => k ≤ op.precedence
  | (.unaryOperator _, _) => k ≤ 8
  | _ => False

variable {k' : Nat} {pops opens : Token → Bool} {pending : List Entry} {op : BinaryOperator} {e : Ast}

variable {k : Nat}

theorem Pends.mono {entry : Entry} (h : Pends k' entry) (hle : k ≤ k') :
    Pends k entry := by
  unfold Pends at h ⊢
  split at h
  · exact hle.trans h
  · exact hle.trans h
  · exact h

variable {jmpPos : Option Nat} {token : Token}

theorem Pends.operatorItem (h : Pends k (token, jmpPos)) : ∃ item, token.operatorItem = some item := by
  cases token
  case binaryOperator | unaryOperator => exact ⟨_, rfl⟩
  all_goals cases h

attribute [local simp] popWhile closeGroup flush

theorem popWhile_pending (h : ∀ entry ∈ pending, Pends k entry)
    (hpops : ∀ entry, Pends k entry → pops entry.1 = true) (output : List ExpressionItem)
    (stack : List Entry) :
    popWhile pops output (pending ++ stack) = popWhile pops (flush output pending) stack := by
  induction pending generalizing output with
  | nil => rfl
  | cons entry pending ih =>
    obtain ⟨hentry, hrest⟩ := forall_mem_cons.mp h
    obtain ⟨item, hitem⟩ := hentry.operatorItem
    rw [cons_append, popWhile, flush]
    simp only [hitem, hpops entry hentry, if_true]
    exact ih hrest _

theorem closeGroup_pending (h : ∀ entry ∈ pending, Pends k entry)
    (hopens : ∀ entry, Pends k entry → opens entry.1 = false) (output : List ExpressionItem)
    (stack : List Entry) :
    closeGroup opens output (pending ++ stack) = closeGroup opens (flush output pending) stack := by
  induction pending generalizing output with
  | nil => rfl
  | cons entry pending ih =>
    obtain ⟨hentry, hrest⟩ := forall_mem_cons.mp h
    obtain ⟨item, hitem⟩ := hentry.operatorItem
    rw [cons_append, closeGroup, flush]
    simp only [hitem, hopens entry hentry, Bool.false_eq_true, if_false]
    exact ih hrest _

theorem drain_pending (h : ∀ entry ∈ pending, Pends k entry)
    (output : List ExpressionItem) : drain output pending = .ok (flush output pending) := by
  induction pending generalizing output with
  | nil => rfl
  | cons entry pending ih =>
    obtain ⟨hentry, hrest⟩ := forall_mem_cons.mp h
    obtain ⟨item, hitem⟩ := hentry.operatorItem
    rw [drain, flush]
    simp only [hitem]
    exact ih hrest _

/-- Up to operators that bind at least this tightly, the parser has this output and this stack. -/
def Settles (k : Nat) (q : ExpressionParser) (output : List ExpressionItem)
    (stack : List Entry) : Prop :=
  ∃ pending, q.operatorStack = pending ++ stack ∧ flush q.output pending = output ∧
    ∀ entry ∈ pending, Pends k entry

section Settled

variable {k : Nat} {q : ExpressionParser} {output : List ExpressionItem} {stack : List Entry}

theorem settles_self (k : Nat) (q : ExpressionParser) : Settles k q q.output q.operatorStack :=
  ⟨[], rfl, rfl, forall_mem_nil _⟩

theorem Settles.mono (h : Settles k' q output stack) (hle : k ≤ k') : Settles k q output stack := by
  obtain ⟨pending, hstack, hflush, hpends⟩ := h
  exact ⟨pending, hstack, hflush, fun entry hentry => (hpends entry hentry).mono hle⟩

theorem Settles.operand (h : Settles 9 q output stack) :
    q.output = output ∧ q.operatorStack = stack := by
  obtain ⟨pending, hstack, hflush, hpends⟩ := h
  cases pending with
  | nil => exact ⟨hflush, hstack⟩
  | cons entry pending =>
    have hentry := hpends entry mem_cons_self
    unfold Pends at hentry
    split at hentry
    · rename_i op _
      exact absurd (hentry.trans op.precedence_le) (by decide)
    · exact absurd hentry (by decide)
    · exact hentry.elim

theorem Settles.push {token : Token} {jmpPos : Option Nat} {item : ExpressionItem}
    (h : Settles k' q output ((token, jmpPos) :: stack)) (hle : k ≤ k')
    (hitem : token.operatorItem = some item) (hentry : Pends k (token, jmpPos)) :
    Settles k q (emit output jmpPos item) stack := by
  obtain ⟨pending, hstack, hflush, hpends⟩ := h
  refine ⟨pending ++ [(token, jmpPos)], by rw [hstack, append_assoc]; rfl, ?_, ?_⟩
  · rw [flush_append, hflush, flush]
    simp only [hitem]
    rfl
  · exact forall_mem_append.mpr ⟨fun entry hmem => (hpends entry hmem).mono hle,
      forall_mem_singleton.mpr hentry⟩

theorem Settles.popWhile (h : Settles k q output stack)
    (hpops : ∀ entry, Pends k entry → pops entry.1 = true) :
    popWhile pops q.output q.operatorStack = popWhile pops output stack := by
  obtain ⟨pending, hstack, hflush, hpends⟩ := h
  rw [hstack, popWhile_pending hpends hpops, hflush]

theorem Settles.closeGroup {token : Token} {jmpPos : Option Nat}
    (h : Settles k q output ((token, jmpPos) :: stack)) (htoken : opens token = true)
    (hopens : ∀ entry, Pends k entry → opens entry.1 = false) :
    closeGroup opens q.output q.operatorStack = .ok (output, stack) := by
  obtain ⟨pending, hstack, hflush, hpends⟩ := h
  simp [hstack, closeGroup_pending hpends hopens, hflush, Bearmail.Expr.closeGroup, htoken]

theorem Settles.finish (h : Settles k q output []) : q.finish = .ok output := by
  obtain ⟨pending, hstack, hflush, hpends⟩ := h
  simp [ExpressionParser.finish, hstack, drain_pending hpends, hflush]

theorem not_opensParen_of_pends (entry : Entry) (h : Pends k entry) : opensParen entry.1 = false := by
  unfold Pends at h
  split at h
  · rfl
  · rfl
  · exact h.elim

theorem not_opensBracket_of_pends (entry : Entry) (h : Pends k entry) :
    opensBracket entry.1 = false := by
  unfold Pends at h
  split at h
  · rfl
  · rfl
  · exact h.elim

theorem popsBefore_of_pends (hle : op.precedence ≤ k) (entry : Entry) (h : Pends k entry) :
    popsBefore op entry.1 = true := by
  unfold Pends at h
  split at h
  · exact decide_eq_true (hle.trans h)
  · rfl
  · exact h.elim

end Settled

/-! ## Stacks under a tree -/

/-- A tree that holds together this tightly can start on top of this stack. -/
def Fits (k : Nat) : List Entry → Prop
  | [] => True
  | (.openParen, _) :: _ | (.openBracket, _) :: _ => True
  | (.binaryOperator op, _) :: _ => op.precedence < k
  | (.unaryOperator _, _) :: _ => 8 ≤ k
  | _ => False

section Fitted

variable {k : Nat} {stack : List Entry}

theorem Fits.mono (h : Fits k stack) (hle : k ≤ k') : Fits k' stack := by
  unfold Fits at h ⊢
  split at h
  · trivial
  · trivial
  · trivial
  · exact h.trans_le hle
  · exact h.trans hle
  · exact h

theorem bumpArray_cons (h : Fits k stack) (token : Token) (jmpPos : Option Nat)
    (htoken : ∀ name fnc numArgs, token ≠ .function name fnc numArgs) :
    bumpArray ((token, jmpPos) :: stack) = (token, jmpPos) :: stack := by
  unfold bumpArray
  split
  · rename_i heq
    cases heq
    exact absurd rfl (htoken _ _ _)
  · rename_i heq
    cases heq
    cases h
  · rfl

theorem fits_cons {entry : Entry} {stack' : List Entry} (h : Fits k (entry :: stack)) :
    Fits k (entry :: stack') := by
  obtain ⟨token, jmpPos⟩ := entry
  cases token <;> exact h

theorem fits_bumpArray (h : Fits k stack) : Fits k (bumpArray stack) := by
  unfold bumpArray
  split
  · cases h
  · split <;> exact fits_cons h
  · exact h

theorem endGroup_fits {output : List ExpressionItem} {argCount : List Int} {isVar : Bool}
    (h : Fits k stack) : endGroup ⟨output, stack, argCount, isVar⟩ =
      .ok ⟨output, stack, argCount, true⟩ := by
  unfold endGroup
  split
  · rename_i heq
    cases heq
    cases h
  · rename_i heq
    cases heq
    cases h
  · rename_i heq
    cases heq
    cases h
  · rfl

theorem popWhile_fits (h : Fits op.precedence stack) (output : List ExpressionItem) :
    popWhile (popsBefore op) output stack = (output, stack) := by
  unfold Fits at h
  split at h
  · rfl
  · rfl
  · rfl
  · simp [popWhile, Token.operatorItem, popsBefore, decide_eq_false (Nat.not_le_of_lt h)]
  · exact absurd (h.trans op.precedence_le) (by decide)
  · exact h.elim

end Fitted

/-! ## Reading a tree -/

theorem asI32_of_lt {n : Nat} (h : n < 2 ^ 31) : asI32 n = n := if_pos h

def Nonneg (counts : List Int) : Prop := ∀ count ∈ counts, 0 ≤ count

variable {counts : List Int}

theorem Nonneg.inc (h : Nonneg counts) : Nonneg (counts.modifyHead satInc) := by
  cases counts with
  | nil => exact h
  | cons count counts =>
    obtain ⟨hcount, hrest⟩ := forall_mem_cons.mp h
    refine forall_mem_cons.mpr ⟨?_, hrest⟩
    unfold satInc
    omega

theorem Nonneg.dec_inc (h : Nonneg counts) : Nonneg ((counts.modifyHead satInc).modifyHead satDec) := by
  cases counts with
  | nil => exact h
  | cons count counts =>
    obtain ⟨hcount, hrest⟩ := forall_mem_cons.mp h
    refine forall_mem_cons.mpr ⟨?_, hrest⟩
    unfold satInc satDec
    omega

theorem inc_dec_inc (h : Nonneg counts) :
    ((counts.modifyHead satInc).modifyHead satDec).modifyHead satInc =
      counts.modifyHead satInc := by
  cases counts with
  | nil => rfl
  | cons count counts =>
    have hcount : 0 ≤ count := h count mem_cons_self
    have hsame : satInc (satDec (satInc count)) = satInc count := by
      unfold satInc satDec
      omega
    exact congrArg (· :: counts) hsame

namespace ExpressionParser

variable (p : ExpressionParser)

theorem incArgCount_argCount : p.incArgCount.argCount = p.argCount.modifyHead satInc := by
  unfold incArgCount
  cases hcounts : p.argCount with
  | nil => exact hcounts
  | cons count counts => rfl

theorem decArgCount_argCount : p.decArgCount.argCount = p.argCount.modifyHead satDec := by
  unfold decArgCount
  cases hcounts : p.argCount with
  | nil => exact hcounts
  | cons count counts => rfl

/-- The stack under a tree, whose first operand an array literal may count. -/
def bumped (leads : Bool) : List Entry :=
  if leads then p.incArgCount.operatorStack else p.operatorStack

theorem bumped_cases (leads : Bool) :
    p.bumped leads = p.operatorStack ∨ p.bumped leads = bumpArray p.operatorStack := by
  unfold bumped incArgCount
  split
  · split
    · exact .inl rfl
    · exact .inr rfl
  · exact .inl rfl

theorem fits_bumped {k : Nat} (h : Fits k p.operatorStack) (leads : Bool) :
    Fits k (p.bumped leads) := by
  obtain heq | heq := p.bumped_cases leads
  · exact heq ▸ h
  · exact heq ▸ fits_bumpArray h

theorem bumped_of_fixed (h : bumpArray p.operatorStack = p.operatorStack) (leads : Bool) :
    p.bumped leads = p.operatorStack := by
  obtain heq | heq := p.bumped_cases leads
  · exact heq
  · exact heq.trans h

theorem bumped_of_counting {count : Int} {counts : List Int} (h : p.argCount = count :: counts)
    (leads : Bool) :
    p.bumped leads = if leads then bumpArray p.operatorStack else p.operatorStack := by
  unfold bumped incArgCount
  rw [h]

end ExpressionParser

structure Reads (e : Ast) (p q : ExpressionParser) : Prop where
  settles : Settles e.level q (p.output ++ e.built) (p.bumped e.leads)
  argCount : q.argCount = p.argCount.modifyHead satInc
  isVar : q.lastIsVarOrFnc = e.endsVar

structure Ready (k : Nat) (p : ExpressionParser) : Prop where
  fits : Fits k p.operatorStack
  counts : Nonneg p.argCount
  notVar : p.lastIsVarOrFnc = false

/-- From wherever it can start, the tree is read. -/
def Readable (e : Ast) : Prop :=
  ∀ p, Ready e.level p → ∃ q, p.feed e.tokens = .ok q ∧ Reads e p q

/-! ### Groups -/

def isOpener : Token → Bool
  | .openParen | .openBracket => true
  | _ => false

def bumps (stack : List Entry) (es : List Ast) : List Entry :=
  es.foldl (fun stack e => if e.leads then bumpArray stack else stack) stack

theorem bumps_of_fixed {stack : List Entry} (h : bumpArray stack = stack) (es : List Ast) :
    bumps stack es = stack := by
  induction es with
  | nil => rfl
  | cons e es ih =>
    rw [bumps, foldl_cons, h, ite_self]
    exact ih

theorem bumpArray_opener (h : isOpener token = true) (stack : List Entry) :
    ∃ stack', bumpArray ((token, jmpPos) :: stack) = (token, jmpPos) :: stack' := by
  unfold bumpArray
  split
  · rename_i heq
    cases heq
    cases h
  · rename_i heq
    cases heq
    split <;> exact ⟨_, rfl⟩
  · exact ⟨_, rfl⟩

theorem fits_opener (h : isOpener token = true) (k : Nat)
    (stack : List Entry) : Fits k ((token, jmpPos) :: stack) := by
  unfold isOpener at h
  split at h
  · trivial
  · trivial
  · cases h

theorem popWhile_opener (h : isOpener token = true) (output : List ExpressionItem) (stack : List Entry) :
    popWhile pops output ((token, jmpPos) :: stack) = (output, (token, jmpPos) :: stack) := by
  unfold isOpener at h
  split at h
  · rfl
  · rfl
  · cases h

structure ReadsGroup (q : ExpressionParser) (output : List ExpressionItem) (stack : List Entry)
    (counts : List Int) : Prop where
  settles : Settles 0 q output stack
  argCount : q.argCount = counts
  counts : Nonneg counts

theorem bumps_opener (h : isOpener token = true) (stack : List Entry) (e : Ast) :
    ∃ stack', bumps ((token, jmpPos) :: stack) [e] = (token, jmpPos) :: stack' := by
  rw [bumps, foldl_cons]
  split
  · exact bumpArray_opener h stack
  · exact ⟨stack, rfl⟩

section Group

variable {token : Token} {jmpPos : Option Nat} {stack : List Entry} {count : Int} {counts : List Int}

theorem feed_one (h : Readable e) {p : ExpressionParser} (htoken : isOpener token = true)
    (hstack : p.operatorStack = (token, jmpPos) :: stack) (hcount : p.argCount = count :: counts)
    (hcounts : Nonneg p.argCount) (hvar : p.lastIsVarOrFnc = false) :
    ∃ q, p.feed e.tokens = .ok q ∧
      ReadsGroup q (p.output ++ e.built) (bumps p.operatorStack [e]) (satInc count :: counts) := by
  obtain ⟨q, hfeed, hreads⟩ := h p ⟨hstack ▸ fits_opener htoken _ _, hcounts, hvar⟩
  have hsettles := hreads.settles.mono (Nat.zero_le _)
  rw [p.bumped_of_counting hcount] at hsettles
  have hargCount : q.argCount = satInc count :: counts := by rw [hreads.argCount, hcount]; rfl
  have hnonneg := hcounts.inc
  rw [hcount] at hnonneg
  exact ⟨q, hfeed, hsettles, hargCount, hnonneg⟩

theorem step_comma {q : ExpressionParser} {output : List ExpressionItem} (htoken : isOpener token = true)
    (hq : ReadsGroup q output ((token, jmpPos) :: stack) (count :: counts)) :
    q.step .comma = .ok ⟨output, (token, jmpPos) :: stack, count :: counts, false⟩ := by
  have hpop : popWhile (fun _ => true) q.output q.operatorStack =
      (output, (token, jmpPos) :: stack) :=
    (hq.settles.popWhile fun _ _ => rfl).trans (popWhile_opener htoken _ _)
  rw [ExpressionParser.step, hpop, hq.argCount]

theorem feed_more {es : List Ast} (h : ∀ e ∈ es, Readable e) {q : ExpressionParser}
    {output : List ExpressionItem} (htoken : isOpener token = true)
    (hq : ReadsGroup q output ((token, jmpPos) :: stack) (count :: counts)) :
    ∃ q', q.feed (Ast.moreTokens es) = .ok q' ∧
      ReadsGroup q' (output ++ Ast.builtAll es) (bumps ((token, jmpPos) :: stack) es)
        (satInc^[es.length] count :: counts) := by
  induction es generalizing q output stack count with
  | nil => exact ⟨q, rfl, by rwa [Ast.builtAll_nil, List.append_nil]⟩
  | cons e es ih =>
    obtain ⟨he, hes⟩ := forall_mem_cons.mp h
    obtain ⟨q₁, hfirst, hq₁⟩ := feed_one he
      (p := ⟨output, (token, jmpPos) :: stack, count :: counts, false⟩) htoken rfl rfl hq.counts rfl
    obtain ⟨stack', hstack'⟩ := bumps_opener htoken stack e
    rw [hstack'] at hq₁
    obtain ⟨q', hrest, hq'⟩ := ih hes hq₁
    refine ⟨q', ?_, ?_⟩
    · rw [Ast.moreTokens, feed_cons, step_comma htoken hq]
      exact (feed_append _ _ _).trans (bind_eq_ok.mpr ⟨q₁, hfirst, hrest⟩)
    · rw [Ast.builtAll_cons, ← append_assoc]
      rwa [← hstack'] at hq'

theorem feed_args {es : List Ast} (h : ∀ e ∈ es, Readable e) {p : ExpressionParser}
    (htoken : isOpener token = true) (hstack : p.operatorStack = (token, jmpPos) :: stack)
    (hcount : p.argCount = count :: counts) (hcounts : Nonneg p.argCount)
    (hvar : p.lastIsVarOrFnc = false) :
    ∃ q, p.feed (Ast.argTokens es) = .ok q ∧
      ReadsGroup q (p.output ++ Ast.builtAll es) (bumps ((token, jmpPos) :: stack) es)
        (satInc^[es.length] count :: counts) := by
  cases es with
  | nil =>
    refine ⟨p, rfl, ?_, hcount, hcount ▸ hcounts⟩
    rw [Ast.builtAll_nil, List.append_nil]
    exact hstack ▸ settles_self 0 p
  | cons e es =>
    obtain ⟨he, hes⟩ := forall_mem_cons.mp h
    obtain ⟨q₁, hfirst, hq₁⟩ := feed_one he htoken hstack hcount hcounts hvar
    obtain ⟨stack', hstack'⟩ := bumps_opener htoken stack e
    rw [hstack, hstack'] at hq₁
    obtain ⟨q', hrest, hq'⟩ := feed_more hes htoken hq₁
    refine ⟨q', ?_, ?_⟩
    · rw [Ast.argTokens, feed_append]
      exact bind_eq_ok.mpr ⟨q₁, hfirst, hrest⟩
    · rw [Ast.builtAll_cons, ← append_assoc]
      rwa [← hstack'] at hq'

end Group

/-! ### The trees one by one -/

theorem readable_atom (a : Atom) : Readable (.atom a) := by
  intro p _
  have hstep : p.step a.token = .ok (p.operand a.item a.isVar) := by
    cases a <;> rfl
  refine ⟨p.operand a.item a.isVar, by rw [Ast.tokens, feed_cons, hstep]; rfl, ?_,
    p.incArgCount_argCount, rfl⟩
  exact settles_self _ (p.operand a.item a.isVar)

theorem readable_system (setting : SystemVariable) : Readable (.system setting) := by
  intro p _
  refine ⟨⟨p.incArgCount.output ++ [ExpressionItem.system setting], p.incArgCount.operatorStack,
    p.incArgCount.argCount, true⟩, rfl, ?_, p.incArgCount_argCount, rfl⟩
  rw [incArgCount_output]
  exact settles_self _ ⟨p.output ++ [ExpressionItem.system setting], _, _, _⟩

theorem readable_unary (op : UnaryOperator) (hlevel : 8 ≤ e.level) (h : Readable e) :
    Readable (.unary op e) := by
  intro p hready
  obtain ⟨q, hfeed, hreads⟩ := h { p with
    operatorStack := (.unaryOperator op, none) :: p.operatorStack, lastIsVarOrFnc := false }
    ⟨hlevel, hready.counts, rfl⟩
  refine ⟨q, ?_, ?_, hreads.argCount, hreads.isVar⟩
  · rw [Ast.tokens]
    exact hfeed
  · have hsettles := hreads.settles
    rw [bumped_of_fixed _ (bumpArray_cons hready.fits (.unaryOperator op) none fun _ _ _ => nofun)]
      at hsettles
    have hpush := hsettles.push (k := 8) hlevel rfl le_rfl
    rwa [emit, updateJmpPos, append_assoc] at hpush

theorem updateJmpPos_append (output more : List ExpressionItem) (val : Bool) (pos : Nat) :
    updateJmpPos (output ++ .jmpIf val pos :: more) (some output.length) =
      output ++ .jmpIf val ((more.length + 1) % 2 ^ 32) :: more := by
  have hget : (output ++ .jmpIf val pos :: more)[output.length]? = some (.jmpIf val pos) := by
    rw [List.getElem?_append_right le_rfl, Nat.sub_self]
    rfl
  rw [updateJmpPos]
  simp [set_append_right _ _ le_rfl, Nat.sub_self, set_cons_zero, length_cons, Nat.add_sub_cancel_left]

theorem emit_binary (op : BinaryOperator) (output left right : List ExpressionItem) :
    emit (output ++ left ++ Ast.jump op 0 ++ right)
        ((shortCircuit op).map fun _ => (output ++ left).length) (.binaryOperator op) =
      output ++ (left ++ (Ast.jump op ((right.length + 1) % 2 ^ 32) ++
        (right ++ [ExpressionItem.binaryOperator op]))) := by
  unfold Ast.jump
  cases shortCircuit op with
  | none =>
    simp [emit, updateJmpPos]
  | some val =>
    have hshape : output ++ left ++ [ExpressionItem.jmpIf val 0] ++ right =
        (output ++ left) ++ .jmpIf val 0 :: right := by
      rw [append_assoc (output ++ left)]
      rfl
    rw [emit, Option.map_some, hshape, updateJmpPos_append]
    simp

/-- The operator pops its left operand's and waits on the stack for the right one's. -/
theorem step_binary (hle : op.precedence ≤ k) {q : ExpressionParser}
    {output : List ExpressionItem} {stack : List Entry} (hsettles : Settles k q output stack)
    (hfits : Fits op.precedence stack) :
    q.step (.binaryOperator op) = .ok ⟨output ++ Ast.jump op 0,
      (.binaryOperator op, (shortCircuit op).map fun _ => output.length) :: stack,
      q.argCount.modifyHead satDec, false⟩ := by
  have hpop : popWhile (popsBefore op) q.output q.operatorStack = (output, stack) :=
    (hsettles.popWhile (popsBefore_of_pends hle)).trans (popWhile_fits hfits _)
  rw [ExpressionParser.step, ExpressionParser.binary, hpop, Ast.jump, ← decArgCount_argCount]
  cases shortCircuit op with
  | none => rw [List.append_nil]; rfl
  | some val => rfl

theorem readable_binary (op : BinaryOperator) {l r : Ast} (hl : Readable l) (hr : Readable r)
    (hleft : op.precedence ≤ l.level) (hright : op.precedence < r.level) :
    Readable (.binary op l r) := by
  intro p hready
  obtain ⟨q₁, hfeed₁, hreads₁⟩ := hl p ⟨hready.fits.mono hleft, hready.counts, hready.notVar⟩
  have hbumped : Fits op.precedence (p.bumped l.leads) := p.fits_bumped hready.fits l.leads
  have hstep := step_binary hleft hreads₁.settles hbumped
  rw [hreads₁.argCount] at hstep
  obtain ⟨p₂, hp₂⟩ : ∃ p₂ : ExpressionParser, p₂ = ⟨p.output ++ l.built ++ Ast.jump op 0,
      (.binaryOperator op, (shortCircuit op).map fun _ => (p.output ++ l.built).length) ::
        p.bumped l.leads, (p.argCount.modifyHead satInc).modifyHead satDec, false⟩ := ⟨_, rfl⟩
  rw [← hp₂] at hstep
  have hready₂ : Ready r.level p₂ := by
    rw [hp₂]
    exact ⟨hright, hready.counts.dec_inc, rfl⟩
  obtain ⟨q, hfeed₂, hreads₂⟩ := hr p₂ hready₂
  refine ⟨q, ?_, ?_, ?_, hreads₂.isVar⟩
  · rw [Ast.tokens, feed_append, hfeed₁]
    show q₁.feed (.binaryOperator op :: r.tokens) = .ok q
    rw [feed_cons, hstep]
    exact hfeed₂
  · have hfixed : p₂.bumped r.leads = p₂.operatorStack := by
      refine p₂.bumped_of_fixed ?_ _
      rw [hp₂]
      exact bumpArray_cons hbumped (.binaryOperator op) _ fun _ _ _ => nofun
    have hsettles := hreads₂.settles
    rw [hfixed, hp₂] at hsettles
    have hpush := hsettles.push (k := op.precedence) hright.le rfl le_rfl
    rwa [emit_binary] at hpush
  · rw [hreads₂.argCount, hp₂]
    exact inc_dec_inc hready.counts

theorem readable_paren (h : Readable e) : Readable (.paren e) := by
  intro p hready
  obtain ⟨q, hfeed, hreads⟩ := h { p with
    operatorStack := (.openParen, none) :: p.operatorStack, lastIsVarOrFnc := false }
    ⟨trivial, hready.counts, rfl⟩
  have hsettles := hreads.settles
  rw [bumped_of_fixed _ (bumpArray_cons hready.fits .openParen none fun _ _ _ => nofun)] at hsettles
  refine ⟨⟨p.output ++ e.built, p.operatorStack, q.argCount, true⟩, ?_, settles_self _ _,
    hreads.argCount, rfl⟩
  refine (feed_append _ _ _).trans (bind_eq_ok.mpr ⟨q, hfeed, ?_⟩)
  rw [feed_cons, ExpressionParser.step, ExpressionParser.close,
    hsettles.closeGroup rfl not_opensParen_of_pends]
  exact bind_eq_ok.mpr ⟨_, endGroup_fits hready.fits, rfl⟩

theorem Nonneg.zero_inc (h : Nonneg counts) :
    Nonneg (0 :: counts.modifyHead satInc) :=
  forall_mem_cons.mpr ⟨Int.le_refl 0, h.inc⟩

theorem feed_closed {token closing : Token} (hopens : opens token = true)
    (hnot : ∀ entry, Pends 0 entry → opens entry.1 = false)
    (hclosing : ∀ q, step q closing = q.close opens) {p q : ExpressionParser} {tokens : List Token}
    {output : List ExpressionItem} {stack : List Entry} {counts : List Int}
    (hfeed : p.feed tokens = .ok q) (h : ReadsGroup q output ((token, none) :: stack) counts) :
    p.feed (tokens ++ [closing]) = endGroup ⟨output, stack, counts, q.lastIsVarOrFnc⟩ := by
  rw [feed_append, hfeed]
  show q.feed [closing] = _
  rw [feed_cons, hclosing, ExpressionParser.close, h.settles.closeGroup hopens hnot, ← h.argCount]
  exact bind_pure _

/-- The state in which the arguments of a call are read. -/
def ExpressionParser.called (p : ExpressionParser) (token : Token) : ExpressionParser :=
  ⟨p.output, (.openParen, none) :: (token, none) :: p.incArgCount.operatorStack,
    0 :: p.argCount.modifyHead satInc, false⟩

theorem feed_call {p : ExpressionParser} (h : p.step token = .ok (p.call token)) (tokens : List Token) :
    p.feed (token :: .openParen :: tokens) = (p.called token).feed tokens := by
  rw [feed_cons, h, called, ← incArgCount_argCount, ← incArgCount_output]
  rfl

theorem endGroup_function {output : List ExpressionItem} {name : String} {fnc numArgs : Nat}
    {stack : List Entry} {isVar : Bool} :
    endGroup ⟨output, (.function name fnc numArgs, none) :: stack, asI32 numArgs :: counts, isVar⟩ =
      .ok ⟨output ++ [functionItem fnc numArgs], stack, counts, true⟩ := by
  exact if_pos rfl

theorem readable_regex (re : Regex) (h : Readable e) : Readable (.regex re e) := by
  intro p hready
  obtain ⟨q, hfeed, hq⟩ := feed_one h (p := p.called (.regex re)) rfl rfl rfl hready.counts.zero_inc rfl
  rw [bumps_of_fixed rfl] at hq
  refine ⟨⟨p.output ++ (e.built ++ [ExpressionItem.regex re]), p.incArgCount.operatorStack,
    p.argCount.modifyHead satInc, true⟩, ?_, settles_self _ _, rfl, rfl⟩
  rw [Ast.tokens, feed_call rfl, feed_closed rfl not_opensParen_of_pends (fun _ => rfl) hfeed hq,
    ← append_assoc]
  rfl

theorem iterate_satInc {n k : Nat} (h : n + k < 2 ^ 31) : satInc^[n] (k : Int) = (k + n : Nat) := by
  induction n generalizing k with
  | zero =>
    rfl
  | succ n ih =>
    rw [Function.iterate_succ_apply]
    have hone : satInc (k : Int) = (k + 1 : Nat) := by
      unfold satInc
      omega
    rw [hone, ih (by omega), Nat.add_assoc, Nat.add_comm 1 n]

theorem knownFunctions_bound :
    ∀ known ∈ Ast.knownFunctions, known.2.1 < idArrayBuild ∧ known.2.2 < 2 ^ 31 := by
  decide

theorem readable_call {name : String} {fnc numArgs : Nat} {args : List Ast}
    (hknown : (name, fnc, numArgs) ∈ Ast.knownFunctions) (hlength : args.length = numArgs)
    (h : ∀ e ∈ args, Readable e) : Readable (.call name fnc numArgs args) := by
  intro p hready
  obtain ⟨hfnc, hnumArgs⟩ : fnc < idArrayBuild ∧ numArgs < 2 ^ 31 := knownFunctions_bound _ hknown
  obtain ⟨q, hfeed, hq⟩ := feed_args h (p := p.called (.function name fnc numArgs)) rfl rfl rfl
    hready.counts.zero_inc rfl
  have hfixed : bumpArray ((.openParen, none) :: (.function name fnc numArgs, none) ::
      p.incArgCount.operatorStack) = (.openParen, none) :: (.function name fnc numArgs, none) ::
      p.incArgCount.operatorStack := if_neg hfnc.ne
  have hcount : satInc^[args.length] 0 = asI32 numArgs := by
    rw [asI32_of_lt hnumArgs, hlength]
    exact (iterate_satInc (k := 0) hnumArgs).trans (by rw [Nat.zero_add])
  have hitem : functionItem fnc numArgs = .function fnc numArgs := by
    rw [functionItem, if_neg (hfnc.trans (by decide)).ne, if_neg hfnc.ne]
  rw [bumps_of_fixed hfixed, hcount] at hq
  refine ⟨⟨p.output ++ (Ast.builtAll args ++ [ExpressionItem.function fnc numArgs]),
    p.incArgCount.operatorStack, p.argCount.modifyHead satInc, true⟩, ?_, settles_self _ _, rfl, rfl⟩
  rw [Ast.tokens, feed_call rfl, feed_closed rfl not_opensParen_of_pends (fun _ => rfl) hfeed hq,
    endGroup_function, hitem, ← append_assoc]
  rfl

/-- The state in which an index or the items of an array literal are read. -/
def ExpressionParser.bracketed (output : List ExpressionItem) (fnc numArgs : Nat)
    (stack : List Entry) (counts : List Int) : ExpressionParser :=
  ⟨output, (.openBracket, none) :: (.function "array" fnc numArgs, none) :: stack, counts, false⟩

theorem step_index {base : Ast} {p q : ExpressionParser} (h : Reads base p q)
    (hlevel : base.level = 9) (hvar : base.endsVar = true) :
    q.step .openBracket = .ok (.bracketed (p.output ++ base.built) idArrayAccess 2
      (p.bumped base.leads) (1 :: p.argCount.modifyHead satInc)) := by
  obtain ⟨houtput, hstack⟩ := Settles.operand (hlevel ▸ h.settles)
  rw [ExpressionParser.step, ExpressionParser.openBracket, if_pos (h.isVar.trans hvar), houtput,
    hstack, h.argCount]
  rfl

theorem step_array {p : ExpressionParser} (hvar : p.lastIsVarOrFnc = false) :
    p.step .openBracket = .ok (.bracketed p.output idArrayBuild 0 p.incArgCount.operatorStack
      (0 :: p.argCount.modifyHead satInc)) := by
  rw [ExpressionParser.step, ExpressionParser.openBracket, hvar, ← incArgCount_argCount,
    bracketed, ← incArgCount_output]
  rfl

theorem readable_index {base i : Ast} (hbase : Readable base) (hi : Readable i)
    (hlevel : base.level = 9) (hvar : base.endsVar = true) : Readable (.index base i) := by
  intro p hready
  obtain ⟨q₁, hfeed₁, hreads₁⟩ := hbase p (hlevel ▸ hready)
  have hnonneg : Nonneg (1 :: p.argCount.modifyHead satInc) :=
    forall_mem_cons.mpr ⟨by decide, hready.counts.inc⟩
  obtain ⟨q, hfeed, hq⟩ := feed_one hi (p := .bracketed (p.output ++ base.built) idArrayAccess 2
    (p.bumped base.leads) (1 :: p.argCount.modifyHead satInc)) rfl rfl rfl hnonneg rfl
  rw [bumps_of_fixed rfl] at hq
  refine ⟨⟨p.output ++ (base.built ++ (i.built ++ [ExpressionItem.arrayAccess])), p.bumped base.leads,
    p.argCount.modifyHead satInc, true⟩, ?_, settles_self _ _, rfl, rfl⟩
  rw [Ast.tokens, feed_append, hfeed₁]
  show q₁.feed (.openBracket :: (i.tokens ++ [.closeBracket])) = _
  rw [feed_cons, step_index hreads₁ hlevel hvar]
  refine (feed_closed rfl not_opensBracket_of_pends (fun _ => rfl) hfeed hq).trans ?_
  rw [← append_assoc, ← append_assoc]
  rfl

theorem bumps_array (items : List Ast) (k : Nat) (stack : List Entry) :
    bumps ((.openBracket, none) :: (.function "array" idArrayBuild (k % 2 ^ 32), none) :: stack)
      items = (.openBracket, none) ::
        (.function "array" idArrayBuild ((k + items.countP Ast.leads) % 2 ^ 32), none) :: stack := by
  induction items generalizing k with
  | nil => rfl
  | cons e items ih =>
    rw [bumps, foldl_cons, ← bumps]
    cases he : e.leads with
    | true =>
      rw [if_pos rfl, bumpArray, if_pos rfl, Nat.mod_add_mod, ih, countP_cons_of_pos he,
        Nat.add_assoc, Nat.add_comm 1]
    | false =>
      rw [if_neg Bool.false_ne_true, ih, countP_cons_of_neg (by rw [he]; exact nofun)]

theorem feed_array {items : List Ast} (h : ∀ e ∈ items, Readable e) {p : ExpressionParser}
    (hready : Ready 9 p) : ∃ isVar, p.feed (Ast.array items).tokens =
      endGroup ⟨p.output ++ Ast.builtAll items, (.function "array" idArrayBuild (Ast.leading items),
        none) :: p.incArgCount.operatorStack,
        satInc^[items.length] 0 :: p.argCount.modifyHead satInc, isVar⟩ := by
  obtain ⟨q, hfeed, hq⟩ := feed_args h (p := .bracketed p.output idArrayBuild 0
    p.incArgCount.operatorStack (0 :: p.argCount.modifyHead satInc)) rfl rfl rfl
    hready.counts.zero_inc rfl
  have hbumps := bumps_array items 0 p.incArgCount.operatorStack
  rw [Nat.zero_add, Nat.zero_mod] at hbumps
  rw [hbumps] at hq
  refine ⟨q.lastIsVarOrFnc, ?_⟩
  rw [Ast.tokens, feed_cons, step_array hready.notVar]
  exact feed_closed rfl not_opensBracket_of_pends (fun _ => rfl) hfeed hq

theorem readable_array {items : List Ast}
    (hagreeing : satInc^[items.length] 0 = asI32 (Ast.leading items))
    (h : ∀ e ∈ items, Readable e) : Readable (.array items) := by
  intro p hready
  obtain ⟨isVar, hfeed⟩ := feed_array h hready
  refine ⟨⟨p.output ++ (Ast.builtAll items ++ [ExpressionItem.arrayBuild (Ast.leading items)]),
    p.incArgCount.operatorStack, p.argCount.modifyHead satInc, true⟩, ?_, settles_self _ _, rfl, rfl⟩
  rw [hfeed, hagreeing, endGroup_function, ← append_assoc]
  rfl

/-- The parser reads every layered tree whose indexed parts it can tell and on whose array literals
its counts agree. -/
theorem feed_tokens (hlayered : e.Layered) (hknown : e.Everywhere Ast.Known)
    (hindexable : e.Everywhere Ast.Indexable) (hagreeing : e.Everywhere Ast.Agreeing) :
    Readable e := by
  induction e with
  | atom a => exact readable_atom a
  | system setting => exact readable_system setting
  | unary op e ih =>
    exact readable_unary op hlayered.1 (ih hlayered.2 hknown.2 hindexable.2 hagreeing.2)
  | binary op l r ihl ihr =>
    obtain ⟨⟨hleft, hright⟩, hlayeredl, hlayeredr⟩ := hlayered
    exact readable_binary op (ihl hlayeredl hknown.2.1 hindexable.2.1 hagreeing.2.1)
      (ihr hlayeredr hknown.2.2 hindexable.2.2 hagreeing.2.2) hleft hright
  | paren e ih => exact readable_paren (ih hlayered.2 hknown.2 hindexable.2 hagreeing.2)
  | call name fnc numArgs args ih =>
    obtain ⟨hcall, hargs⟩ := hknown
    exact readable_call hcall.1 hcall.2 fun e he => ih e he
      (Ast.everywhereAll_iff.mp hlayered.2 e he) (Ast.everywhereAll_iff.mp hargs e he)
      (Ast.everywhereAll_iff.mp hindexable.2 e he) (Ast.everywhereAll_iff.mp hagreeing.2 e he)
  | regex re e ih => exact readable_regex re (ih hlayered.2 hknown.2 hindexable.2 hagreeing.2)
  | array items ih =>
    obtain ⟨harray, hitems⟩ := hagreeing
    exact readable_array harray fun e he => ih e he
      (Ast.everywhereAll_iff.mp hlayered.2 e he) (Ast.everywhereAll_iff.mp hknown.2 e he)
      (Ast.everywhereAll_iff.mp hindexable.2 e he) (Ast.everywhereAll_iff.mp hitems e he)
  | index base i ihbase ihi =>
    obtain ⟨hlevel, hlayeredb, hlayeredi⟩ := hlayered
    obtain ⟨hvar, hindexableb, hindexablei⟩ := hindexable
    exact readable_index (ihbase hlayeredb hknown.2.1 hindexableb hagreeing.2.1)
      (ihi hlayeredi hknown.2.2 hindexablei hagreeing.2.2) hlevel hvar

theorem ready_new (k : Nat) : Ready k ExpressionParser.new :=
  ⟨trivial, forall_mem_nil _, rfl⟩

theorem finish_feed_tokens (hlayered : e.Layered) (hknown : e.Everywhere Ast.Known)
    (hindexable : e.Everywhere Ast.Indexable) (hagreeing : e.Everywhere Ast.Agreeing) :
    ExpressionParser.new.feed e.tokens >>= ExpressionParser.finish = .ok e.built := by
  obtain ⟨q, hfeed, hreads⟩ :=
    feed_tokens hlayered hknown hindexable hagreeing ExpressionParser.new (ready_new _)
  have hsettles := hreads.settles
  rw [bumped_of_fixed _ rfl] at hsettles
  exact bind_eq_ok.mpr ⟨q, hfeed, hsettles.finish⟩

end Bearmail.Expr
