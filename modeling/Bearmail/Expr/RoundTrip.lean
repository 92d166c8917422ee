import Bearmail.Expr.Spelling
import Bearmail.Expr.Weights
import Mathlib.Data.List.Forall2

/-!
# Expressions from their texts

A tree is written with parentheses wherever an operand does not hold together by
itself. Read back, a `-` can be taken for a difference and a bracket for an array
literal; the program is that of the tree unless one of these happens, or the items
of an array literal are miscounted, or too many parentheses are open at once.
-/

namespace Bearmail.Expr

open Imap (utf8)
open List

variable {n : Nat} {tokens : List Token} {es : List Ast} {isStart after : Bool}

variable (e : Ast)

namespace Ast

/-! ## Parentheses where they are needed -/

/-- A tree where one is wanted that holds together as tightly as `level`. -/
def protect (level : Nat) (e : Ast) : Ast := if level ≤ e.level then e else .paren e

mutual

/-- The tree with the parentheses that its text needs. -/
def explicit : Ast → Ast
  | .atom a => .atom a
  | .system setting => .system setting
  | .unary op e => .unary op (protect 8 e.explicit)
  | .binary op l r =>
    .binary op (protect op.precedence l.explicit) (protect (op.precedence + 1) r.explicit)
  | .paren e => .paren e.explicit
  | .call name fnc numArgs args => .call name fnc numArgs (explicitAll args)
  | .regex re e => .regex re e.explicit
  | .array items => .array (explicitAll items)
  | .index base i => .index (protect 9 base.explicit) i.explicit

def explicitAll : List Ast → List Ast
  | [] => []
  | e :: es => e.explicit :: explicitAll es

end

theorem explicitAll_eq (es : List Ast) : explicitAll es = es.map explicit := by
  induction es with
  | nil => rfl
  | cons e es ih => simp [explicitAll, ih]

@[simp] theorem compile_protect (level : Nat) (e : Ast) : (protect level e).compile = e.compile := by
  unfold protect
  split <;> rfl

theorem le_level_protect {level : Nat} (h : level ≤ 9) (e : Ast) :
    level ≤ (protect level e).level := by
  unfold protect
  split
  · assumption
  · exact h

theorem everywhere_protect {p : Ast → Prop} (hp : ∀ e, p (.paren e)) (level : Nat) {e : Ast}
    (h : e.Everywhere p) : (protect level e).Everywhere p := by
  unfold protect
  split
  · exact h
  · exact ⟨hp e, h⟩

theorem layered_explicit : e.explicit.Layered := by
  have hall {es : List Ast} (ih : ∀ e ∈ es, e.explicit.Layered) :
      EverywhereAll Fitting (explicitAll es) := by
    rw [everywhereAll_iff, explicitAll_eq, forall_mem_map]
    exact ih
  have hprotect (level : Nat) {e : Ast} (h : e.explicit.Layered) :
      (protect level e.explicit).Layered := everywhere_protect (fun _ => trivial) level h
  induction e with
  | atom | system => trivial
  | unary op e ih => exact ⟨le_level_protect (by decide) _, hprotect 8 ih⟩
  | binary op l r ihl ihr =>
    have hle := op.precedence_le
    exact ⟨⟨le_level_protect (by omega) _, le_level_protect (by omega) _⟩,
      hprotect _ ihl, hprotect _ ihr⟩
  | paren e ih | regex re e ih => exact ⟨trivial, ih⟩
  | call name fnc numArgs args ih | array args ih => exact ⟨trivial, hall ih⟩
  | index base i ihb ihi =>
    have hlevel : (protect 9 base.explicit).level ≤ 9 := by
      generalize protect 9 base.explicit = e
      cases e with
      | binary op => exact op.precedence_le.trans (by decide)
      | unary => exact (by decide : 8 ≤ 9)
      | _ => exact Nat.le_refl 9
    exact ⟨hlevel.antisymm (le_level_protect (by decide) _), hprotect 9 ihb, ihi⟩

theorem known_explicit {e : Ast} (h : e.Everywhere Known) : e.explicit.Everywhere Known := by
  have hall {es : List Ast} (ih : ∀ e ∈ es, e.Everywhere Known → e.explicit.Everywhere Known)
      (h : EverywhereAll Known es) : EverywhereAll Known (explicitAll es) := by
    rw [everywhereAll_iff, explicitAll_eq, forall_mem_map]
    exact fun e he => ih e he (everywhereAll_iff.mp h e he)
  have hprotect (level : Nat) {e : Ast} (h : e.explicit.Everywhere Known) :
      (protect level e.explicit).Everywhere Known := everywhere_protect (fun _ => trivial) level h
  induction e with
  | atom | system => exact h
  | unary op e ih => exact ⟨trivial, hprotect 8 (ih h.2)⟩
  | binary op l r ihl ihr => exact ⟨trivial, hprotect _ (ihl h.2.1), hprotect _ (ihr h.2.2)⟩
  | paren e ih | regex re e ih => exact ⟨trivial, ih h.2⟩
  | call name fnc numArgs args ih =>
    obtain ⟨⟨hmem, hlength⟩, hargs⟩ := h
    refine ⟨⟨hmem, ?_⟩, hall ih hargs⟩
    rw [explicitAll_eq, length_map, hlength]
  | array items ih => exact ⟨trivial, hall ih h.2⟩
  | index base i ihb ihi => exact ⟨trivial, hprotect 9 (ihb h.2.1), ihi h.2.2⟩

theorem compile_explicit : e.explicit.compile = e.compile := by
  have hall {es : List Ast} (ih : ∀ e ∈ es, e.explicit.compile = e.compile) :
      programs List.length (explicitAll es) = programs List.length es := by
    induction es with
    | nil => rfl
    | cons e es ihes =>
      obtain ⟨he, hes⟩ := forall_mem_cons.mp ih
      exact congrArg₂ (· ++ ·) he (ihes hes)
  induction e with
  | atom | system => rfl
  | unary op e ih =>
    exact congrArg (· ++ [ExpressionItem.unaryOperator op]) ((compile_protect 8 _).trans ih)
  | binary op l r ihl ihr =>
    have hl := (compile_protect op.precedence _).trans ihl
    have hr := (compile_protect (op.precedence + 1) _).trans ihr
    show (protect _ l.explicit).compile ++
        (jump op (((protect _ r.explicit).compile.length + 1) % 2 ^ 32) ++
          ((protect _ r.explicit).compile ++ [ExpressionItem.binaryOperator op])) = _
    rw [hl, hr]
    rfl
  | paren e ih => exact ih
  | regex re e ih => exact congrArg (· ++ [ExpressionItem.regex re]) ih
  | call name fnc numArgs args ih =>
    exact congrArg (· ++ [ExpressionItem.function fnc numArgs]) (hall ih)
  | array items ih =>
    show programs List.length (explicitAll items) ++
      [ExpressionItem.arrayBuild (explicitAll items).length] = _
    rw [hall ih, explicitAll_eq, length_map]
    rfl
  | index base i ihb ihi =>
    have hbase := (compile_protect 9 _).trans ihb
    show (protect 9 base.explicit).compile ++ (i.explicit.compile ++ [ExpressionItem.arrayAccess]) = _
    rw [hbase, ihi]
    rfl

/-! ## How deep parentheses are nested -/

mutual

/-- How many parentheses are open at once in the text of a tree. -/
def nesting : Ast → Nat
  | .atom _ => 0
  | .system _ => 1
  | .unary _ e => e.nesting
  | .binary _ l r => max l.nesting r.nesting
  | .paren e => e.nesting + 1
  | .call _ _ _ args => nestings args + 1
  | .regex _ e => e.nesting + 1
  | .array items => nestings items
  | .index base i => max base.nesting i.nesting

def nestings : List Ast → Nat
  | [] => 0
  | e :: es => max e.nesting (nestings es)

end

/-- The parentheses of the tokens are balanced as long as they can be counted. -/
def Nests (n : Nat) (tokens : List Token) : Prop :=
  ∀ depth < 2 ^ 32, depthAfter depth tokens = if depth + n < 2 ^ 32 then some depth else none

theorem nests_nil : Nests 0 [] := by
  intro depth hdepth
  rw [Nat.add_zero, if_pos hdepth]
  rfl

theorem Nests.append {m : Nat} {more : List Token} (h : Nests n tokens) (hmore : Nests m more) :
    Nests (max n m) (tokens ++ more) := by
  intro depth hdepth
  rw [depthAfter, foldlM_append, ← depthAfter, h depth hdepth]
  by_cases hn : depth + n < 2 ^ 32
  · rw [if_pos hn]
    refine (hmore depth hdepth).trans (if_congr ?_ rfl rfl)
    omega
  · rw [if_neg hn, if_neg (by omega)]
    rfl

theorem Nests.cons {token : Token} (htoken : ∀ depth, depthStep depth token = some depth)
    (h : Nests n tokens) : Nests n (token :: tokens) := by
  intro depth hdepth
  rw [depthAfter, foldlM_cons, htoken]
  exact h depth hdepth

theorem Nests.concat {token : Token} (h : Nests n tokens)
    (htoken : ∀ depth, depthStep depth token = some depth) : Nests n (tokens ++ [token]) := by
  have := h.append (nests_nil.cons htoken)
  rwa [Nat.max_zero] at this

theorem Nests.group (h : Nests n tokens) : Nests (n + 1) (.openParen :: (tokens ++ [.closeParen])) := by
  intro depth hdepth
  show depthAfter ((depth + 1) % 2 ^ 32) (tokens ++ [.closeParen]) = _
  rw [depthAfter, foldlM_append, ← depthAfter, h _ (Nat.mod_lt _ (by decide))]
  obtain heq | hlt := Nat.eq_or_lt_of_le hdepth
  · -- the count starts again, and the parenthesis that closes finds none open
    have hwrap : depth + 1 = 2 ^ 32 := heq
    rw [hwrap, if_neg (show ¬ depth + (n + 1) < 2 ^ 32 by omega)]
    split <;> rfl
  · rw [Nat.mod_eq_of_lt hlt]
    by_cases hn : depth + 1 + n < 2 ^ 32
    · rw [if_pos hn, if_pos (by omega)]
      rfl
    · rw [if_neg hn, if_neg (by omega)]
      rfl

theorem nests_moreTokens (h : ∀ e ∈ es, Nests e.nesting e.tokens) :
    Nests (nestings es) (moreTokens es) := by
  induction es with
  | nil => exact nests_nil
  | cons e es ih =>
    obtain ⟨he, hes⟩ := forall_mem_cons.mp h
    exact (he.append (ih hes)).cons fun _ => rfl

theorem nests_argTokens (h : ∀ e ∈ es, Nests e.nesting e.tokens) :
    Nests (nestings es) (argTokens es) := by
  cases es with
  | nil => exact nests_nil
  | cons e es =>
    obtain ⟨he, hes⟩ := forall_mem_cons.mp h
    exact he.append (nests_moreTokens hes)

theorem nests_tokens : Nests e.nesting e.tokens := by
  induction e with
  | atom a => exact nests_nil.cons fun _ => by cases a <;> rfl
  | system setting => exact nests_nil.group.cons fun _ => rfl
  | unary op e ih => exact ih.cons fun _ => rfl
  | binary op l r ihl ihr => exact ihl.append (ihr.cons fun _ => rfl)
  | paren e ih => exact ih.group
  | call name fnc numArgs args ih => exact (nests_argTokens ih).group.cons fun _ => rfl
  | regex re e ih => exact ih.group.cons fun _ => rfl
  | array items ih => exact ((nests_argTokens ih).concat fun _ => rfl).cons fun _ => rfl
  | index base i ihb ihi => exact ihb.append ((ihi.concat fun _ => rfl).cons fun _ => rfl)

/-! ## Signs -/

def startsMinus : Ast → Bool
  | .unary .minus _ => true
  | .binary _ l _ => l.startsMinus
  | .index base _ => base.startsMinus
  | _ => false

/-- No sign comes right after a bracket or a unary operator. -/
def Signed : Ast → Prop
  | .unary _ e => e.startsMinus = false
  | .array items => ∀ e ∈ items.head?, e.startsMinus = false
  | .index _ i => i.startsMinus = false
  | _ => True

def Weakens (token read : Token) : Prop :=
  read = token ∨ (token = .unaryOperator .minus ∧ read = .binaryOperator .subtract)

/-- Where tokens are read from one start flag to another, they are read as they are exactly
when `good` holds. -/
def Rereads (isStart after : Bool) (tokens : List Token) (good : Prop) : Prop :=
  ∃ read, (∀ rest, reread isStart (tokens ++ rest) = read ++ reread after rest) ∧
    List.Forall₂ Weakens tokens read ∧ (read = tokens ↔ good)

theorem Rereads.congr {good good' : Prop} (h : Rereads isStart after tokens good)
    (hgood : good ↔ good') : Rereads isStart after tokens good' := by
  obtain ⟨read, hread, hweakens, hsame⟩ := h
  exact ⟨read, hread, hweakens, hsame.trans hgood⟩

theorem Rereads.append {middle : Bool} {more : List Token} {good good' : Prop}
    (h : Rereads isStart middle tokens good) (hmore : Rereads middle after more good') :
    Rereads isStart after (tokens ++ more) (good ∧ good') := by
  obtain ⟨read, hread, hweakens, hsame⟩ := h
  obtain ⟨read', hread', hweakens', hsame'⟩ := hmore
  refine ⟨read ++ read', fun rest => ?_, rel_append hweakens hweakens', ?_⟩
  · simp [hread, hread']
  · rw [append_eq_append hweakens.length_eq.symm, hsame, hsame']

theorem rereads_single {token : Token} (h : token.reread isStart = token) :
    Rereads isStart token.isStart [token] True := by
  refine ⟨[token], fun rest => ?_, .cons (.inl rfl) .nil, iff_of_true rfl trivial⟩
  simp [reread, h]

theorem Rereads.cons (token : Token) {good : Prop} (htoken : token.reread isStart = token)
    (h : Rereads token.isStart after tokens good) : Rereads isStart after (token :: tokens) good :=
  ((rereads_single htoken).append h).congr (and_iff_right trivial)

theorem Rereads.concat {good : Prop} (h : Rereads isStart after tokens good) (token : Token)
    (htoken : token.reread after = token) :
    Rereads isStart token.isStart (tokens ++ [token]) good :=
  (h.append (rereads_single htoken)).congr (and_iff_left trivial)

def Signs (e : Ast) : Prop :=
  ∀ isStart, Rereads isStart false e.tokens
    ((e.startsMinus = true → isStart = true) ∧ e.Everywhere Signed)

theorem rereads_moreTokens (h : ∀ e ∈ es, e.Signs) :
    Rereads false false (moreTokens es) (EverywhereAll Signed es) := by
  induction es with
  | nil => exact ⟨[], fun _ => rfl, .nil, iff_of_true rfl trivial⟩
  | cons e es ih =>
    obtain ⟨he, hes⟩ := forall_mem_cons.mp h
    refine Rereads.cons .comma rfl (((he true).append (ih hes)).congr ?_)
    simp [EverywhereAll]

theorem rereads_group (h : ∀ e ∈ es, e.Signs) (closing : Token)
    (hclosing : ∀ isStart, closing.reread isStart = closing) (isStart : Bool) :
    Rereads isStart closing.isStart (argTokens es ++ [closing])
      ((∀ e ∈ es.head?, e.startsMinus = true → isStart = true) ∧ EverywhereAll Signed es) := by
  cases es with
  | nil =>
    refine (rereads_single (hclosing isStart)).congr ?_
    exact iff_of_true trivial ⟨nofun, trivial⟩
  | cons e es =>
    obtain ⟨he, hes⟩ := forall_mem_cons.mp h
    refine (((he isStart).append (rereads_moreTokens hes)).concat closing (hclosing false)).congr ?_
    rw [and_assoc]
    refine and_congr_left' ⟨?_, fun h => h e rfl⟩
    rintro h _ ⟨⟩
    exact h

theorem signs_unary (op : UnaryOperator) {e : Ast} (h : e.Signs) : (Ast.unary op e).Signs := by
  intro isStart
  have hsigned : (Ast.unary op e).Everywhere Signed ↔
      (e.startsMinus = true → false = true) ∧ e.Everywhere Signed := by
    rw [Everywhere, Signed]
    cases e.startsMinus <;> simp
  cases op with
  | not =>
    refine Rereads.cons _ rfl ((h false).congr ?_)
    rw [hsigned]
    exact (and_iff_right (by rintro ⟨⟩)).symm
  | minus =>
    cases isStart with
    | true =>
      refine Rereads.cons _ rfl ((h false).congr ?_)
      rw [hsigned]
      exact (and_iff_right fun _ => rfl).symm
    | false =>
      obtain ⟨read, hread, hweakens, -⟩ := h true
      refine ⟨.binaryOperator .subtract :: read, fun rest => ?_, .cons (.inr ⟨rfl, rfl⟩) hweakens, ?_⟩
      · show Token.binaryOperator .subtract :: reread true (e.tokens ++ rest) = _
        simp [hread]
      · refine iff_of_false ?_ fun h => Bool.false_ne_true (h.1 rfl)
        rintro ⟨⟩

theorem reread_binaryOperator (op : BinaryOperator) :
    (Token.binaryOperator op).reread false = .binaryOperator op := by
  cases op <;> rfl

theorem signs : e.Signs := by
  induction e with
  | atom a =>
    intro isStart
    cases a <;> exact (Rereads.cons _ rfl ⟨[], fun _ => rfl, .nil, iff_of_true rfl ⟨nofun, trivial⟩⟩)
  | system setting =>
    intro isStart
    exact Rereads.cons _ rfl (Rereads.cons .openParen rfl (Rereads.cons .closeParen rfl
      ⟨[], fun _ => rfl, .nil, iff_of_true rfl ⟨nofun, trivial⟩⟩))
  | unary op e ih => exact signs_unary op ih
  | binary op l r ihl ihr =>
    intro isStart
    refine ((ihl isStart).append (Rereads.cons _ (reread_binaryOperator op) (ihr true))).congr ?_
    show _ ↔ (l.startsMinus = true → isStart = true) ∧ True ∧ l.Everywhere Signed ∧ r.Everywhere Signed
    simp [and_assoc]
  | paren e ih =>
    intro isStart
    refine (Rereads.cons .openParen rfl ((ih true).concat .closeParen rfl)).congr ?_
    show _ ↔ (false = true → isStart = true) ∧ True ∧ e.Everywhere Signed
    simp only [Bool.false_eq_true, false_imp_iff, true_and, imp_true_iff]
  | call name fnc numArgs args ih =>
    intro isStart
    refine (Rereads.cons _ rfl (Rereads.cons .openParen rfl
      (rereads_group ih .closeParen (fun _ => rfl) true))).congr ?_
    show _ ↔ (false = true → isStart = true) ∧ True ∧ EverywhereAll Signed args
    simp only [Bool.false_eq_true, false_imp_iff, true_and, imp_true_iff]
  | regex re e ih =>
    intro isStart
    refine (Rereads.cons _ rfl (Rereads.cons .openParen rfl ((ih true).concat .closeParen rfl))).congr ?_
    show _ ↔ (false = true → isStart = true) ∧ True ∧ e.Everywhere Signed
    simp only [Bool.false_eq_true, false_imp_iff, true_and, imp_true_iff]
  | array items ih =>
    intro isStart
    refine (Rereads.cons .openBracket rfl (rereads_group ih .closeBracket (fun _ => rfl) false)).congr ?_
    simp only [Bool.false_eq_true, imp_false, Bool.not_eq_true]
    exact (and_iff_right (by rintro ⟨⟩)).symm
  | index base i ihb ihi =>
    intro isStart
    refine ((ihb isStart).append (Rereads.cons .openBracket rfl
      ((ihi false).concat .closeBracket rfl))).congr ?_
    show _ ↔ (base.startsMinus = true → isStart = true) ∧ i.startsMinus = false ∧
      base.Everywhere Signed ∧ i.Everywhere Signed
    simp only [Bool.false_eq_true, imp_false, Bool.not_eq_true]
    tauto

theorem reread_tokens : List.Forall₂ Weakens e.tokens (reread true e.tokens) ∧
    (reread true e.tokens = e.tokens ↔ e.Everywhere Signed) := by
  obtain ⟨read, hread, hweakens, hsame⟩ := e.signs true
  have hall : reread true e.tokens = read := by
    have := hread []
    rwa [List.append_nil, reread, List.append_nil] at this
  rw [hall]
  exact ⟨hweakens, hsame.trans (and_iff_right fun _ => rfl)⟩

end Ast

theorem eq_of_gains_eq {read : List Token} (h : List.Forall₂ Ast.Weakens tokens read)
    (last last' : Bool) :
    Weight.gains ⟨1, 0⟩ last' read ≤ Weight.gains ⟨1, 0⟩ last tokens ∧
      (Weight.gains ⟨1, 0⟩ last' read = Weight.gains ⟨1, 0⟩ last tokens → read = tokens) := by
  have hgain (token : Token) (last last' : Bool) :
      Weight.gain ⟨1, 0⟩ last token = Weight.gain ⟨1, 0⟩ last' token := by
    cases token with
    | openBracket => exact (ite_self 0).trans (ite_self 0).symm
    | _ => rfl
  induction h generalizing last last' with
  | nil => exact ⟨Nat.le_refl _, fun _ => rfl⟩
  | @cons token token' tokens read hweakens _ ih =>
    obtain ⟨hle, heq⟩ := ih token.isVarOrFnc token'.isVarOrFnc
    show Weight.gain ⟨1, 0⟩ last' token' + _ ≤ Weight.gain ⟨1, 0⟩ last token + _ ∧
      (Weight.gain ⟨1, 0⟩ last' token' + _ = Weight.gain ⟨1, 0⟩ last token + _ → _)
    obtain rfl | ⟨rfl, rfl⟩ := hweakens
    · rw [hgain token' last' last]
      exact ⟨Nat.add_le_add_left hle _, fun h => by rw [heq (Nat.add_left_cancel h)]⟩
    · have hsign : Weight.gain ⟨1, 0⟩ last (.unaryOperator .minus) = 1 := rfl
      have hdifference : Weight.gain ⟨1, 0⟩ last' (.binaryOperator .subtract) = 0 := rfl
      omega

/-! ## Texts of trees -/

/-- The text of a tree is read as what it stands for. -/
structure Ast.Fine (e : Ast) : Prop where
  signed : e.Everywhere Ast.Signed
  indexable : e.Everywhere Ast.Indexable
  counted : e.Everywhere Ast.Counted
  nesting : e.nesting < 2 ^ 32

theorem parse_renders_iff {ext : Externals} {map : TokenMap} {e : Ast}
    (hknown : e.Everywhere Ast.Known) {text : List UInt8} (h : Renders map e.explicit.tokens text) :
    parse ext map text = .ok e.compile ↔ e.explicit.Fine := by
  have hknown' := Ast.known_explicit hknown
  have hlayered := e.layered_explicit
  obtain ⟨hweakens, hsigned⟩ := e.explicit.reread_tokens
  have hlexes := @lexes_iff_of_renders _ map ext _ h true 0
  have hdepth := e.explicit.nests_tokens 0 (by decide)
  rw [Nat.zero_add] at hdepth
  rw [← e.compile_explicit]
  constructor
  · intro hparse
    obtain ⟨tokens, hread⟩ := lexes_of_parseLoop hparse
    have hfeed := (parseLoop_of_lexes hread .new).symm.trans hparse
    obtain ⟨hbalanced, rfl⟩ := (hlexes tokens).mp hread
    have hnesting : e.explicit.nesting < 2 ^ 32 := by
      by_contra hdeep
      rw [hdepth, if_neg hdeep] at hbalanced
      cases hbalanced
    have hsame := (eq_of_gains_eq hweakens false false).2 (Ast.gains_of_feed hknown' hfeed)
    rw [hsame] at hfeed
    have hindexable := Ast.indexable_of_feed hknown' hfeed
    obtain hagreeing | hrefused := agreeing_or_refused hlayered hknown' hindexable
    · rw [finish_feed_tokens hlayered hknown' hindexable hagreeing] at hfeed
      have hcounted := e.explicit.counted_iff.mpr ⟨hagreeing, Except.ok.inj hfeed⟩
      exact ⟨hsigned.mp hsame, hindexable, hcounted, hnesting⟩
    · exact absurd hfeed (((hrefused _ (ready_new _)).bind _).ne_ok _)
  · rintro ⟨hsign, hindexable, hcounted, hnesting⟩
    obtain ⟨hagreeing, hbuilt⟩ := e.explicit.counted_iff.mp hcounted
    have hread := (hlexes e.explicit.tokens).mpr
      ⟨hdepth.trans (if_pos hnesting), (hsigned.mpr hsign).symm⟩
    have hparse := parseLoop_of_lexes hread .new
    rw [finish_feed_tokens hlayered hknown' hindexable hagreeing, hbuilt] at hparse
    exact hparse

/-- `2*(asn+1)`, whose parentheses the tree does not have. -/
theorem parse_renders_product :
    parse ⟨fun _ => false, fun _ => false⟩ .default (utf8 "2*(asn+1)") =
      .ok [.constant (.integer 2), .var .asn, .constant (.integer 1), .binaryOperator .add,
        .binaryOperator .multiply] := by
  let e : Ast := .binary .multiply (.atom (.constant (.integer 2)))
    (.binary .add (.atom (.var .asn)) (.atom (.constant (.integer 1))))
  have hrenders : Renders .default e.explicit.tokens
      ([] ++ ([50] ++ ([] ++ ([42] ++ ([] ++ ([40] ++ ([] ++ (utf8 "asn" ++ ([] ++ ([43] ++
        ([] ++ ([49] ++ ([] ++ ([41] ++ [])))))))))))))) := by
    refine .token rfl (.integer (by decide) rfl rfl) (by rintro _ ⟨⟩; rfl) <|
      .token rfl (.binaryOperator .multiply) trivial <| .token rfl .openParen trivial <|
      .token rfl (.var (.inl rfl)) (by rintro _ ⟨⟩; rfl) <|
      .token rfl (.binaryOperator .add) trivial <|
      .token rfl (.integer (by decide) rfl rfl) (by rintro _ ⟨⟩; rfl) <|
      .token rfl .closeParen trivial (.done rfl)
  have hknown : e.Everywhere Ast.Known := ⟨trivial, trivial, trivial, trivial, trivial⟩
  have hfine : e.explicit.Fine :=
    ⟨⟨trivial, trivial, trivial, trivial, trivial, trivial⟩,
      ⟨trivial, trivial, trivial, trivial, trivial, trivial⟩,
      ⟨trivial, trivial, trivial, trivial, trivial, trivial⟩, by decide⟩
  exact (parse_renders_iff hknown hrenders).mpr hfine

/-- The sign of the first item of an array is read as a difference. -/
theorem not_parse_renders : ¬ ∀ (ext : Externals) (map : TokenMap) (e : Ast) (text : List UInt8),
    e.Everywhere Ast.Known → Renders map e.explicit.tokens text →
      parse ext map text = .ok e.compile := by
  intro hall
  let ext : Externals := ⟨fun _ => false, fun _ => false⟩
  let e : Ast := .array [.unary .minus (.atom (.constant (.integer 1)))]
  have hrenders : Renders .default e.explicit.tokens
      ([] ++ ([91] ++ ([] ++ ([45] ++ ([] ++ ([49] ++ ([] ++ ([93] ++ [])))))))) := by
    refine .token rfl .openBracket trivial <| .token rfl (.unaryOperator .minus) trivial <|
      .token rfl (.integer (by decide) rfl rfl) (by rintro _ ⟨⟩; rfl) <|
      .token rfl .closeBracket trivial (.done rfl)
  have hparse := hall ext .default e _ ⟨trivial, ⟨trivial, trivial⟩, trivial⟩ hrenders
  have hlexes : Lexes ext (.new [91, 45, 49, 93] .default)
      [.openBracket, .binaryOperator .subtract, .constant (.integer 1), .closeBracket] :=
    .token rfl (.token rfl (.token rfl (.token rfl (.done rfl))))
  have hrefused := parseLoop_of_lexes hlexes .new
  cases hrefused.symm.trans hparse

end Bearmail.Expr
