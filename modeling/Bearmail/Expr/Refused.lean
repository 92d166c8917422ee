import Bearmail.Expr.Shunting

/-!
# Trees that the parser refuses

An array literal is counted twice: once with the arguments of calls, and once by
the operands that follow its bracket or a comma of its own. An item that starts
with a parenthesis or with a unary operator escapes the second count.
-/

namespace Bearmail.Expr

open ExpressionParser
open List

open Fallible (Fails fails_bind)

/-- From wherever it can start, the tree is refused. -/
def Refused (e : Ast) : Prop := ∀ p, Ready e.level p → Fails (p.feed e.tokens)

variable {e : Ast} {es : List Ast}

section Group

variable {token : Token} {jmpPos : Option Nat} {stack : List Entry} {count : Int} {counts : List Int}

theorem feed_one_refused (h : Refused e) {p : ExpressionParser} (htoken : isOpener token = true)
    (hstack : p.operatorStack = (token, jmpPos) :: stack) (hcounts : Nonneg p.argCount)
    (hvar : p.lastIsVarOrFnc = false) : Fails (p.feed e.tokens) :=
  h p ⟨hstack ▸ fits_opener htoken _ _, hcounts, hvar⟩

theorem feed_more_refused (h : ∀ e ∈ es, Readable e ∨ Refused e) (hbad : ∃ e ∈ es, Refused e)
    {q : ExpressionParser} {output : List ExpressionItem} (htoken : isOpener token = true)
    (hq : ReadsGroup q output ((token, jmpPos) :: stack) (count :: counts)) :
    Fails (q.feed (Ast.moreTokens es)) := by
  induction es generalizing q output stack count with
  | nil => exact absurd hbad (by simp)
  | cons e es ih =>
    obtain ⟨he, hes⟩ := forall_mem_cons.mp h
    rw [Ast.moreTokens, feed_cons, step_comma htoken hq]
    show Fails (feed _ (e.tokens ++ Ast.moreTokens es))
    rw [feed_append]
    by_cases hfirstBad : Refused e
    · exact (feed_one_refused hfirstBad htoken rfl hq.counts rfl).bind _
    · obtain ⟨q₁, hfirst, hq₁⟩ := feed_one (he.resolve_right hfirstBad)
        (p := ⟨output, (token, jmpPos) :: stack, count :: counts, false⟩) htoken rfl rfl
        hq.counts rfl
      obtain ⟨stack', hstack'⟩ := bumps_opener htoken stack e
      rw [hstack'] at hq₁
      simp only [mem_cons, exists_eq_or_imp, hfirstBad, false_or] at hbad
      exact fails_bind hfirst (ih hes hbad hq₁)

theorem feed_args_refused (h : ∀ e ∈ es, Readable e ∨ Refused e) (hbad : ∃ e ∈ es, Refused e)
    {p : ExpressionParser} (htoken : isOpener token = true)
    (hstack : p.operatorStack = (token, jmpPos) :: stack) (hcount : p.argCount = count :: counts)
    (hcounts : Nonneg p.argCount) (hvar : p.lastIsVarOrFnc = false) :
    Fails (p.feed (Ast.argTokens es)) := by
  cases es with
  | nil => exact absurd hbad (by simp)
  | cons e es =>
    obtain ⟨he, hes⟩ := forall_mem_cons.mp h
    rw [Ast.argTokens, feed_append]
    by_cases hfirstBad : Refused e
    · exact (feed_one_refused hfirstBad htoken hstack hcounts hvar).bind _
    · obtain ⟨q₁, hfirst, hq₁⟩ :=
        feed_one (he.resolve_right hfirstBad) htoken hstack hcount hcounts hvar
      obtain ⟨stack', hstack'⟩ := bumps_opener htoken stack e
      rw [hstack, hstack'] at hq₁
      simp only [mem_cons, exists_eq_or_imp, hfirstBad, false_or] at hbad
      exact fails_bind hfirst (feed_more_refused hes hbad htoken hq₁)

end Group

theorem refused_unary (op : UnaryOperator) (hlevel : 8 ≤ e.level) (h : Refused e) :
    Refused (.unary op e) := by
  intro p hready
  exact h { p with operatorStack := (.unaryOperator op, none) :: p.operatorStack,
                   lastIsVarOrFnc := false } ⟨hlevel, hready.counts, rfl⟩

theorem refused_binary_left (op : BinaryOperator) {l : Ast} (r : Ast) (h : Refused l)
    (hleft : op.precedence ≤ l.level) : Refused (.binary op l r) := by
  intro p hready
  rw [Ast.tokens, feed_append]
  exact (h p ⟨hready.fits.mono hleft, hready.counts, hready.notVar⟩).bind _

theorem refused_binary_right (op : BinaryOperator) {l r : Ast} (hl : Readable l) (h : Refused r)
    (hleft : op.precedence ≤ l.level) (hright : op.precedence < r.level) :
    Refused (.binary op l r) := by
  intro p hready
  obtain ⟨q₁, hfeed₁, hreads₁⟩ := hl p ⟨hready.fits.mono hleft, hready.counts, hready.notVar⟩
  have hstep := step_binary hleft hreads₁.settles (p.fits_bumped hready.fits l.leads)
  rw [hreads₁.argCount] at hstep
  rw [Ast.tokens, feed_append]
  refine fails_bind hfeed₁ ?_
  exact fails_bind hstep (h _ ⟨hright, hready.counts.dec_inc, rfl⟩)

theorem refused_paren (h : Refused e) : Refused (.paren e) := by
  intro p hready
  show Fails (feed _ (e.tokens ++ [Token.closeParen]))
  rw [feed_append]
  exact (h { p with operatorStack := (.openParen, none) :: p.operatorStack,
                    lastIsVarOrFnc := false } ⟨trivial, hready.counts, rfl⟩).bind _

theorem refused_regex (re : Regex) (h : Refused e) : Refused (.regex re e) := by
  intro p hready
  rw [Ast.tokens, feed_call rfl, feed_append]
  exact (feed_one_refused h rfl rfl hready.counts.zero_inc rfl).bind _

theorem refused_call (name : String) (fnc numArgs : Nat) {args : List Ast}
    (h : ∀ e ∈ args, Readable e ∨ Refused e) (hbad : ∃ e ∈ args, Refused e) :
    Refused (.call name fnc numArgs args) := by
  intro p hready
  rw [Ast.tokens, feed_call rfl, feed_append]
  exact (feed_args_refused h hbad rfl rfl rfl hready.counts.zero_inc rfl).bind _

theorem refused_array_item {items : List Ast} (h : ∀ e ∈ items, Readable e ∨ Refused e)
    (hbad : ∃ e ∈ items, Refused e) : Refused (.array items) := by
  intro p hready
  rw [Ast.tokens, feed_cons]
  refine fails_bind (step_array hready.notVar) ?_
  rw [feed_append]
  exact (feed_args_refused h hbad rfl rfl rfl hready.counts.zero_inc rfl).bind _

theorem refused_array {items : List Ast} (h : ∀ e ∈ items, Readable e)
    (hdiffer : satInc^[items.length] 0 ≠ asI32 (Ast.leading items)) : Refused (.array items) := by
  intro p hready
  obtain ⟨isVar, hfeed⟩ := feed_array h hready
  rw [hfeed]
  show Fails (if _ then _ else _)
  rw [if_neg hdiffer]
  exact ⟨_, rfl⟩

theorem refused_index_base {base : Ast} (i : Ast) (h : Refused base) (hlevel : base.level = 9) :
    Refused (.index base i) := by
  intro p hready
  rw [Ast.tokens, feed_append]
  exact (h p (hlevel ▸ hready)).bind _

theorem refused_index {base i : Ast} (hbase : Readable base) (h : Refused i)
    (hlevel : base.level = 9) (hvar : base.endsVar = true) : Refused (.index base i) := by
  intro p hready
  obtain ⟨q₁, hfeed₁, hreads₁⟩ := hbase p (hlevel ▸ hready)
  have hstep := step_index hreads₁ hlevel hvar
  have hnonneg : Nonneg (1 :: p.argCount.modifyHead satInc) :=
    forall_mem_cons.mpr ⟨by decide, hready.counts.inc⟩
  rw [Ast.tokens, feed_append]
  refine fails_bind hfeed₁ ?_
  rw [feed_cons]
  refine fails_bind hstep ?_
  rw [feed_append]
  exact (feed_one_refused h rfl rfl hnonneg rfl).bind _

/-- A layered tree whose indexed parts can be told is refused if the counts differ anywhere. -/
theorem agreeing_or_refused (hlayered : e.Layered) (hknown : e.Everywhere Ast.Known)
    (hindexable : e.Everywhere Ast.Indexable) : e.Everywhere Ast.Agreeing ∨ Refused e := by
  -- the parts before a refused one are read
  have hread {es : List Ast}
      (h : ∀ e ∈ es, e.Everywhere Ast.Agreeing ∨ Refused e) (hlayered : ∀ e ∈ es, e.Layered)
      (hknown : ∀ e ∈ es, e.Everywhere Ast.Known)
      (hindexable : ∀ e ∈ es, e.Everywhere Ast.Indexable) : ∀ e ∈ es, Readable e ∨ Refused e :=
    fun e he => (h e he).imp_left (feed_tokens (hlayered e he) (hknown e he) (hindexable e he))
  induction e with
  | atom a | system setting => exact .inl trivial
  | unary op e ih =>
    exact (ih hlayered.2 hknown.2 hindexable.2).imp (fun h => ⟨trivial, h⟩) (refused_unary op hlayered.1)
  | binary op l r ihl ihr =>
    obtain ⟨⟨hleft, hright⟩, hlayeredl, hlayeredr⟩ := hlayered
    rcases ihl hlayeredl hknown.2.1 hindexable.2.1 with hl | hl
    · have hreadl := feed_tokens hlayeredl hknown.2.1 hindexable.2.1 hl
      exact (ihr hlayeredr hknown.2.2 hindexable.2.2).imp (fun hr => ⟨trivial, hl, hr⟩)
        (fun hr => refused_binary_right op hreadl hr hleft hright)
    · exact .inr (refused_binary_left op r hl hleft)
  | paren e ih =>
    exact (ih hlayered.2 hknown.2 hindexable.2).imp (fun h => ⟨trivial, h⟩) refused_paren
  | call name fnc numArgs args ih =>
    have hlayered := Ast.everywhereAll_iff.mp hlayered.2
    have hknown := Ast.everywhereAll_iff.mp hknown.2
    have hindexable := Ast.everywhereAll_iff.mp hindexable.2
    have hargs : ∀ e ∈ args, e.Everywhere Ast.Agreeing ∨ Refused e := fun e he =>
      ih e he (hlayered e he) (hknown e he) (hindexable e he)
    by_cases hbad : ∃ e ∈ args, Refused e
    · exact .inr (refused_call name fnc numArgs (hread hargs hlayered hknown hindexable) hbad)
    · exact .inl ⟨trivial, Ast.everywhereAll_iff.mpr fun e he =>
        (hargs e he).resolve_right fun h => hbad ⟨e, he, h⟩⟩
  | regex re e ih =>
    exact (ih hlayered.2 hknown.2 hindexable.2).imp (fun h => ⟨trivial, h⟩) (refused_regex re)
  | array items ih =>
    have hlayered := Ast.everywhereAll_iff.mp hlayered.2
    have hknown := Ast.everywhereAll_iff.mp hknown.2
    have hindexable := Ast.everywhereAll_iff.mp hindexable.2
    have hitems : ∀ e ∈ items, e.Everywhere Ast.Agreeing ∨ Refused e := fun e he =>
      ih e he (hlayered e he) (hknown e he) (hindexable e he)
    have hreadable := hread hitems hlayered hknown hindexable
    by_cases hbad : ∃ e ∈ items, Refused e
    · exact .inr (refused_array_item hreadable hbad)
    · have hall : ∀ e ∈ items, Readable e := fun e he =>
        (hreadable e he).resolve_right fun h => hbad ⟨e, he, h⟩
      by_cases hagreeing : satInc^[items.length] 0 = asI32 (Ast.leading items)
      · exact .inl ⟨hagreeing, Ast.everywhereAll_iff.mpr fun e he =>
          (hitems e he).resolve_right fun h => hbad ⟨e, he, h⟩⟩
      · exact .inr (refused_array hall hagreeing)
  | index base i ihbase ihi =>
    obtain ⟨hlevel, hlayeredb, hlayeredi⟩ := hlayered
    obtain ⟨hvar, hindexableb, hindexablei⟩ := hindexable
    rcases ihbase hlayeredb hknown.2.1 hindexableb with hb | hb
    · have hreadb := feed_tokens hlayeredb hknown.2.1 hindexableb hb
      exact (ihi hlayeredi hknown.2.2 hindexablei).imp (fun hi => ⟨trivial, hb, hi⟩)
        (fun hi => refused_index hreadb hi hlevel hvar)
    · exact .inr (refused_index_base i hb hlevel)

/-! ## What the counts say -/

theorem iterate_satInc_zero (n : Nat) : satInc^[n] 0 = (min n (2 ^ 31 - 1) : Nat) := by
  induction n with
  | zero => rfl
  | succ n ih =>
    rw [Function.iterate_succ_apply', ih]
    unfold satInc
    omega

namespace Ast

theorem counted_array_iff (items : List Ast) :
    Counted (.array items) ↔ Agreeing (.array items) ∧ leading items = items.length := by
  have hle : items.countP leads ≤ items.length := countP_le_length
  have hall : items.countP leads = items.length ↔ ∀ e ∈ items, e.leads = true :=
    countP_eq_length
  rw [Counted, Agreeing, ← hall, leading, iterate_satInc_zero]
  unfold asI32
  constructor
  · rintro ⟨hcount, hlength⟩
    rw [hcount, Nat.mod_eq_of_lt (by omega)]
    exact ⟨by omega, rfl⟩
  · rintro ⟨hagreeing, hlength⟩
    split at hagreeing <;> omega

attribute [local simp] program programs Everywhere EverywhereAll

theorem length_programs {length length' : List Ast → Nat}
    (h : ∀ e ∈ es, (e.program length).length = (e.program length').length) :
    (programs length es).length = (programs length' es).length := by
  induction es with
  | nil => rfl
  | cons e es ih =>
    obtain ⟨he, hes⟩ := forall_mem_cons.mp h
    simp [programs, programs, he, ih hes]

theorem length_program (e : Ast) (length length' : List Ast → Nat) :
    (e.program length).length = (e.program length').length := by
  induction e with
  | atom a | system setting => rfl
  | unary op e ih => simp [program, ih]
  | binary op l r ihl ihr => simp [program, ihl, ihr]
  | paren e ih => exact ih
  | call name fnc numArgs args ih =>
    simp [program, length_programs ih]
  | regex re e ih => simp [program, ih]
  | array items ih => simp [program, length_programs ih]
  | index base i ihb ihi => simp [program, ihb, ihi]

theorem append_eq_append {α : Type} {a a' b b' : List α} (h : a.length = a'.length) :
    a ++ b = a' ++ b' ↔ a = a' ∧ b = b' :=
  ⟨fun heq => append_inj heq h, fun ⟨ha, hb⟩ => by rw [ha, hb]⟩

def SameLength (length length' : List Ast → Nat) : Ast → Prop
  | .array items => length items = length' items
  | _ => True

theorem programs_eq_iff {length length' : List Ast → Nat}
    (h : ∀ e ∈ es, (e.program length = e.program length' ↔ e.Everywhere (SameLength length length'))) :
    programs length es = programs length' es ↔ EverywhereAll (SameLength length length') es := by
  induction es with
  | nil => exact iff_of_true rfl trivial
  | cons e es ih =>
    obtain ⟨he, hes⟩ := forall_mem_cons.mp h
    rw [programs, programs, append_eq_append (length_program e length length'), he, ih hes,
      EverywhereAll]

theorem program_eq_iff (e : Ast) (length length' : List Ast → Nat) :
    e.program length = e.program length' ↔ e.Everywhere (SameLength length length') := by
  induction e with
  | atom a | system setting => exact iff_of_true rfl trivial
  | unary op e ih =>
    rw [program, program, append_eq_append (length_program e length length'), ih]
    exact ⟨fun h => ⟨trivial, h.1⟩, fun h => ⟨h.2, rfl⟩⟩
  | binary op l r ihl ihr =>
    rw [program, program, length_program r length length',
      append_eq_append (length_program l length length'), append_cancel_left_eq,
      append_eq_append (length_program r length length'), ihl, ihr]
    exact ⟨fun h => ⟨trivial, h.1, h.2.1⟩, fun h => ⟨h.2.1, h.2.2, rfl⟩⟩
  | paren e ih => exact ih.trans ⟨fun h => ⟨trivial, h⟩, And.right⟩
  | call name fnc numArgs args ih =>
    rw [program, program, append_left_inj, programs_eq_iff ih]
    exact ⟨fun h => ⟨trivial, h⟩, And.right⟩
  | regex re e ih =>
    rw [program, program, append_left_inj, ih]
    exact ⟨fun h => ⟨trivial, h⟩, And.right⟩
  | array items ih =>
    have hlength : (programs length items).length = (programs length' items).length := by
      have hwhole := length_program (.array items) length length'
      rw [program, program, length_append, length_append] at hwhole
      exact Nat.add_right_cancel hwhole
    rw [program, program, append_eq_append hlength, programs_eq_iff ih]
    constructor
    · rintro ⟨hitems, hlast⟩
      injection hlast with hlast
      injection hlast with hsame
      exact ⟨hsame, hitems⟩
    · rintro ⟨hsame, hitems⟩
      exact ⟨hitems, by rw [show length items = length' items from hsame]⟩
  | index base i ihb ihi =>
    rw [program, program, append_eq_append (length_program base length length'),
      append_eq_append (length_program i length length'), ihb, ihi]
    exact ⟨fun h => ⟨trivial, h.1, h.2.1⟩, fun h => ⟨h.2.1, h.2.2, rfl⟩⟩

theorem everywhereAll_and {p q r : Ast → Prop}
    (h : ∀ e ∈ es, (e.Everywhere r ↔ e.Everywhere p ∧ e.Everywhere q)) :
    EverywhereAll r es ↔ EverywhereAll p es ∧ EverywhereAll q es := by
  rw [everywhereAll_iff, everywhereAll_iff, everywhereAll_iff, ← forall₂_and]
  exact forall₂_congr h

theorem everywhere_and {p q r : Ast → Prop} (h : ∀ e, r e ↔ p e ∧ q e) (e : Ast) :
    e.Everywhere r ↔ e.Everywhere p ∧ e.Everywhere q := by
  induction e with
  | atom a | system setting => exact h _
  | unary op e ih | paren e ih | regex re e ih =>
    rw [Everywhere, h, ih]
    exact and_and_and_comm
  | binary op l r ihl ihr | index l r ihl ihr =>
    rw [Everywhere, Everywhere, Everywhere, h, ihl, ihr, and_and_and_comm (a := l.Everywhere p),
      and_and_and_comm]
  | call name fnc numArgs args ih | array items ih =>
    rw [Everywhere, h, everywhereAll_and ih]
    exact and_and_and_comm

/-- The parser makes of a tree what it stands for exactly when its items are counted. -/
theorem counted_iff (e : Ast) : e.Everywhere Counted ↔ e.Everywhere Agreeing ∧ e.built = e.compile := by
  rw [built, compile, program_eq_iff]
  refine everywhere_and (fun e => ?_) e
  cases e with
  | array items => exact counted_array_iff items
  | _ => exact iff_of_true trivial ⟨trivial, trivial⟩

end Ast

end Bearmail.Expr
