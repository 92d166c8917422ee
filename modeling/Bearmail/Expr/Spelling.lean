import Bearmail.Expr.Ast

/-!
# Spelling tokens

How the tokens of an expression are written: names and numbers as words, strings
in quotes, operators by their signs, with blanks wherever one likes and at least
where two tokens would run together. The tokenizer tells a sign from a difference
by the token before a `-`, and counts the open parentheses modulo `2 ^ 32`.
-/

namespace Bearmail.Expr

open Imap (utf8 fromUtf8 isAsciiDigit Result fail)
open List

open Fallible (bind_eq_ok)

/-! ## Texts of tokens -/

/-- The bytes that `next` takes for those of a name. -/
def isLetter (ch : UInt8) : Bool :=
  (65 ≤ ch ∧ ch ≤ 90) ∨ (97 ≤ ch ∧ ch ≤ 122) ∨ ch = 95 ∨ ch = 36

def isWordByte (ch : UInt8) : Bool := isLetter ch || isAsciiDigit ch || ch = 46

def isBlank (ch : UInt8) : Bool := ch = 32 || ch = 13 || ch = 10

def BinaryOperator.sign : BinaryOperator → List UInt8
  | .add => [43]
  | .subtract => [45]
  | .multiply => [42]
  | .divide => [47]
  | .and => [38, 38]
  | .or => [124, 124]
  | .xor => [94]
  | .eq => [61, 61]
  | .ne => [33, 61]
  | .lt => [60]
  | .le => [60, 61]
  | .gt => [62]
  | .ge => [62, 61]

def UnaryOperator.sign : UnaryOperator → List UInt8
  | .not => [33]
  | .minus => [45]

def TokenMap.Allows (map : TokenMap) : Token → Prop
  | .var v => map.allowedVariables = [] ∨ v ∈ map.allowedVariables
  | .constant (.static c) => map.allowedConstants = [] ∨ c ∈ map.allowedConstants
  | _ => True

inductive Spells (map : TokenMap) : Token → List UInt8 → Prop where
  | var {v : ExpressionVariable} (h : map.Allows (.var v)) : Spells map (.var v) (utf8 v.asStr)
  | static {c : ExpressionConstant} (h : map.Allows (.constant (.static c))) :
      Spells map (.constant (.static c)) (utf8 c.asStr)
  | integer {n : Int64} {digits : List UInt8} (hne : digits ≠ [])
      (hdigits : digits.all isAsciiDigit = true) (h : parseI64 digits = some n) :
      Spells map (.constant (.integer n)) digits
  | float {f : Float} {whole fraction : List UInt8} (hwhole : whole ≠ []) (hfraction : fraction ≠ [])
      (hdigits : (whole ++ fraction).all isAsciiDigit = true)
      (h : parseF64 (whole ++ 46 :: fraction) = some f) :
      Spells map (.constant (.float f)) (whole ++ 46 :: fraction)
  | string {s : String} {quote : UInt8} (hquote : quote = 34 ∨ quote = 39) (h : quote ∉ utf8 s)
      (hbackslash : 92 ∉ utf8 s) : Spells map (.constant (.string s)) (quote :: (utf8 s ++ [quote]))
  | function {name : String} {fnc numArgs : Nat} (h : (name, fnc, numArgs) ∈ Ast.knownFunctions) :
      Spells map (.function name fnc numArgs) (utf8 name)
  | binaryOperator (op : BinaryOperator) : Spells map (.binaryOperator op) op.sign
  | unaryOperator (op : UnaryOperator) : Spells map (.unaryOperator op) op.sign
  | openParen : Spells map .openParen [40]
  | closeParen : Spells map .closeParen [41]
  | openBracket : Spells map .openBracket [91]
  | closeBracket : Spells map .closeBracket [93]
  | comma : Spells map .comma [44]

/-- The token does not run together with what follows it. -/
def Token.Ends (rest : List UInt8) : Token → Prop
  | .unaryOperator .not | .binaryOperator .gt | .binaryOperator .lt => rest.head? ≠ some 61
  | .unaryOperator _ | .binaryOperator _ | .constant (.string _) => True
  | .openParen | .closeParen | .openBracket | .closeBracket | .comma => True
  | _ => ∀ ch ∈ rest.head?, isWordByte ch = false

inductive Renders (map : TokenMap) : List Token → List UInt8 → Prop where
  | done {gap : List UInt8} (hgap : gap.all isBlank = true) : Renders map [] gap
  | token {gap word rest : List UInt8} {token : Token} {tokens : List Token}
      (hgap : gap.all isBlank = true) (hword : Spells map token word) (hends : token.Ends rest)
      (hrest : Renders map tokens rest) : Renders map (token :: tokens) (gap ++ (word ++ rest))

/-! ## What the tokenizer makes of them -/

/-- A `-` after the start of an operand is a sign, any other a difference. -/
def Token.reread (isStart : Bool) : Token → Token
  | .unaryOperator .minus | .binaryOperator .subtract =>
    if isStart then .unaryOperator .minus else .binaryOperator .subtract
  | token => token

def reread : Bool → List Token → List Token
  | _, [] => []
  | isStart, token :: tokens =>
    token.reread isStart :: reread (token.reread isStart).isStart tokens

/-- The count of open parentheses after a token, if it does not run out. -/
def depthStep (depth : Nat) : Token → Option Nat
  | .openParen => some ((depth + 1) % 2 ^ 32)
  | .closeParen => if depth = 0 then none else some (depth - 1)
  | _ => some depth

def depthAfter (depth : Nat) (tokens : List Token) : Option Nat := tokens.foldlM depthStep depth

/-! ## Words -/

/-- The bytes of a word, none of which can end it. -/
structure IsWord (word : List UInt8) : Prop where
  ne_nil : word ≠ []
  bytes : word.all isWordByte = true
  last : word.getLast? ≠ some 46
  plain : word ∉ [utf8 "matches", utf8 "metric", utf8 "system"]

def readWord (map : TokenMap) (word : List UInt8) : Result Token :=
  if word.any isAsciiDigit && !word.any isLetter then numberToken (word.any (· = 46)) word
  else map.wordToken (!word.any isAsciiDigit && !word.any (· = 46)) word

def Token.isWord : Token → Bool
  | .var _ | .function _ _ _ | .constant (.static _) | .constant (.integer _)
  | .constant (.float _) => true
  | _ => false

instance (word : List UInt8) : Decidable (IsWord word) :=
  decidable_of_iff (word ≠ [] ∧ word.all isWordByte = true ∧ word.getLast? ≠ some 46 ∧
      word ∉ [utf8 "matches", utf8 "metric", utf8 "system"])
    ⟨fun ⟨h₁, h₂, h₃, h₄⟩ => ⟨h₁, h₂, h₃, h₄⟩, fun h => ⟨h.1, h.2, h.3, h.4⟩⟩

/-- A name is a word of letters that the tables before its own do not have. -/
def IsName (word : List UInt8) : Prop :=
  IsWord word ∧ word.any isLetter = true ∧ word ≠ utf8 "true" ∧ word ≠ utf8 "false" ∧
    globalName word = none

instance (word : List UInt8) : Decidable (IsName word) := by
  unfold IsName
  infer_instance

variable {word rest text : List UInt8} {token : Token} {ch : UInt8} {map : TokenMap}

theorem readWord_name (h : IsName word) : readWord map word = map.wordToken false word := by
  obtain ⟨-, hletter, htrue, hfalse, -⟩ := h
  rw [readWord, hletter]
  unfold TokenMap.wordToken
  simp [decide_eq_false htrue, decide_eq_false hfalse, Bool.and_false]

theorem names_of_tables :
    (∀ v ∈ ExpressionVariable.all, IsName (utf8 v.asStr) ∧ findFunction (utf8 v.asStr) = none) ∧
    (∀ c ∈ ExpressionConstant.all, IsName (utf8 c.asStr) ∧ findFunction (utf8 c.asStr) = none ∧
      ExpressionVariable.parse (utf8 c.asStr) = none) ∧
    (∀ f ∈ Ast.knownFunctions, IsName (utf8 f.1) ∧ findFunction (utf8 f.1) = some f) ∧
    ∀ name ∈ [utf8 "matches", utf8 "metric", utf8 "system"], name.any isLetter = true := by
  have hvars : ∀ v ∈ ExpressionVariable.all, IsName (utf8 v.asStr) := by decide +kernel
  have hfree : ∀ v ∈ ExpressionVariable.all, findFunction (utf8 v.asStr) = none := by decide +kernel
  have hconsts : ∀ c ∈ ExpressionConstant.all, IsName (utf8 c.asStr) ∧ findFunction (utf8 c.asStr) = none := by
    decide +kernel
  have hparse : ∀ c ∈ ExpressionConstant.all, ExpressionVariable.parse (utf8 c.asStr) = none := by
    decide +kernel
  have hfuncs : ∀ f ∈ Ast.knownFunctions, IsName (utf8 f.1) := by decide +kernel
  have hfind : ∀ f ∈ Ast.knownFunctions, findFunction (utf8 f.1) = some f := by decide +kernel
  exact ⟨fun v hv => ⟨hvars v hv, hfree v hv⟩, fun c hc => ⟨(hconsts c hc).1, (hconsts c hc).2, hparse c hc⟩,
    fun f hf => ⟨hfuncs f hf, hfind f hf⟩, by decide +kernel⟩

theorem variable_name (v : ExpressionVariable) :
    IsName (utf8 v.asStr) ∧ findFunction (utf8 v.asStr) = none :=
  names_of_tables.1 v v.mem_all

theorem constant_name (c : ExpressionConstant) : IsName (utf8 c.asStr) ∧
    findFunction (utf8 c.asStr) = none ∧ ExpressionVariable.parse (utf8 c.asStr) = none :=
  names_of_tables.2.1 c c.mem_all

theorem function_name {name : String} {fnc numArgs : Nat}
    (h : (name, fnc, numArgs) ∈ Ast.knownFunctions) :
    IsName (utf8 name) ∧ findFunction (utf8 name) = some (name, fnc, numArgs) :=
  names_of_tables.2.2.1 _ h

theorem isLetter_iff (ch : UInt8) : isLetter ch = true ↔
    (65 ≤ ch.toNat ∧ ch.toNat ≤ 90) ∨ (97 ≤ ch.toNat ∧ ch.toNat ≤ 122) ∨ ch.toNat = 95 ∨
      ch.toNat = 36 := by
  simp [isLetter, UInt8.le_iff_toNat_le, ← UInt8.toNat_inj]

theorem isAsciiDigit_iff (ch : UInt8) : isAsciiDigit ch = true ↔ 48 ≤ ch.toNat ∧ ch.toNat ≤ 57 := by
  simp [isAsciiDigit, UInt8.le_iff_toNat_le]

theorem number_byte (ch : UInt8) : isAsciiDigit ch = true ∨ ch = 46 →
    isWordByte ch = true ∧ isLetter ch = false := by
  simp only [isWordByte, Bool.or_eq_true, decide_eq_true_eq, Bool.eq_false_iff, ne_eq,
    isLetter_iff, isAsciiDigit_iff, ← UInt8.toNat_inj, UInt8.reduceToNat]
  omega

theorem isWord_number (hne : word ≠ []) (h : ∀ ch ∈ word, isAsciiDigit ch = true ∨ ch = 46)
    (hlast : word.getLast? ≠ some 46) : IsWord word ∧ word.any isLetter = false := by
  have hletter : word.any isLetter = false := by
    rw [any_eq_false]
    intro ch hch
    rw [(number_byte ch (h ch hch)).2]
    exact Bool.false_ne_true
  refine ⟨⟨hne, all_eq_true.mpr fun ch hch => (number_byte ch (h ch hch)).1, hlast, ?_⟩, hletter⟩
  intro hmem
  rw [names_of_tables.2.2.2 word hmem] at hletter
  cases hletter

theorem readWord_number (hletter : word.any isLetter = false) (hdigit : word.any isAsciiDigit = true) :
    readWord map word = numberToken (word.any (· = 46)) word := by
  rw [readWord, hletter, hdigit]
  rfl

theorem Spells.readWord (h : Spells map token word) (htoken : token.isWord = true) :
    IsWord word ∧ readWord map word = .ok token := by
  cases h with
  | @var v hallowed =>
    obtain ⟨hname, hfunction⟩ := variable_name v
    refine ⟨hname.1, ?_⟩
    have hpermitted : (map.allowedVariables.isEmpty || map.allowedVariables.contains v) = true := by
      rw [Bool.or_eq_true, List.isEmpty_iff, contains_iff_mem]
      exact hallowed
    simp only [readWord_name hname, TokenMap.wordToken, Bool.false_and, Bool.false_eq_true, if_false,
      hname.2.2.2.2, hfunction, ExpressionVariable.parse_asStr]
    exact if_pos hpermitted
  | @static c hallowed =>
    obtain ⟨hname, hfunction, hvariable⟩ := constant_name c
    refine ⟨hname.1, ?_⟩
    have hpermitted : (map.allowedConstants.isEmpty || map.allowedConstants.contains c) = true := by
      rw [Bool.or_eq_true, List.isEmpty_iff, contains_iff_mem]
      exact hallowed
    simp only [readWord_name hname, TokenMap.wordToken, Bool.false_and, Bool.false_eq_true, if_false,
      hname.2.2.2.2, hfunction, hvariable, ExpressionConstant.parse_asStr]
    exact if_pos hpermitted
  | function hknown =>
    obtain ⟨hname, hfunction⟩ := function_name hknown
    refine ⟨hname.1, ?_⟩
    simp [readWord_name hname, TokenMap.wordToken, hname.2.2.2.2, hfunction]
  | integer hne hdigits hvalue =>
    have hall := all_eq_true.mp hdigits
    have hpoint : (46 : UInt8) ∉ word := fun hmem => absurd (hall 46 hmem) (by decide)
    obtain ⟨hword, hletter⟩ := isWord_number hne (fun ch hch => .inl (hall ch hch))
      fun hlast => hpoint (List.mem_of_getLast? hlast)
    have hdigit : word.any isAsciiDigit = true := by
      obtain ⟨ch, hch⟩ := exists_mem_of_ne_nil word hne
      exact any_eq_true.mpr ⟨ch, hch, hall ch hch⟩
    refine ⟨hword, ?_⟩
    have hnone : word.any (· = 46) = false := by
      rw [any_eq_false]
      intro ch hch heq
      exact hpoint (of_decide_eq_true heq ▸ hch)
    simp [readWord_number hletter hdigit, hnone, numberToken, hvalue]
  | @float f whole fraction hwhole hfraction hdigits hvalue =>
    rw [List.all_append, Bool.and_eq_true] at hdigits
    have hfirst := all_eq_true.mp hdigits.1
    have hlast := all_eq_true.mp hdigits.2
    have hbytes : ∀ ch ∈ whole ++ 46 :: fraction, isAsciiDigit ch = true ∨ ch = 46 := by
      intro ch hch
      obtain hch | hch := mem_append.mp hch
      · exact .inl (hfirst ch hch)
      · obtain rfl | hch := mem_cons.mp hch
        · exact .inr rfl
        · exact .inl (hlast ch hch)
    have hend : (whole ++ 46 :: fraction).getLast? ≠ some 46 := by
      rw [List.getLast?_append, List.getLast?_cons, List.getLast?_eq_some_getLast hfraction]
      intro heq
      have hmem := hlast _ (getLast_mem hfraction)
      rw [show fraction.getLast hfraction = 46 from Option.some.inj heq] at hmem
      exact absurd hmem (by decide)
    obtain ⟨hword, hletter⟩ := isWord_number (by simp) hbytes hend
    obtain ⟨ch, hch⟩ := exists_mem_of_ne_nil whole hwhole
    have hdigit : (whole ++ 46 :: fraction).any isAsciiDigit = true :=
      any_eq_true.mpr ⟨ch, mem_append_left _ hch, hfirst ch hch⟩
    have hpoint : (whole ++ 46 :: fraction).any (· = 46) = true :=
      any_eq_true.mpr ⟨46, mem_append_right _ (mem_cons_self ..), rfl⟩
    refine ⟨hword, ?_⟩
    simp [readWord_number hletter hdigit, hpoint, numberToken, hvalue]
  | _ => cases htoken

/-! ## Reading one token -/

/-- The bytes that end a word and stand for themselves. -/
def isDelimiter (ch : UInt8) : Bool :=
  [32, 13, 10, 34, 39, 38, 124, 33, 94, 43, 42, 47, 45, 61, 62, 60, 44, 91, 93, 40, 41].contains ch

theorem delimiter_byte (ch : UInt8) : isDelimiter ch = true →
    isLetter ch = false ∧ isAsciiDigit ch = false ∧ ch ≠ 46 ∧ ch ≠ 58 ∧ ch ≠ 125 := by
  simp only [isDelimiter, contains_eq_mem, mem_cons, not_mem_nil, or_false,
    decide_eq_true_eq, Bool.eq_false_iff, ne_eq, isLetter_iff, isAsciiDigit_iff,
    ← UInt8.toNat_inj, UInt8.reduceToNat]
  omega

theorem isDelimiter_of_isBlank (ch : UInt8) (h : isBlank ch = true) : isDelimiter ch = true := by
  simp only [isBlank, Bool.or_eq_true, decide_eq_true_eq] at h
  rcases h with (rfl | rfl) | rfl <;> rfl

theorem word_byte (ch : UInt8) : isWordByte ch = true →
    (isLetter ch = true ∧ isAsciiDigit ch = false ∧ ch ≠ 46) ∨
      (isLetter ch = false ∧ isAsciiDigit ch = true ∧ ch ≠ 46) ∨
      (isLetter ch = false ∧ isAsciiDigit ch = false ∧ ch = 46) := by
  simp only [isWordByte, Bool.or_eq_true, decide_eq_true_eq, Bool.eq_false_iff, ne_eq,
    isLetter_iff, isAsciiDigit_iff, ← UInt8.toNat_inj, UInt8.reduceToNat]
  omega

namespace Tokenizer

def standing (map : TokenMap) (isStart : Bool) (depth : Nat) (text : List UInt8) : Tokenizer :=
  { new text map with isStart := isStart, depth := depth }

theorem push_wordByte (tk : Tokenizer) (h : isWordByte ch = true) :
    tk.push ch = some { tk with
      buf := tk.buf ++ [ch], hasAlpha := tk.hasAlpha || isLetter ch,
      hasNumber := tk.hasNumber || isAsciiDigit ch, hasDot := tk.hasDot || decide (ch = 46) } := by
  obtain ⟨hletter, hdigit, hpoint⟩ | ⟨hletter, hdigit, hpoint⟩ | ⟨hletter, hdigit, hpoint⟩ :=
    word_byte ch h
  · rw [push, if_pos (of_decide_eq_true hletter), hletter, hdigit, decide_eq_false hpoint]
    simp
  · rw [push, if_neg (of_decide_eq_false hletter), if_pos hdigit, hletter, hdigit,
      decide_eq_false hpoint]
    simp
  · rw [push, if_neg (of_decide_eq_false hletter), hdigit, if_neg Bool.false_ne_true,
      if_pos hpoint, hletter, decide_eq_true hpoint]
    simp

theorem push_delimiter {tk : Tokenizer} (hch : isDelimiter ch = true)
    (hbytes : tk.buf.all isWordByte = true) (hlast : tk.buf.getLast? ≠ some 46) :
    tk.push ch = none := by
  obtain ⟨hletter, hdigit, hpoint, hcolon, -⟩ := delimiter_byte ch hch
  have hbracket : (91 : UInt8) ∉ tk.buf := fun hmem =>
    absurd (all_eq_true.mp hbytes 91 hmem) (by decide)
  have hlast' : tk.buf.getLast? ≠ some 91 := fun h => hbracket (List.mem_of_getLast? h)
  rw [push, if_neg (of_decide_eq_false hletter), hdigit, if_neg Bool.false_ne_true,
    if_neg hpoint, if_neg]
  rintro (⟨-, h⟩ | ⟨h, -⟩ | ⟨-, h⟩ | ⟨-, h | h⟩)
  · exact hlast' h
  · exact hcolon h
  · exact hbracket (contains_iff_mem.mp h)
  · exact hlast' h
  · exact hlast h

theorem scan_word (ext : Externals) (tk : Tokenizer) (h : word.all isWordByte = true)
    (rest : List UInt8) :
    tk.scan ext (word ++ rest) = { tk with
      buf := tk.buf ++ word, hasAlpha := tk.hasAlpha || word.any isLetter,
      hasNumber := tk.hasNumber || word.any isAsciiDigit,
      hasDot := tk.hasDot || word.any fun ch => decide (ch = 46) }.scan ext rest := by
  induction word generalizing tk with
  | nil => simp
  | cons ch word ih =>
    rw [all_cons, Bool.and_eq_true] at h
    rw [cons_append, scan, push_wordByte tk h.1]
    dsimp only
    rw [ih _ h.2]
    simp [Bool.or_assoc]

variable {map : TokenMap}

theorem symbol_standing {isStart : Bool} {depth : Nat} {token : Option Token}
    {tk : Tokenizer} (h : (standing map isStart depth rest).symbol ch = .ok (token, tk)) :
    ∃ depth' rest', tk = standing map isStart depth' rest' ∧
      (token = none → depth' = depth ∧ rest' = rest) := by
  unfold symbol at h
  split at h
  · cases h
    exact ⟨depth, _, rfl, nofun⟩
  · split_ifs at h
    · cases h
      exact ⟨_, rest, rfl, nofun⟩
    · cases h
    · cases h
      exact ⟨_, rest, rfl, nofun⟩
    · cases h
      exact ⟨depth, rest, rfl, fun _ => ⟨rfl, rfl⟩⟩
    · obtain ⟨⟨_, _⟩, -, h⟩ := bind_eq_ok.mp h
      cases h
      exact ⟨depth, _, rfl, nofun⟩

theorem scan_delimiter (ext : Externals) {tk : Tokenizer} (hpush : tk.push ch = none)
    (hbrace : ch ≠ 125) (rest : List UInt8) :
    tk.scan ext (ch :: rest) = match { tk with iter := rest }.delimit ext ch with
      | .error e => .error e
      | .ok (some token, tk) => .ok (some token, tk)
      | .ok (none, tk) => tk.scan ext rest := by
  rw [scan, hpush]
  exact if_neg hbrace

/-- What is yielded of a byte and of the word before it, if there is one. -/
def delimited (prev : Option Token) : Option Token × Tokenizer → Option Token × Tokenizer
  | (none, tk) => (prev, tk)
  | (some token, tk) =>
    match prev with
    | some prev =>
      (some prev, { tk with isStart := token.isStart, nextToken := token :: tk.nextToken })
    | none => (some token, { tk with isStart := token.isStart })

theorem delimit_of_prevToken {ext : Externals} {tk tk' : Tokenizer} {prev : Option Token}
    (h : tk.prevToken ext ch = .ok (prev, tk')) :
    tk.delimit ext ch = (tk'.symbol ch).map (delimited prev) := by
  rw [delimit, h]
  show tk'.symbol ch >>= _ = _
  cases tk'.symbol ch with
  | error e => rfl
  | ok read =>
    obtain ⟨token, tk''⟩ := read
    cases token <;> cases prev <;> rfl

theorem next_delimiter (ext : Externals) (map : TokenMap) (isStart : Bool) (depth : Nat)
    (h : isDelimiter ch = true) (rest : List UInt8) :
    (standing map isStart depth (ch :: rest)).next ext =
      match (standing map isStart depth rest).symbol ch with
      | .error e => .error e
      | .ok (none, tk) => tk.scan ext rest
      | .ok (some token, tk) => .ok (some token, { tk with isStart := token.isStart }) := by
  obtain ⟨-, -, -, -, hbrace⟩ := delimiter_byte ch h
  have hpush : (standing map isStart depth (ch :: rest)).push ch = none :=
    push_delimiter h rfl nofun
  have hprev : (standing map isStart depth rest).prevToken ext ch =
      .ok (none, standing map isStart depth rest) := if_pos rfl
  refine (scan_delimiter ext hpush hbrace rest).trans ?_
  have hdelimit : { standing map isStart depth (ch :: rest) with iter := rest }.delimit ext ch = _ :=
    delimit_of_prevToken hprev
  rw [hdelimit]
  cases (standing map isStart depth rest).symbol ch with
  | error e => rfl
  | ok read =>
    obtain ⟨token, tk⟩ := read
    cases token <;> rfl

def afterWord (map : TokenMap) (isStart : Bool) (depth : Nat) (word rest : List UInt8) :
    Tokenizer :=
  { standing map isStart depth rest with
    buf := word
    hasAlpha := word.any isLetter
    hasNumber := word.any isAsciiDigit
    hasDot := word.any fun ch => decide (ch = 46) }

theorem afterWord_buf (map : TokenMap) (isStart : Bool) (depth : Nat) (word rest : List UInt8) :
    (afterWord map isStart depth word rest).buf = word := rfl

theorem scan_afterWord (ext : Externals) (map : TokenMap) (isStart : Bool) (depth : Nat)
    (h : word.all isWordByte = true) (text rest : List UInt8) :
    (standing map isStart depth text).scan ext (word ++ rest) =
      (afterWord map isStart depth word text).scan ext rest := by
  rw [scan_word ext _ h]
  rfl

theorem parseBuf_afterWord (hread : readWord map word = .ok token) (isStart : Bool)
    (depth : Nat) (rest : List UInt8) :
    (afterWord map isStart depth word rest).parseBuf = .ok (token, standing map isStart depth rest) := by
  unfold readWord at hread
  show (if (word.any isAsciiDigit && !word.any isLetter) = true then _ else _) = _
  split at hread
  · rename_i hnumber
    rw [if_pos hnumber]
    rw [Bool.and_eq_true, Bool.not_eq_true'] at hnumber
    show numberToken (word.any fun ch => decide (ch = 46)) word >>= _ = _
    rw [hread]
    unfold afterWord
    rw [hnumber.2]
    rfl
  · rename_i hnumber
    rw [if_neg hnumber]
    show map.wordToken (!word.any isAsciiDigit && !word.any fun ch => decide (ch = 46)) word >>= _ = _
    rw [hread]
    rfl

theorem next_word (ext : Externals) (hword : IsWord word)
    (hread : readWord map word = .ok token) (isStart : Bool) (depth : Nat)
    (h : isDelimiter ch = true) (rest : List UInt8) :
    (standing map isStart depth (word ++ ch :: rest)).next ext =
      ((standing map false depth rest).symbol ch).map (delimited (some token)) := by
  obtain ⟨-, -, -, -, hbrace⟩ := delimiter_byte ch h
  have hpush : (afterWord map isStart depth word (word ++ ch :: rest)).push ch = none :=
    push_delimiter h hword.bytes hword.last
  have hprev : (afterWord map isStart depth word rest).prevToken ext ch =
      .ok (some token, standing map false depth rest) := by
    have hplain (name : List UInt8) (hname : name ∈ [utf8 "matches", utf8 "metric", utf8 "system"]) :
        ¬ (ch = 40 ∧ word = name) := fun heq => hword.plain (heq.2 ▸ hname)
    have hparse : (afterWord map false depth word rest).parseBuf = _ :=
      parseBuf_afterWord hread false depth rest
    unfold prevToken
    rw [afterWord_buf, if_neg hword.ne_nil, if_neg (hplain _ (by simp)), if_neg (hplain _ (by simp)),
      if_neg (hplain _ (by simp))]
    show (afterWord map false depth word rest).parseBuf >>= _ = _
    rw [hparse]
    rfl
  refine (scan_afterWord ext map isStart depth hword.bytes _ _).trans ?_
  refine (scan_delimiter ext hpush hbrace rest).trans ?_
  have hdelimit : { afterWord map isStart depth word (word ++ ch :: rest) with
      iter := rest }.delimit ext ch = _ := delimit_of_prevToken hprev
  rw [hdelimit]
  cases (standing map false depth rest).symbol ch with
  | error e => rfl
  | ok read =>
    obtain ⟨own, tk⟩ := read
    cases own <;> rfl

theorem next_lastWord (ext : Externals) (hword : IsWord word)
    (hread : readWord map word = .ok token) (isStart : Bool) (depth : Nat) :
    (standing map isStart depth word).next ext =
      if 0 < depth then fail "Unmatched open parenthesis"
      else .ok (some token, standing map isStart depth []) := by
  have hscan := scan_afterWord ext map isStart depth hword.bytes word []
  rw [List.append_nil] at hscan
  refine hscan.trans ?_
  show (afterWord map isStart depth word []).finish = _
  unfold finish
  rw [afterWord_buf, if_pos hword.ne_nil, parseBuf_afterWord hread]
  rfl

end Tokenizer

/-! ## Reading all tokens -/

open Tokenizer (standing delimited)

section Lexes

variable {ext : Externals} {tk tk' : Tokenizer} {tokens : List Token}

theorem not_lexes_of_error {e : Imap.Message} (h : tk.next ext = .error e) :
    ¬ Lexes ext tk tokens := by
  intro hlexes
  cases hlexes with
  | done h' | token h' => cases h.symm.trans h'

theorem lexes_none (h : tk.next ext = .ok (none, tk')) : Lexes ext tk tokens ↔ tokens = [] := by
  constructor
  · intro hlexes
    cases hlexes with
    | done => rfl
    | token h' => cases h.symm.trans h'
  · rintro rfl
    exact .done h

theorem lexes_some (h : tk.next ext = .ok (some token, tk')) :
    Lexes ext tk tokens ↔ ∃ rest, tokens = token :: rest ∧ Lexes ext tk' rest := by
  constructor
  · intro hlexes
    cases hlexes with
    | done h' => cases h.symm.trans h'
    | token h' hrest =>
      cases h.symm.trans h'
      exact ⟨_, rfl, hrest⟩
  · rintro ⟨rest, rfl, hrest⟩
    exact .token h hrest

theorem lexes_congr (h : tk.next ext = tk'.next ext) : Lexes ext tk tokens ↔ Lexes ext tk' tokens := by
  constructor
  · intro hlexes
    cases hlexes with
    | done h' => exact .done (h.symm.trans h')
    | token h' hrest => exact .token (h.symm.trans h') hrest
  · intro hlexes
    cases hlexes with
    | done h' => exact .done (h.trans h')
    | token h' hrest => exact .token (h.trans h') hrest

variable {map : TokenMap} {isStart : Bool} {depth : Nat}

theorem next_end : (standing map isStart depth []).next ext =
    if 0 < depth then fail "Unmatched open parenthesis"
    else .ok (none, standing map isStart depth []) := rfl

theorem lexes_end : Lexes ext (standing map isStart depth []) tokens ↔ depth = 0 ∧ tokens = [] := by
  obtain rfl | hdepth := Nat.eq_zero_or_pos depth
  · rw [lexes_none next_end]
    exact (and_iff_right rfl).symm
  · have hnext := (@next_end ext map isStart depth).trans (if_pos hdepth)
    exact iff_of_false (not_lexes_of_error hnext) fun h => absurd h.1 hdepth.ne'

theorem lexes_word (hword : IsWord word) (hread : readWord map word = .ok token)
    (hrest : ∀ ch ∈ rest.head?, isDelimiter ch = true) :
    Lexes ext (standing map isStart depth (word ++ rest)) tokens ↔
      ∃ more, tokens = token :: more ∧ Lexes ext (standing map false depth rest) more := by
  cases rest with
  | nil =>
    have hnext := Tokenizer.next_lastWord ext hword hread isStart depth
    rw [List.append_nil]
    obtain rfl | hdepth := Nat.eq_zero_or_pos depth
    · rw [lexes_some hnext]
      simp [lexes_end]
    · refine iff_of_false (not_lexes_of_error (hnext.trans (if_pos hdepth))) ?_
      rintro ⟨more, -, hmore⟩
      exact absurd (lexes_end.mp hmore).1 hdepth.ne'
  | cons ch rest =>
    have hch := hrest ch rfl
    have hnext := Tokenizer.next_word ext hword hread isStart depth hch rest
    have hdelimiter := Tokenizer.next_delimiter ext map false depth hch rest
    cases hsymbol : (standing map false depth rest).symbol ch with
    | error e =>
      rw [hsymbol] at hnext hdelimiter
      refine iff_of_false (not_lexes_of_error hnext) ?_
      rintro ⟨more, -, hmore⟩
      exact not_lexes_of_error hdelimiter hmore
    | ok read =>
      obtain ⟨own, tk⟩ := read
      rw [hsymbol] at hnext hdelimiter
      obtain ⟨depth', rest', rfl, hnone⟩ := Tokenizer.symbol_standing hsymbol
      cases own with
      | none =>
        obtain ⟨rfl, rfl⟩ := hnone rfl
        rw [lexes_some hnext]
        exact exists_congr fun more => and_congr_right fun _ => lexes_congr hdelimiter.symm
      | some own =>
        rw [lexes_some hnext]
        exact exists_congr fun more => and_congr_right fun _ => lexes_congr hdelimiter.symm

theorem lexes_symbol (hch : isDelimiter ch = true) {own : Token} {depth' : Nat}
    (h : (standing map isStart depth text).symbol ch =
      .ok (some own, standing map isStart depth' rest)) :
    Lexes ext (standing map isStart depth (ch :: text)) tokens ↔
      ∃ more, tokens = own :: more ∧ Lexes ext (standing map own.isStart depth' rest) more := by
  have hnext := Tokenizer.next_delimiter ext map isStart depth hch text
  rw [h] at hnext
  exact lexes_some hnext

theorem lexes_gap {gap : List UInt8} (h : gap.all isBlank = true) :
    Lexes ext (standing map isStart depth (gap ++ text)) tokens ↔
      Lexes ext (standing map isStart depth text) tokens := by
  induction gap with
  | nil => exact Iff.rfl
  | cons ch gap ih =>
    rw [all_cons, Bool.and_eq_true] at h
    rw [← ih h.2]
    apply lexes_congr
    have hblank : ch = 32 ∨ ch = 13 ∨ ch = 10 := by
      simpa [isBlank, or_assoc] using h.1
    have hch : isDelimiter ch = true := by
      rcases hblank with rfl | rfl | rfl <;> rfl
    have hsymbol : (standing map isStart depth (gap ++ text)).symbol ch =
        .ok (none, standing map isStart depth (gap ++ text)) := by
      rcases hblank with rfl | rfl | rfl <;> rfl
    have hnext := Tokenizer.next_delimiter ext map isStart depth hch (gap ++ text)
    rw [hsymbol] at hnext
    exact hnext

end Lexes

/-! ## Texts that spell tokens -/

theorem readString_plain {stop last : UInt8} (hlast : last ≠ 92) (hstop : stop ∉ text)
    (hbackslash : 92 ∉ text) (buf rest : List UInt8) :
    readString stop last buf (text ++ stop :: rest) = .ok (buf ++ text, rest) := by
  induction text generalizing last buf with
  | nil => simp [readString, hlast]
  | cons ch text ih =>
    have hne : ch ≠ stop := fun h => hstop (h ▸ mem_cons_self ..)
    have hch : ch ≠ 92 := fun h => hbackslash (h ▸ mem_cons_self ..)
    rw [cons_append, readString, if_neg hlast, if_neg hne, ih hch (fun h => hstop (mem_cons_of_mem _ h))
        (fun h => hbackslash (mem_cons_of_mem _ h)), append_assoc]
    rfl

theorem parseString_plain {stop : UInt8} {s : String} (hstop : stop ∉ utf8 s) (hbackslash : 92 ∉ utf8 s)
    (rest : List UInt8) : parseString stop (utf8 s ++ stop :: rest) = .ok (s, rest) := by
  rw [parseString, readString_plain (by decide) hstop hbackslash, nil_append]
  simp only [bind, Except.bind, Imap.fromUtf8_utf8]
  rfl

theorem Spells.symbol (h : Spells map token text) (htoken : token.isWord = false)
    (hends : token.Ends rest) (isStart : Bool) (depth : Nat) :
    ∃ ch more, text = ch :: more ∧ isDelimiter ch = true ∧
      match depthStep depth token with
      | none => ∃ e, (standing map isStart depth (more ++ rest)).symbol ch = .error e
      | some depth' => (standing map isStart depth (more ++ rest)).symbol ch =
          .ok (some (token.reread isStart), standing map isStart depth' rest) := by
  cases h with
  | @string s quote hquote hfree hbackslash =>
    refine ⟨quote, _, rfl, by rcases hquote with rfl | rfl <;> rfl, ?_⟩
    have hsymbol : (standing map isStart depth (utf8 s ++ quote :: rest)).symbol quote =
        parseString quote (utf8 s ++ quote :: rest) >>= fun read =>
          .ok (some (.constant (.string read.1)), standing map isStart depth read.2) := by
      rcases hquote with rfl | rfl <;> rfl
    rw [append_assoc, singleton_append, hsymbol, parseString_plain hfree hbackslash]
    rfl
  | binaryOperator op =>
    cases op with
    | lt | gt =>
      have hsymbol (ch : UInt8) (longer own : BinaryOperator)
          (h : (standing map isStart depth rest).symbol ch =
            .ok (some (.binaryOperator (if rest.head? = some 61 then longer else own)),
              standing map isStart depth (Tokenizer.skip 61 rest))) :
          (standing map isStart depth rest).symbol ch =
            .ok (some (.binaryOperator own), standing map isStart depth rest) := by
        rwa [if_neg hends, Tokenizer.skip, if_neg hends] at h
      exact ⟨_, [], rfl, rfl, hsymbol _ _ _ rfl⟩
    | _ => exact ⟨_, _, rfl, rfl, rfl⟩
  | unaryOperator op =>
    cases op with
    | not =>
      have hsymbol : (standing map isStart depth rest).symbol 33 =
          .ok (some (if rest.head? = some 61 then .binaryOperator .ne else .unaryOperator .not),
            standing map isStart depth (Tokenizer.skip 61 rest)) := rfl
      rw [if_neg hends, Tokenizer.skip, if_neg hends] at hsymbol
      exact ⟨33, [], rfl, rfl, hsymbol⟩
    | minus => exact ⟨45, [], rfl, rfl, rfl⟩
  | openParen => exact ⟨40, [], rfl, rfl, rfl⟩
  | closeParen =>
    refine ⟨41, [], rfl, rfl, ?_⟩
    rw [depthStep]
    by_cases hdepth : depth = 0
    · rw [if_pos hdepth]
      subst hdepth
      exact ⟨_, rfl⟩
    · rw [if_neg hdepth]
      exact if_neg hdepth
  | openBracket => exact ⟨91, [], rfl, rfl, rfl⟩
  | closeBracket => exact ⟨93, [], rfl, rfl, rfl⟩
  | comma => exact ⟨44, [], rfl, rfl, rfl⟩
  | _ => cases htoken

theorem Renders.head {tokens : List Token} (h : Renders map tokens text) :
    ∀ ch ∈ text.head?, isWordByte ch = true ∨ isDelimiter ch = true := by
  have hgap {gap text : List UInt8} (hgap : gap.all isBlank = true)
      (htext : ∀ ch ∈ text.head?, isWordByte ch = true ∨ isDelimiter ch = true) :
      ∀ ch ∈ (gap ++ text).head?, isWordByte ch = true ∨ isDelimiter ch = true := by
    cases gap with
    | nil => exact htext
    | cons first gap =>
      rw [all_cons, Bool.and_eq_true] at hgap
      rintro ch ⟨⟩
      exact .inr (isDelimiter_of_isBlank first hgap.1)
  cases h with
  | done hblank =>
    rw [← text.append_nil]
    exact hgap hblank nofun
  | @token gap word rest token tokens hblank hword hends hrest =>
    refine hgap hblank ?_
    cases htoken : token.isWord with
    | true =>
      obtain ⟨hisWord, -⟩ := hword.readWord htoken
      obtain ⟨ch, word, rfl⟩ := exists_cons_of_ne_nil hisWord.ne_nil
      rintro ch ⟨⟩
      exact .inl (all_eq_true.mp hisWord.bytes _ (mem_cons_self ..))
    | false =>
      obtain ⟨ch, more, rfl, hch, -⟩ := hword.symbol htoken hends false 0
      rintro ch ⟨⟩
      exact .inr hch

theorem Token.reread_word (h : token.isWord = true) (isStart : Bool) (depth : Nat) :
    token.reread isStart = token ∧ token.isStart = false ∧ depthStep depth token = some depth := by
  cases token <;> first | exact ⟨rfl, rfl, rfl⟩ | cases h

theorem Token.ends_word (h : token.isWord = true) (hends : token.Ends rest) :
    ∀ ch ∈ rest.head?, isWordByte ch = false := by
  cases token with
  | var | function => exact hends
  | constant c =>
    cases c with
    | string => cases h
    | _ => exact hends
  | _ => cases h

theorem lexes_iff_of_renders {ext : Externals} {tokens : List Token}
    (h : Renders map tokens text) (isStart : Bool) (depth : Nat) (read : List Token) :
    Lexes ext (standing map isStart depth text) read ↔
      depthAfter depth tokens = some 0 ∧ read = reread isStart tokens := by
  have hcons {token : Token} {p : Prop} {tokens : List Token} (read : List Token) :
      (∃ more, read = token :: more ∧ p ∧ more = tokens) ↔ p ∧ read = token :: tokens := by
    constructor
    · rintro ⟨more, rfl, hp, rfl⟩
      exact ⟨hp, rfl⟩
    · rintro ⟨hp, rfl⟩
      exact ⟨_, rfl, hp, rfl⟩
  induction h generalizing isStart depth read with
  | @done gap hgap =>
    rw [← gap.append_nil, lexes_gap hgap, lexes_end]
    exact and_congr_left' Option.some_inj.symm
  | @token gap word rest token tokens hgap hword hends hrest ih =>
    rw [lexes_gap hgap, depthAfter, foldlM_cons, reread]
    cases htoken : token.isWord with
    | true =>
      obtain ⟨hisWord, hread⟩ := hword.readWord htoken
      obtain ⟨hreread, hstart, hdepth⟩ := token.reread_word htoken isStart depth
      have hbreak : ∀ ch ∈ rest.head?, isDelimiter ch = true := by
        intro ch hch
        obtain hbyte | hdelimiter := hrest.head ch hch
        · rw [token.ends_word htoken hends ch hch] at hbyte
          cases hbyte
        · exact hdelimiter
      rw [lexes_word hisWord hread hbreak, hdepth, hreread, hstart]
      simp only [ih]
      exact hcons read
    | false =>
      obtain ⟨ch, more, rfl, hch, hsymbol⟩ := hword.symbol htoken hends isStart depth
      rw [cons_append]
      cases hdepth : depthStep depth token with
      | none =>
        rw [hdepth] at hsymbol
        obtain ⟨e, he⟩ := hsymbol
        have hnext := Tokenizer.next_delimiter ext map isStart depth hch (more ++ rest)
        rw [he] at hnext
        exact iff_of_false (not_lexes_of_error hnext) nofun
      | some depth' =>
        rw [hdepth] at hsymbol
        rw [lexes_symbol hch hsymbol]
        simp only [ih]
        exact hcons read

end Bearmail.Expr
