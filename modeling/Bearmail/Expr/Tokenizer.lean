import Bearmail.Expr.Value
import Bearmail.Lib.Fallible
import Mathlib.Data.Nat.Basic
import Mathlib.Order.Basic

/-!
# The tokenizer of expressions

`Tokenizer` of `common/src/expr/tokenizer.rs`, reading the bytes of a text. The
expressions of `matches` and the names of `metric` are checked by other crates
and by a generated table, which are parameters.
-/

namespace Bearmail.Expr

open Imap (utf8 fromUtf8 fromStr isAsciiDigit Result fail)
open List

open Fallible (bind_eq_ok)

/-- What the tokenizer asks of `regex` and of the table of metrics. -/
structure Externals where
  isRegex : String → Bool
  isMetric : List UInt8 → Bool

structure TokenMap where
  allowedVariables : List ExpressionVariable
  allowedConstants : List ExpressionConstant

def TokenMap.default : TokenMap := ⟨[], []⟩

structure Tokenizer where
  iter : List UInt8
  tokenMap : TokenMap
  buf : List UInt8
  depth : Nat
  nextToken : List Token
  hasNumber : Bool
  hasDot : Bool
  hasAlpha : Bool
  isStart : Bool
  isEof : Bool

/-! ## Texts in quotes -/

def isAsciiWhitespace (ch : UInt8) : Bool := ch = 32 || ch = 9 || ch = 10 || ch = 12 || ch = 13

def findChar (chars : List UInt8) : List UInt8 → Result (UInt8 × List UInt8)
  | [] => fail "Unexpected end of expression"
  | ch :: iter =>
    if isAsciiWhitespace ch then findChar chars iter
    else if chars.contains ch then .ok (ch, iter)
    else .error [.text "Expected ", .char (chars.headD 0), .text ", found invalid character ", .char ch]

def unescaped (ch : UInt8) : UInt8 :=
  if ch = 110 then 10 else if ch = 114 then 13 else if ch = 116 then 9 else ch

/-- The loop of `parse_string`, which keeps the backslash of an escape. -/
def readString (stopCh lastCh : UInt8) (buf : List UInt8) : List UInt8 → Result (List UInt8 × List UInt8)
  | [] => fail "Unterminated string"
  | ch :: iter =>
    if lastCh = 92 then readString stopCh ch (buf ++ [unescaped ch]) iter
    else if ch = stopCh then .ok (buf, iter)
    else readString stopCh ch (buf ++ [ch]) iter

def parseString (stopCh : UInt8) (iter : List UInt8) : Result (String × List UInt8) := do
  let (buf, iter) ← readString stopCh 0 [] iter
  match fromUtf8 buf with
  | some s => return (s, iter)
  | none => fail "Invalid UTF-8"

/-! ## Words -/

def parseDuration (text : List UInt8) : Option Nat :=
  let value := text.filter fun ch => !isAsciiWhitespace ch
  let digits := value.takeWhile isAsciiDigit
  let multiplier := lower (value.dropWhile isAsciiDigit)
  let factor : Option Nat :=
    if multiplier = utf8 "d" then some (24 * 60 * 60 * 1000)
    else if multiplier = utf8 "h" then some (60 * 60 * 1000)
    else if multiplier = utf8 "m" then some (60 * 1000)
    else if multiplier = utf8 "s" then some 1000
    else if multiplier = utf8 "ms" ∨ multiplier = [] then some 1
    else none
  do
    let factor ← factor
    let num ← fromStr 64 digits
    if num * factor < 2 ^ 64 then some (num * factor) else none

/-- The functions by name: their number and how many arguments they take. -/
def findFunction (buf : List UInt8) : Option (String × Nat × Nat) :=
  match functions.zipIdx.find? fun entry => utf8 entry.1.1 == buf with
  | some ((name, numArgs), fnc) => some (name, fnc, numArgs)
  | none =>
    (asyncFunctions.find? fun entry => utf8 entry.1 == buf).map fun entry =>
      (entry.1, entry.2.1 + functions.length, entry.2.2)

def globalName (buf : List UInt8) : Option (List UInt8) :=
  if buf.head? = some 36 ∧ buf.tail ≠ [] then some buf.tail else none

def numberToken (hasDot : Bool) (buf : List UInt8) : Result Token :=
  if hasDot then
    match parseF64 buf with
    | some f => .ok (.constant (.float f))
    | none => .error [.text "Invalid float value ", .lossy buf]
  else
    match parseI64 buf with
    | some n => .ok (.constant (.integer n))
    | none => .error [.text "Invalid integer value ", .lossy buf]

def TokenMap.variableToken (map : TokenMap) (buf : List UInt8) (v : ExpressionVariable) :
    Result Token :=
  if map.allowedVariables.isEmpty || map.allowedVariables.contains v then .ok (.var v)
  else .error [.text "Variable ", .quoted buf, .text " not allowed in this context"]

def TokenMap.constantToken (map : TokenMap) (buf : List UInt8) (c : ExpressionConstant) :
    Result Token :=
  if map.allowedConstants.isEmpty || map.allowedConstants.contains c then .ok (.constant (.static c))
  else .error [.text "Constant ", .quoted buf, .text " not allowed in this context"]

def TokenMap.wordToken (map : TokenMap) (plain : Bool) (buf : List UInt8) : Result Token :=
  if plain && buf = utf8 "true" then .ok (.constant (.integer 1))
  else if plain && buf = utf8 "false" then .ok (.constant (.integer 0))
  else
    match globalName buf with
    | some name =>
      if name.all isAsciiDigit then
        match fromStr 32 name with
        | some n => .ok (.capture n)
        | none => .ok (.global name)
      else .ok (.global name)
    | none =>
      match findFunction buf with
      | some (name, fnc, numArgs) => .ok (.function name fnc numArgs)
      | none =>
        match ExpressionVariable.parse buf with
        | some v => map.variableToken buf v
        | none =>
          match ExpressionConstant.parse buf with
          | some c => map.constantToken buf c
          | none =>
            match parseDuration buf with
            | some millis => .ok (.constant (.integer (Int64.ofNat millis)))
            | none => .error [.text "Invalid variable or constant ", .quoted buf]

namespace Tokenizer

def new (expr : List UInt8) (tokenMap : TokenMap) : Tokenizer where
  iter := expr
  tokenMap := tokenMap
  buf := []
  depth := 0
  nextToken := []
  hasNumber := false
  hasDot := false
  hasAlpha := false
  isStart := true
  isEof := false

def parseBuf (tk : Tokenizer) : Result (Token × Tokenizer) :=
  if tk.hasNumber && !tk.hasAlpha then do
    let token ← numberToken tk.hasDot tk.buf
    return (token, { tk with buf := [], hasNumber := false, hasDot := false })
  else do
    let token ← tk.tokenMap.wordToken (!tk.hasNumber && !tk.hasDot) tk.buf
    return (token, { tk with buf := [], hasAlpha := false, hasNumber := false, hasDot := false })

def push (tk : Tokenizer) (ch : UInt8) : Option Tokenizer :=
  if (65 ≤ ch ∧ ch ≤ 90) ∨ (97 ≤ ch ∧ ch ≤ 122) ∨ ch = 95 ∨ ch = 36 then
    some { tk with buf := tk.buf ++ [ch], hasAlpha := true }
  else if isAsciiDigit ch then some { tk with buf := tk.buf ++ [ch], hasNumber := true }
  else if ch = 46 then some { tk with buf := tk.buf ++ [ch], hasDot := true }
  else if (ch = 45 ∧ tk.buf.getLast? = some 91) ∨ (ch = 58 ∧ tk.buf.contains 46) ∨
      (ch = 93 ∧ tk.buf.contains 91) ∨
      (ch = 42 ∧ (tk.buf.getLast? = some 91 ∨ tk.buf.getLast? = some 46)) then
    some { tk with buf := tk.buf ++ [ch] }
  else none

def systemVariable (name : String) : Result SystemVariable :=
  if name = "domain" then .ok .domain
  else if name = "hostname" then .ok .hostname
  else if name = "node_id" then .ok .nodeId
  else if name = "node_hostname" then .ok .nodeHostname
  else if name = "node_role" then .ok .nodeRole
  else .error [.text "Invalid system variable name ", .quoted (utf8 name)]

/-- The string after `matches(`, `metric(` and `system(`. -/
def quotedArgument (tk : Tokenizer) : Result (String × Tokenizer) := do
  let (stopCh, iter) ← findChar [34, 39] tk.iter
  let (s, iter) ← parseString stopCh iter
  return (s, { tk with iter := iter, hasAlpha := false, buf := [] })

/-- The token of the word before a byte that ends it, if there is one. -/
def prevToken (ext : Externals) (tk : Tokenizer) (ch : UInt8) :
    Result (Option Token × Tokenizer) :=
  if tk.buf = [] then .ok (none, tk)
  else if ch = 40 ∧ tk.buf = utf8 "matches" then do
    let (pattern, tk) ← tk.quotedArgument
    if ext.isRegex pattern then
      let (_, iter) ← findChar [44] tk.iter
      return (some (.regex ⟨pattern⟩), { tk with iter := iter })
    else .error [.text "Invalid regular expression ", .quoted (utf8 pattern)]
  else if ch = 40 ∧ tk.buf = utf8 "metric" then do
    let (name, tk) ← tk.quotedArgument
    if ext.isMetric (utf8 name) then return (some (.system (.metric ⟨utf8 name⟩)), tk)
    else .error [.text "Invalid metric name ", .quoted (utf8 name)]
  else if ch = 40 ∧ tk.buf = utf8 "system" then do
    let (name, tk) ← tk.quotedArgument
    let setting ← systemVariable name
    return (some (.system setting), tk)
  else do
    let (token, tk) ← { tk with isStart := false }.parseBuf
    return (some token, tk)

/-- The rest of the text after a byte that doubles an operator. -/
def skip (ch : UInt8) (iter : List UInt8) : List UInt8 :=
  if iter.head? = some ch then iter.tail else iter

/-- The token of an operator, of a comma or of a bracket, and what is left of the text. -/
def punctuation (isStart : Bool) (ch : UInt8) (iter : List UInt8) : Option (Token × List UInt8) :=
  if ch = 38 then some (.binaryOperator .and, skip 38 iter)
  else if ch = 124 then some (.binaryOperator .or, skip 124 iter)
  else if ch = 33 then
    some (if iter.head? = some 61 then .binaryOperator .ne else .unaryOperator .not, skip 61 iter)
  else if ch = 94 then some (.binaryOperator .xor, iter)
  else if ch = 43 then some (.binaryOperator .add, iter)
  else if ch = 42 then some (.binaryOperator .multiply, iter)
  else if ch = 47 then some (.binaryOperator .divide, iter)
  else if ch = 45 then
    some (if isStart then .unaryOperator .minus else .binaryOperator .subtract, iter)
  else if ch = 61 then
    -- the byte after `=` is taken whatever it is
    some (.binaryOperator (if iter.head? = some 62 then .ge
      else if iter.head? = some 60 then .le else .eq), iter.tail)
  else if ch = 62 then
    some (.binaryOperator (if iter.head? = some 61 then .ge else .gt), skip 61 iter)
  else if ch = 60 then
    some (.binaryOperator (if iter.head? = some 61 then .le else .lt), skip 61 iter)
  else if ch = 44 then some (.comma, iter)
  else if ch = 91 then some (.openBracket, iter)
  else if ch = 93 then some (.closeBracket, iter)
  else none

/-- The token of a byte that is no part of a word, blanks having none. -/
def symbol (tk : Tokenizer) (ch : UInt8) : Result (Option Token × Tokenizer) :=
  match punctuation tk.isStart ch tk.iter with
  | some (token, iter) => .ok (some token, { tk with iter := iter })
  | none =>
    if ch = 40 then .ok (some .openParen, { tk with depth := (tk.depth + 1) % 2 ^ 32 })
    else if ch = 41 then
      if tk.depth = 0 then fail "Unmatched close parenthesis"
      else .ok (some .closeParen, { tk with depth := tk.depth - 1 })
    else if ch = 32 ∨ ch = 13 ∨ ch = 10 then .ok (none, tk)
    else if ch = 34 ∨ ch = 39 then do
      let (s, iter) ← parseString ch tk.iter
      return (some (.constant (.string s)), { tk with iter := iter })
    else .error [.text "Invalid character ", .char ch]

end Tokenizer

def Token.isStart : Token → Bool
  | .openParen | .comma | .binaryOperator _ => true
  | _ => false

namespace Tokenizer

def finish (tk : Tokenizer) : Result (Option Token × Tokenizer) :=
  if 0 < tk.depth then fail "Unmatched open parenthesis"
  else if tk.buf ≠ [] then do
    let (token, tk) ← tk.parseBuf
    return (some token, tk)
  else .ok (none, tk)

/-- What a byte that is no part of a word yields: the word before it, the token of its own, or
nothing after a blank. -/
def delimit (ext : Externals) (tk : Tokenizer) (ch : UInt8) : Result (Option Token × Tokenizer) := do
  let (prev, tk) ← tk.prevToken ext ch
  let (token, tk) ← tk.symbol ch
  match token, prev with
  | none, prev => return (prev, tk)
  | some token, some prev =>
    return (some prev, { tk with isStart := token.isStart, nextToken := token :: tk.nextToken })
  | some token, none => return (some token, { tk with isStart := token.isStart })

def scan (ext : Externals) (tk : Tokenizer) : List UInt8 → Result (Option Token × Tokenizer)
  | [] => { tk with iter := [] }.finish
  | ch :: iter =>
    match tk.push ch with
    | some tk => scan ext tk iter
    | none =>
      if ch = 125 then { tk with iter := iter, isEof := true }.finish
      else
        match { tk with iter := iter }.delimit ext ch with
        | .error e => .error e
        | .ok (some token, tk) => .ok (some token, tk)
        | .ok (none, tk) => scan ext tk iter

def next (ext : Externals) (tk : Tokenizer) : Result (Option Token × Tokenizer) :=
  match tk.nextToken with
  | token :: rest => .ok (some token, { tk with nextToken := rest })
  | [] => if tk.isEof then .ok (none, tk) else tk.scan ext tk.iter

end Tokenizer

/-! ## Progress -/

variable {ch : UInt8} {iter rest : List UInt8} {tk tk' : Tokenizer} {ext : Externals}
  {token : Option Token}

theorem length_findChar {chars : List UInt8} (h : findChar chars iter = .ok (ch, rest)) :
    rest.length ≤ iter.length := by
  induction iter with
  | nil => cases h
  | cons first iter ih =>
    rw [findChar] at h
    split_ifs at h
    · exact Nat.le_succ_of_le (ih h)
    · cases h
      exact Nat.le_succ _

theorem length_readString {stopCh lastCh : UInt8} {buf read : List UInt8}
    (h : readString stopCh lastCh buf iter = .ok (read, rest)) :
    read.length + 1 + rest.length = buf.length + iter.length := by
  induction iter generalizing lastCh buf with
  | nil => cases h
  | cons ch iter ih =>
    rw [readString] at h
    split_ifs at h
    · have hcount := ih h
      simp only [length_append, length_cons, length_nil] at hcount ⊢
      omega
    · cases h
      simp only [length_cons]
      omega
    · have hcount := ih h
      simp only [length_append, length_cons, length_nil] at hcount ⊢
      omega

theorem length_parseString {stopCh : UInt8} {s : String}
    (h : parseString stopCh iter = .ok (s, rest)) : rest.length ≤ iter.length := by
  obtain ⟨⟨buf, rest'⟩, hread, h⟩ := bind_eq_ok.mp h
  dsimp only at h
  split at h
  · cases h
    have hcount := length_readString hread
    rw [length_nil] at hcount
    omega
  · cases h

namespace Tokenizer

/-- The text is only ever read forwards, and `next` keeps a token for later only on its own. -/
structure Advances (tk tk' : Tokenizer) : Prop where
  iter : tk'.iter.length ≤ tk.iter.length
  nextToken : tk'.nextToken = tk.nextToken

theorem Advances.trans {tk'' : Tokenizer} (h : Advances tk tk') (h' : Advances tk' tk'') :
    Advances tk tk'' :=
  ⟨h'.iter.trans h.iter, h'.nextToken.trans h.nextToken⟩

theorem advances_parseBuf {token : Token} (h : tk.parseBuf = .ok (token, tk')) :
    Advances tk tk' ∧ tk'.buf = [] := by
  unfold parseBuf at h
  split at h
  all_goals
    obtain ⟨_, -, h⟩ := bind_eq_ok.mp h
    cases h
    exact ⟨⟨le_rfl, rfl⟩, rfl⟩

theorem advances_quotedArgument {s : String} (h : tk.quotedArgument = .ok (s, tk')) :
    Advances tk tk' ∧ tk'.buf = [] := by
  obtain ⟨⟨stopCh, iter⟩, hfind, h⟩ := bind_eq_ok.mp h
  obtain ⟨⟨s', rest⟩, hparse, h⟩ := bind_eq_ok.mp h
  cases h
  exact ⟨⟨(length_parseString hparse).trans (length_findChar hfind), rfl⟩, rfl⟩

theorem advances_prevToken (h : tk.prevToken ext ch = .ok (token, tk')) :
    Advances tk tk' ∧ tk'.buf = [] := by
  unfold prevToken at h
  split_ifs at h with hbuf hmatches hmetric hsystem
  · cases h
    exact ⟨⟨le_rfl, rfl⟩, hbuf⟩
  · obtain ⟨⟨pattern, tk₁⟩, hquoted, h⟩ := bind_eq_ok.mp h
    dsimp only at h
    split_ifs at h
    obtain ⟨⟨_, iter⟩, hfind, h⟩ := bind_eq_ok.mp h
    cases h
    obtain ⟨hadvances, hbuf⟩ := advances_quotedArgument hquoted
    exact ⟨⟨(length_findChar hfind).trans hadvances.iter, hadvances.nextToken⟩, hbuf⟩
  · obtain ⟨⟨name, tk₁⟩, hquoted, h⟩ := bind_eq_ok.mp h
    dsimp only at h
    split_ifs at h
    cases h
    exact advances_quotedArgument hquoted
  · obtain ⟨⟨name, tk₁⟩, hquoted, h⟩ := bind_eq_ok.mp h
    obtain ⟨_, -, h⟩ := bind_eq_ok.mp h
    cases h
    exact advances_quotedArgument hquoted
  · obtain ⟨⟨_, tk₁⟩, hparse, h⟩ := bind_eq_ok.mp h
    cases h
    obtain ⟨hadvances, hempty⟩ := advances_parseBuf hparse
    exact ⟨⟨hadvances.iter, hadvances.nextToken⟩, hempty⟩

theorem length_skip (ch : UInt8) (iter : List UInt8) : (skip ch iter).length ≤ iter.length := by
  unfold skip
  split
  · exact length_tail.trans_le (Nat.sub_le _ _)
  · exact le_rfl

theorem forall_mem_ite {α : Type} {p : α → Prop} {c : Prop} [Decidable c] {a b : Option α}
    (ha : ∀ x ∈ a, p x) (hb : ∀ x ∈ b, p x) : ∀ x ∈ if c then a else b, p x := by
  split
  · exact ha
  · exact hb

theorem length_punctuation (isStart : Bool) (ch : UInt8) (iter : List UInt8) :
    ∀ read ∈ punctuation isStart ch iter, read.2.length ≤ iter.length := by
  have htail : iter.tail.length ≤ iter.length := length_tail.trans_le (Nat.sub_le _ _)
  repeat' apply forall_mem_ite
  all_goals rintro - ⟨⟩
  all_goals first | exact le_rfl | exact htail | exact length_skip _ _

theorem advances_symbol (h : tk.symbol ch = .ok (token, tk')) : Advances tk tk' ∧ tk'.buf = tk.buf := by
  unfold symbol at h
  split at h
  · rename_i hpunctuation
    cases h
    exact ⟨⟨length_punctuation _ _ _ _ hpunctuation, rfl⟩, rfl⟩
  · split_ifs at h
    · cases h
      exact ⟨⟨le_rfl, rfl⟩, rfl⟩
    · cases h
    · cases h
      exact ⟨⟨le_rfl, rfl⟩, rfl⟩
    · cases h
      exact ⟨⟨le_rfl, rfl⟩, rfl⟩
    · obtain ⟨⟨s, rest⟩, hparse, h⟩ := bind_eq_ok.mp h
      cases h
      exact ⟨⟨length_parseString hparse, rfl⟩, rfl⟩

def size (tk : Tokenizer) : Nat :=
  2 * tk.iter.length + tk.nextToken.length + min 1 tk.buf.length

theorem finish_shrinks {token : Token} (h : tk.finish = .ok (some token, tk')) :
    tk'.size < tk.size := by
  unfold finish at h
  split_ifs at h with hdepth hbuf
  · cases h
  · obtain ⟨⟨_, tk₁⟩, hparse, h⟩ := bind_eq_ok.mp h
    cases h
    obtain ⟨hadvances, hempty⟩ := advances_parseBuf hparse
    have hpos := length_pos_iff.mpr hbuf
    have hiter := hadvances.iter
    simp only [size, hadvances.nextToken, hempty, length_nil]
    omega
  · cases h

theorem delimit_shrinks (h : tk.delimit ext ch = .ok (token, tk')) :
    tk'.buf = [] ∧ tk'.iter.length ≤ tk.iter.length ∧ tk'.nextToken.length ≤ tk.nextToken.length + 1 ∧
      (token = none → tk'.nextToken = tk.nextToken) := by
  obtain ⟨⟨prev, tk₁⟩, hprev, h⟩ := bind_eq_ok.mp h
  obtain ⟨⟨own, tk₂⟩, hsymbol, h⟩ := bind_eq_ok.mp h
  obtain ⟨hadvances₁, hempty⟩ := advances_prevToken hprev
  obtain ⟨hadvances₂, hbuf⟩ := advances_symbol hsymbol
  have hadvances := hadvances₁.trans hadvances₂
  have hlength := congrArg List.length hadvances.nextToken
  have hempty' := hbuf.trans hempty
  rcases own with - | own <;> rcases prev with - | prev <;> cases h
  · exact ⟨hempty', hadvances.iter, by omega, fun _ => hadvances.nextToken⟩
  · exact ⟨hempty', hadvances.iter, by omega, nofun⟩
  · exact ⟨hempty', hadvances.iter, Nat.le_succ_of_le hlength.le, nofun⟩
  · exact ⟨hempty', hadvances.iter, Nat.succ_le_succ hlength.le, nofun⟩

theorem length_push (h : tk.push ch = some tk') : tk'.nextToken = tk.nextToken := by
  unfold push at h
  split_ifs at h <;> cases h <;> rfl

theorem scan_shrinks {token : Token} (h : tk.scan ext iter = .ok (some token, tk')) :
    tk'.size < { tk with iter := iter }.size := by
  induction iter generalizing tk with
  | nil => exact finish_shrinks h
  | cons ch iter ih =>
    rw [scan] at h
    split at h
    · rename_i tk₁ hpush
      have hsmaller := ih h
      simp only [size, length_push hpush, length_cons] at hsmaller ⊢
      omega
    · split at h
      · have hsmaller := finish_shrinks h
        simp only [size, length_cons] at hsmaller ⊢
        omega
      · split at h
        · cases h
        · rename_i hdelimit
          cases h
          obtain ⟨hempty, hiter, hnext, -⟩ := delimit_shrinks hdelimit
          simp only [size, hempty, length_cons, length_nil] at hiter hnext ⊢
          omega
        · rename_i tk₁ hdelimit
          obtain ⟨hempty, -, -, hnext⟩ := delimit_shrinks hdelimit
          have hsmaller := ih h
          simp only [size, hnext rfl, hempty, length_cons, length_nil] at hsmaller ⊢
          omega

theorem next_shrinks {token : Token} (h : tk.next ext = .ok (some token, tk')) :
    tk'.size < tk.size := by
  unfold next at h
  split at h
  · rename_i hnext
    cases h
    simp only [size, hnext, length_cons]
    omega
  · split_ifs at h
    · cases h
    · exact scan_shrinks h

end Tokenizer

end Bearmail.Expr
