import Bearmail.Imap.Receiver
import Bearmail.Lib.Reports

/-!
# Requests read back

A request written to the receiver: its tag, its command and its tokens, where an
argument is written as an atom, as a quoted string or as a literal that is not waited
for. Spaces may be left out next to a token of one character, as far as a quoted
string or a literal still follows a space.
-/

namespace Bearmail.Imap

open List

/-! ## Writing a request -/

/-- The character of a token that is one; brackets and the like only for some commands. -/
def Token.byte (brackets : Bool) : Token → Option UInt8
  | .parenthesisOpen => some 40
  | .parenthesisClose => some 41
  | .bracketOpen => if brackets then some 91 else none
  | .bracketClose => if brackets then some 93 else none
  | .lt => if brackets then some 60 else none
  | .gt => if brackets then some 62 else none
  | .dot => if brackets then some 46 else none
  | .argument _ => none
  | .nil => none

def Plain (brackets : Bool) (b : UInt8) : Prop :=
  isAsciiWhitespace b = false ∧ b ≠ 34 ∧ b ≠ 123 ∧ ∀ token : Token, token.byte brackets ≠ some b

def IsAtom (brackets : Bool) (value : Bytes) : Prop :=
  value ≠ [] ∧ value.length ≤ argMaxLen ∧ ∀ b ∈ value, Plain brackets b

def escape : Bytes → Bytes
  | [] => []
  | b :: value => if b = 34 ∨ b = 92 then 92 :: b :: escape value else b :: escape value

def quotedText (value : Bytes) : Bytes := 34 :: (escape value ++ [34])

def literalText (value : Bytes) : Bytes :=
  123 :: (decimal value.length ++ ([43, 125, 13, 10] ++ value))

/-- Where a token is written: after a space, a quoted string or a literal; after a
token of one character elsewhere; after an atom. -/
inductive Place where
  | fresh
  | closed
  | atom

def Place.afterSingle : Place → Place
  | .fresh => .fresh
  | _ => .closed

/-- What tokens may be written as, and what the receiver charges for them. -/
inductive Renders (brackets : Bool) : Place → List Token → Bytes → Nat → Prop where
  | nil {place} : Renders brackets place [] [] 0
  | space {place tokens text size} : Renders brackets .fresh tokens text size →
      Renders brackets place tokens (32 :: text) size
  | single {place token tokens ch text size} : token.byte brackets = some ch →
      Renders brackets place.afterSingle tokens text size →
      Renders brackets place (token :: tokens) (ch :: text) (1 + size)
  | atom {place value tokens text size} : place ≠ .atom → IsAtom brackets value →
      Renders brackets .atom tokens text size →
      Renders brackets place (.argument value :: tokens) (value ++ text) (value.length + size)
  | quoted {value tokens text size} : 10 ∉ value → value.length ≤ argMaxLen →
      Renders brackets .fresh tokens text size →
      Renders brackets .fresh (stringToken value :: tokens) (quotedText value ++ text)
        (value.length + size)
  | literal {value tokens text size} : value.length < 2 ^ 32 → Renders brackets .fresh tokens text size →
      Renders brackets .fresh (stringToken value :: tokens) (literalText value ++ text)
        (max 1 value.length + size)

def IsTag (tag : Bytes) : Prop :=
  tag.length ≤ 128 ∧ (∀ b ∈ tag.head?, isAsciiWhitespace b = false) ∧ tag ≠ [] ∧
    ∀ b ∈ tag, b ≠ 32 ∧ b ≠ 9 ∧ b ≠ 13 ∧ b ≠ 10

def IsName {T : Type} [CommandParser T] (name : Bytes) (isUid : Bool) (command : T) : Prop :=
  name ≠ [] ∧ name.length ≤ 15 ∧ (∀ b ∈ name, isAsciiAlphanumeric b = true) ∧
    eqIgnoreAsciiCase (name.map toAsciiUppercase) (utf8 "UID") = false ∧
    CommandParser.parse (name.map toAsciiUppercase) isUid = some command

/-- The line of a request up to its line break; after the command a space may be left
out if no tokens follow. -/
inductive Line {T : Type} [CommandParser T] : Request T → Bytes → Nat → Prop where
  | bare {tag name isUid command} : IsTag (utf8 tag) → IsName name isUid command →
      Line ⟨tag, command, []⟩ (utf8 tag ++ 32 :: ((if isUid then utf8 "UID " else []) ++ name)) 0
  | tokens {tag name isUid command tokens text size} : IsTag (utf8 tag) → IsName name isUid command →
      Renders (CommandParser.tokenizeBrackets command) .fresh tokens text size →
      Line ⟨tag, command, tokens⟩
        (utf8 tag ++ 32 :: ((if isUid then utf8 "UID " else []) ++ (name ++ 32 :: text))) size

variable {ch : UInt8}

variable (buf : Bytes)

namespace Receiver

open Reports

variable {T : Type} [CommandParser T]

def parseChunks (r : Receiver T) : List Bytes → Receiver T × Option (Report T) × List Bytes
  | [] => (r, none, [])
  | chunk :: chunks =>
    match r.parse chunk with
    | (r, some report, rest) => (r, some report, rest :: chunks)
    | (r, none, _) => r.parseChunks chunks

/-! ## Reading without a report -/

def Quiet (r : Receiver T) (bytes : Bytes) (r' : Receiver T) : Prop := feed step r bytes = (r', [])

theorem Quiet.nil (r : Receiver T) : r.Quiet [] r := rfl

theorem Quiet.append {r r' r'' : Receiver T} {xs ys : Bytes} (h : r.Quiet xs r')
    (h' : r'.Quiet ys r'') : r.Quiet (xs ++ ys) r'' := by
  unfold Quiet at h h' ⊢
  rw [feed_append, h, h']
  rfl

theorem Quiet.cons {r r' r'' : Receiver T} {bytes : Bytes} (h : r.step ch = (r', none))
    (h' : r'.Quiet bytes r'') : r.Quiet (ch :: bytes) r'' := by
  unfold Quiet at h' ⊢
  rw [feed, h, h']
  rfl

theorem Quiet.one {r r' : Receiver T} (h : r.step ch = (r', none)) : r.Quiet [ch] r' :=
  .cons h (.nil r')

theorem parse_quiet {r r' : Receiver T} {bytes : Bytes} (h : r.Quiet bytes r') (rest : Bytes) :
    r.parse (bytes ++ rest) = r'.parse rest := by
  induction bytes generalizing r with
  | nil =>
    cases h
    rfl
  | cons ch bytes ih =>
    rw [cons_append, parse]
    unfold Quiet at h
    rw [feed] at h
    cases hstep : r.step ch with
    | mk next report =>
      rw [hstep] at h
      cases report with
      | none => exact ih h
      | some report => cases h

theorem parseChunks_report (chunks : List Bytes) {r r' r'' : Receiver T} {bytes : Bytes}
    {report : Report T} (hflat : chunks.flatten = bytes ++ [ch]) (h : r.Quiet bytes r')
    (hlast : r'.step ch = (r'', some report)) :
    ∃ rest, r.parseChunks chunks = (r'', some report, rest) ∧ rest.flatten = [] := by
  induction chunks generalizing r bytes with
  | nil => simp at hflat
  | cons chunk chunks ih =>
    rcases append_eq_append_iff.mp hflat with ⟨more, hbytes, hmore⟩ | ⟨more, hchunk, hmore⟩
    · -- The chunk ends before the last byte.
      rw [hbytes] at h
      unfold Quiet at h
      rw [feed_append] at h
      obtain ⟨hstate, hreports⟩ := Prod.mk.inj h
      obtain ⟨hfirst, hmoreReports⟩ := append_eq_nil_iff.mp hreports
      have hquiet : r.Quiet chunk (feed step r chunk).1 := Prod.ext rfl hfirst
      have hrest : (feed step r chunk).1.Quiet more r' := Prod.ext hstate hmoreReports
      have hparse := parse_quiet hquiet []
      rw [List.append_nil] at hparse
      rw [parseChunks, hparse]
      exact ih hmore hrest
    · cases more with
      | nil =>
        -- It ends just before it.
        rw [List.append_nil] at hchunk
        rw [hchunk, parseChunks]
        have hparse := parse_quiet h []
        rw [List.append_nil] at hparse
        rw [hparse]
        exact @ih r' [] hmore.symm (.nil r')
      | cons b more =>
        obtain ⟨rfl, hnil⟩ := List.cons.inj hmore
        obtain ⟨rfl, hchunks⟩ := append_eq_nil_iff.mp hnil.symm
        refine ⟨[] :: chunks, ?_, by simpa using hchunks⟩
        rw [hchunk, parseChunks, parse_quiet h, parse, hlast]

/-! ## Arguments -/

def reading (maxRequestSize : Nat) (tag : String) (command : T) (buf : Bytes) (tokens : List Token)
    (size : Nat) (state : ReceiverState) : Receiver T :=
  ⟨buf, ⟨tag, command, tokens⟩, state, maxRequestSize, size, .start⟩

def pending (buf : Bytes) : List Token := if buf = [] then [] else [.argument buf]

section

variable {limit : Nat} {tag : String} {command : T} {tokens : List Token} {size : Nat}
  {state : ReceiverState}

theorem pushArgument_reading (h : size + buf.length ≤ limit) (next : Receiver T → Step T) :
    (reading limit tag command buf tokens size state).pushArgument false next =
      next (reading limit tag command [] (tokens ++ pending buf) (size + buf.length) state) := by
  by_cases hbuf : buf = []
  · subst hbuf
    simp [pushArgument, reading, pending]
  · have hle : ¬ size + buf.length > limit := by omega
    simp [pushArgument, reading, pending, hbuf, hle, addToken]

theorem pushArgument_quoted (h : size + buf.length ≤ limit) (next : Receiver T → Step T) :
    (reading limit tag command buf tokens size state).pushArgument true next =
      next (reading limit tag command [] (tokens ++ [stringToken buf]) (size + buf.length) state) := by
  by_cases hbuf : buf = []
  · subst hbuf
    simp [pushArgument, reading, stringToken, addToken]
  · have hle : ¬ size + buf.length > limit := by omega
    simp [pushArgument, reading, stringToken, hbuf, hle, addToken]

theorem pushToken_reading (token : Token) (h : size + 1 ≤ limit) (next : Receiver T → Step T) :
    (reading limit tag command buf tokens size state).pushToken token next =
      next (reading limit tag command buf (tokens ++ [token]) (size + 1) state) := by
  have hle : ¬ size + 1 > limit := by omega
  simp [pushToken, reading, hle, addToken]

theorem pushChecked_reading (ch : UInt8) {most : Nat} (h : buf.length < most) (message : String)
    (next : Receiver T → Step T) :
    (reading limit tag command buf tokens size state).pushChecked ch most message next =
      next (reading limit tag command (buf ++ [ch]) tokens size state) := by
  simp [pushChecked, reading, h]

theorem singleToken_of_byte {token : Token} {r : Receiver T}
    (h : token.byte (CommandParser.tokenizeBrackets r.request.command) = some ch) :
    r.singleToken ch = some token ∧ ch ≠ 34 ∧ ch ≠ 123 := by
  cases hb : CommandParser.tokenizeBrackets r.request.command with
  | true =>
    rw [hb] at h
    cases token <;> cases h <;> simp [singleToken, hb]
  | false =>
    rw [hb] at h
    cases token <;> cases h <;> simp [singleToken]

theorem singleToken_of_plain {r : Receiver T}
    (h : Plain (CommandParser.tokenizeBrackets r.request.command) ch) : r.singleToken ch = none := by
  obtain ⟨-, -, -, htoken⟩ := h
  have h40 : ch ≠ 40 := fun heq => htoken .parenthesisOpen (heq ▸ rfl)
  have h41 : ch ≠ 41 := fun heq => htoken .parenthesisClose (heq ▸ rfl)
  rw [singleToken, if_neg h40, if_neg h41]
  split
  · next hbrackets =>
    rw [hbrackets] at htoken
    have h91 : ch ≠ 91 := fun heq => htoken .bracketOpen (heq ▸ rfl)
    have h93 : ch ≠ 93 := fun heq => htoken .bracketClose (heq ▸ rfl)
    have h60 : ch ≠ 60 := fun heq => htoken .lt (heq ▸ rfl)
    have h62 : ch ≠ 62 := fun heq => htoken .gt (heq ▸ rfl)
    have h46 : ch ≠ 46 := fun heq => htoken .dot (heq ▸ rfl)
    rw [if_neg h91, if_neg h93, if_neg h60, if_neg h62, if_neg h46]
  · rfl
theorem quiet_single {buf : Bytes} {last ch : UInt8} {token : Token}
    (h : token.byte (CommandParser.tokenizeBrackets command) = some ch)
    (hsize : size + buf.length + 1 ≤ limit) :
    Quiet (reading limit tag command buf tokens size (.argument last)) [ch]
      (reading limit tag command [] (tokens ++ pending buf ++ [token]) (size + buf.length + 1)
        (.argument last)) := by
  obtain ⟨htoken, hquote, hbrace⟩ := singleToken_of_byte
    (r := reading limit tag command buf tokens size (.argument last)) h
  refine .one ?_
  show stepArgument _ last ch = _
  rw [stepArgument, if_neg (fun hq => hquote hq.1), if_neg (fun hq => hbrace hq.1), htoken]
  dsimp only
  rw [pushArgument_reading buf (by omega), pushToken_reading [] token hsize]

theorem quiet_space {buf : Bytes} {last : UInt8} (hsize : size + buf.length ≤ limit) :
    Quiet (reading limit tag command buf tokens size (.argument last)) [32]
      (reading limit tag command [] (tokens ++ pending buf) (size + buf.length) (.argument 32)) := by
  have hplain : (reading limit tag command buf tokens size (.argument last)).singleToken 32 = none := by
    simp [singleToken]
  refine .one ?_
  show stepArgument _ last 32 = _
  rw [stepArgument, if_neg (by simp), if_neg (by simp), hplain]
  rw [if_neg (by decide), pushArgument_reading buf hsize]
  rfl

theorem quiet_atom (value : Bytes) {buf : Bytes} {last : UInt8}
    (h : ∀ b ∈ value, Plain (CommandParser.tokenizeBrackets command) b)
    (hlen : (buf ++ value).length ≤ argMaxLen) :
    ∃ last', Quiet (reading limit tag command buf tokens size (.argument last)) value
      (reading limit tag command (buf ++ value) tokens size (.argument last')) := by
  induction value generalizing buf last with
  | nil => exact ⟨last, by rw [List.append_nil]; exact .nil _⟩
  | cons b value ih =>
    have hplain := h b mem_cons_self
    have hsplit : buf ++ b :: value = buf ++ [b] ++ value := by simp
    rw [hsplit] at hlen ⊢
    obtain ⟨last', hrest⟩ := @ih (buf ++ [b]) b (fun c hc => h c (mem_cons_of_mem _ hc)) hlen
    refine ⟨last', .cons ?_ hrest⟩
    have hlt : buf.length < argMaxLen := by
      simp only [length_append, length_singleton] at hlen
      omega
    have hten : b ≠ 10 := by
      rintro rfl
      cases hplain.1
    show stepArgument _ last b = _
    rw [stepArgument, if_neg (fun hq => hplain.2.1 hq.1), if_neg (fun hq => hplain.2.2.1 hq.1),
      singleToken_of_plain (by exact hplain)]
    rw [if_neg hten, if_neg (by simp [hplain.1]), pushChecked_reading buf b hlt]
    rfl

theorem quiet_escape (value : Bytes) {buf : Bytes} (hline : 10 ∉ value)
    (hlen : (buf ++ value).length ≤ argMaxLen) :
    Quiet (reading limit tag command buf tokens size (.argumentQuoted false)) (escape value)
      (reading limit tag command (buf ++ value) tokens size (.argumentQuoted false)) := by
  induction value generalizing buf with
  | nil =>
    rw [List.append_nil]
    exact .nil _
  | cons b value ih =>
    have hsplit : buf ++ b :: value = buf ++ [b] ++ value := by simp
    rw [hsplit] at hlen ⊢
    rw [mem_cons, not_or] at hline
    have hrest := @ih (buf ++ [b]) hline.2 hlen
    have hlt : buf.length < argMaxLen := by
      simp only [length_append, length_singleton] at hlen
      omega
    have hten : b ≠ 10 := fun heq => hline.1 heq.symm
    rw [escape]
    split
    · rename_i hesc
      have hslash : (reading limit tag command buf tokens size (.argumentQuoted false)).step 92 =
          (reading limit tag command buf tokens size (.argumentQuoted true), none) := rfl
      refine .cons hslash (.cons ?_ hrest)
      show stepQuoted _ true b = _
      rcases hesc with rfl | rfl
      · rw [stepQuoted]
        rw [pushChecked_reading buf 34 hlt]
        rfl
      · rw [stepQuoted]
        rw [pushChecked_reading buf 92 hlt]
        rfl
    · rename_i hplain
      rw [not_or] at hplain
      refine .cons ?_ hrest
      show stepQuoted _ false b = _
      rw [stepQuoted]
      simp only [if_neg hplain.1, if_neg hplain.2, if_neg hten, Bool.false_eq_true, if_false]
      rw [pushChecked_reading buf b hlt]
      rfl

theorem quiet_quoted {value : Bytes} {last : UInt8} (hws : isAsciiWhitespace last = true)
    (hline : 10 ∉ value) (hlen : value.length ≤ argMaxLen) (hsize : size + value.length ≤ limit) :
    Quiet (reading limit tag command [] tokens size (.argument last)) (quotedText value)
      (reading limit tag command [] (tokens ++ [stringToken value]) (size + value.length)
        (.argument 32)) := by
  have hopen : (reading limit tag command [] tokens size (.argument last)).step 34 =
      (reading limit tag command [] tokens size (.argumentQuoted false), none) := by
    show stepArgument _ last 34 = _
    rw [stepArgument, if_pos ⟨rfl, hws⟩, pushArgument_reading [] (by simpa using by omega)]
    simp [pending, goto, reading]
  refine .cons hopen (.append (quiet_escape value hline hlen) (.one ?_))
  show stepQuoted _ false 34 = _
  rw [stepQuoted]
  rw [nil_append, pushArgument_quoted value hsize]
  rfl

/-! ## Literals -/

theorem foldl_digits (digits : Bytes) (value : Nat) (h : ∀ b ∈ digits, isAsciiDigit b = true) :
    readDigits value digits = some (digits.foldl (fun n d => 10 * n + (d.toNat - 48)) value) := by
  induction digits generalizing value with
  | nil => rfl
  | cons b digits ih =>
    rw [readDigits, if_pos (h b mem_cons_self), Nat.mul_comm value 10]
    exact ih _ fun c hc => h c (mem_cons_of_mem _ hc)

theorem parseU32_decimal {n : Nat} (h : n < 2 ^ 32) : parseU32 (decimal n) = some n := by
  have hread := readDigits_decimal n
  rw [foldl_digits _ _ fun b hb => isAsciiDigit_of_mem_decimal hb] at hread
  have hvalue := Option.some.inj hread
  unfold parseU32
  rw [hvalue]
  exact if_pos h

theorem length_decimal {n : Nat} (h : n < 2 ^ 32) : (decimal n).length ≤ 15 := by
  rw [decimal_eq, length_map]
  refine (Nat.length_toDigits_le_iff (by omega) (by omega)).mpr ?_
  omega

theorem quiet_digits (digits : Bytes) {buf : Bytes} (h : ∀ b ∈ digits, isAsciiDigit b = true)
    (hlen : (buf ++ digits).length ≤ 15) :
    Quiet (reading limit tag command buf tokens size (.literal false)) digits
      (reading limit tag command (buf ++ digits) tokens size (.literal false)) := by
  induction digits generalizing buf with
  | nil =>
    rw [List.append_nil]
    exact .nil _
  | cons b digits ih =>
    have hsplit : buf ++ b :: digits = buf ++ [b] ++ digits := by simp
    rw [hsplit] at hlen ⊢
    have hd := h b mem_cons_self
    have hrest := @ih (buf ++ [b]) (fun c hc => h c (mem_cons_of_mem _ hc)) hlen
    have hlt : buf.length < 15 := by
      simp only [length_append, length_singleton] at hlen
      omega
    have hclose : b ≠ 125 := by rintro rfl; cases hd
    have hplus : b ≠ 43 := by rintro rfl; cases hd
    have hrange : 48 ≤ b ∧ b ≤ 57 := by simpa [isAsciiDigit] using hd
    refine .cons ?_ hrest
    show stepLiteral _ false b = _
    simp [stepLiteral, hclose, hplus, hrange, pushChecked_reading buf b hlt]

theorem step_literalData (remaining : Nat) (b : UInt8) :
    (reading limit tag command buf tokens size (.literalData remaining)).step b =
      if remaining > 1 then
        (reading limit tag command (buf ++ [b]) tokens size (.literalData (remaining - 1)), none)
      else
        (reading limit tag command (buf ++ [b]) tokens size (.literalData remaining)).pushArgument false
          fun r => r.goto (.argument 32) := rfl

theorem quiet_literalData (value : Bytes) {buf : Bytes} (hne : value ≠ [])
    (hsize : size + (buf ++ value).length ≤ limit) :
    Quiet (reading limit tag command buf tokens size (.literalData value.length)) value
      (reading limit tag command [] (tokens ++ [Token.argument (buf ++ value)])
        (size + (buf ++ value).length) (.argument 32)) := by
  induction value generalizing buf with
  | nil => exact absurd rfl hne
  | cons b value ih =>
    by_cases hlast : value = []
    · subst hlast
      refine .one ?_
      rw [step_literalData, pushArgument_reading (buf ++ [b]) hsize]
      simp [pending, goto, reading]
    · have hsplit : buf ++ b :: value = buf ++ [b] ++ value := by simp
      rw [hsplit] at hsize ⊢
      refine .cons ?_ (ih hlast hsize)
      have hmore : 1 < (b :: value).length := by
        have hpos : 0 < value.length := length_pos_iff.mpr hlast
        rw [length_cons]
        omega
      rw [step_literalData, if_pos hmore]
      rfl

theorem quiet_literal {value : Bytes} {last : UInt8} (hws : isAsciiWhitespace last = true)
    (hlen : value.length < 2 ^ 32) (hsize : size + max 1 value.length ≤ limit) :
    ∃ size', Quiet (reading limit tag command [] tokens size (.argument last)) (literalText value)
      (reading limit tag command [] (tokens ++ [stringToken value]) size' (.argument 32)) ∧
      size' ≤ size + max 1 value.length := by
  have hlast : last ≠ 126 := by rintro rfl; cases hws
  have hopen : (reading limit tag command [] tokens size (.argument last)).step 123 =
      (reading limit tag command [] tokens size (.literal false), none) := by
    show stepArgument _ last 123 = _
    rw [stepArgument, if_neg (fun h => absurd h.1 (by decide)), if_pos ⟨rfl, Or.inl hws⟩, if_pos hlast,
      pushArgument_reading [] (by rw [length_nil]; omega)]
    simp [pending, goto, reading]
  have hdigits := @quiet_digits T _ limit tag command tokens size (decimal value.length) []
    (fun b hb => isAsciiDigit_of_mem_decimal hb) (length_decimal hlen)
  have hplus : (reading limit tag command (decimal value.length) tokens size (.literal false)).step 43 =
      (reading limit tag command (decimal value.length) tokens size (.literal true), none) := by
    exact if_pos (decimal_ne_nil value.length)
  have hclose : (reading limit tag command (decimal value.length) tokens size (.literal true)).step 125 =
      (reading limit tag command [] tokens size (.literalSeek value.length true), none) := by
    refine (if_pos (decimal_ne_nil value.length)).trans ?_
    have hparse : parseU32 (reading limit tag command (decimal value.length) tokens size
        (.literal true)).buf = some value.length := parseU32_decimal hlen
    rw [hparse]
    exact if_neg (by simp)
  have hreturn : (reading limit tag command [] tokens size (.literalSeek value.length true)).step 13 =
      (reading limit tag command [] tokens size (.literalSeek value.length true), none) := rfl
  have hfits : ¬ (true = true ∧ size + value.length > limit) := by omega
  by_cases hempty : value = []
  · subst hempty
    have hline : (reading limit tag command [] tokens size (.literalSeek 0 true)).step 10 =
        (reading limit tag command [] (tokens ++ [.nil]) (size + 1) (.argument 32), none) := by
      refine (if_neg hfits).trans ((if_neg (by omega)).trans ?_)
      show pushToken (reading limit tag command [] tokens size (.argument 32)) .nil _ = _
      rw [pushToken_reading [] .nil (by simpa using hsize)]
      rfl
    refine ⟨size + 1, ?_, by simp⟩
    exact .cons hopen (hdigits.append (.cons hplus (.cons hclose (.cons hreturn (.one hline)))))
  · have hpos : 0 < value.length := length_pos_iff.mpr hempty
    have hline : (reading limit tag command [] tokens size (.literalSeek value.length true)).step 10 =
        (reading limit tag command [] tokens size (.literalData value.length), none) := by
      exact (if_neg hfits).trans (if_pos hpos)
    have hdata := @quiet_literalData T _ limit tag command tokens size value [] hempty
      (by rw [nil_append]; omega)
    refine ⟨size + value.length, ?_, by omega⟩
    rw [stringToken, if_neg hempty]
    exact .cons hopen (hdigits.append (.cons hplus (.cons hclose (.cons hreturn (.cons hline hdata)))))

/-! ## Tokens -/

def InPlace (place : Place) (buf : Bytes) (last : UInt8) : Prop :=
  match place with
  | .fresh => buf = [] ∧ isAsciiWhitespace last = true
  | .closed => buf = []
  | .atom => True

/-- The tokens are read one after the other; the last argument may still be in the
buffer. -/
theorem quiet_tokens {place : Place} {rendered : List Token} {text : Bytes} {charge : Nat}
    (h : Renders (CommandParser.tokenizeBrackets command) place rendered text charge) :
    ∀ {buf : Bytes} {last : UInt8} {tokens : List Token} {size : Nat}, InPlace place buf last →
      size + buf.length + charge ≤ limit →
      ∃ buf' last' tokens' size', Quiet (reading limit tag command buf tokens size (.argument last)) text
          (reading limit tag command buf' tokens' size' (.argument last')) ∧
        tokens' ++ pending buf' = tokens ++ pending buf ++ rendered ∧
        size' + buf'.length ≤ limit := by
  induction h with
  | nil =>
    intro buf last tokens size _ hsize
    exact ⟨buf, last, tokens, size, .nil _, by simp, hsize⟩
  | space _ ih =>
    intro buf last tokens size _ hsize
    have hspace := @quiet_space T _ limit tag command tokens size buf last (by omega)
    obtain ⟨buf', last', tokens', size', hquiet, htokens, hle⟩ :=
      @ih [] 32 (tokens ++ pending buf) (size + buf.length) ⟨rfl, by decide⟩ (by rw [length_nil]; omega)
    refine ⟨buf', last', tokens', size', hspace.append hquiet, ?_, hle⟩
    rw [htokens]
    simp [pending]
  | @single place token rendered ch text charge htoken _ ih =>
    intro buf last tokens size hplace hsize
    have hsingle := @quiet_single T _ limit tag command tokens size buf last ch token htoken (by omega)
    have hplace' : InPlace place.afterSingle [] last := by
      cases place with
      | fresh => exact ⟨rfl, hplace.2⟩
      | closed | atom => rfl
    obtain ⟨buf', last', tokens', size', hquiet, htokens, hle⟩ :=
      @ih [] last (tokens ++ pending buf ++ [token]) (size + buf.length + 1) hplace'
        (by rw [length_nil]; omega)
    refine ⟨buf', last', tokens', size', hsingle.append hquiet, ?_, hle⟩
    rw [htokens]
    simp [pending]
  | @atom place value rendered text charge hne hatom _ ih =>
    intro buf last tokens size hplace hsize
    have hbuf : buf = [] := by
      cases place with
      | fresh => exact hplace.1
      | closed => exact hplace
      | atom => exact absurd rfl hne
    subst hbuf
    obtain ⟨last', hread⟩ := @quiet_atom T _ limit tag command tokens size value [] last hatom.2.2
      hatom.2.1
    obtain ⟨buf', last'', tokens', size', hquiet, htokens, hle⟩ :=
      @ih value last' tokens size trivial (by rw [length_nil] at hsize; omega)
    refine ⟨buf', last'', tokens', size', hread.append hquiet, ?_, hle⟩
    rw [htokens]
    simp [pending, hatom.1]
  | @quoted value rendered text charge hline hlen _ ih =>
    intro buf last tokens size hplace hsize
    obtain ⟨rfl, hws⟩ := hplace
    have hread := @quiet_quoted T _ limit tag command tokens size value last hws hline hlen (by omega)
    obtain ⟨buf', last', tokens', size', hquiet, htokens, hle⟩ :=
      @ih [] 32 (tokens ++ [stringToken value]) (size + value.length) ⟨rfl, by decide⟩
        (by rw [length_nil]; omega)
    refine ⟨buf', last', tokens', size', hread.append hquiet, ?_, hle⟩
    rw [htokens]
    simp [pending]
  | @literal value rendered text charge hlen _ ih =>
    intro buf last tokens size hplace hsize
    obtain ⟨rfl, hws⟩ := hplace
    obtain ⟨size₁, hread, hcharged⟩ :=
      @quiet_literal T _ limit tag command tokens size value last hws hlen (by omega)
    obtain ⟨buf', last', tokens', size', hquiet, htokens, hle⟩ :=
      @ih [] 32 (tokens ++ [stringToken value]) size₁ ⟨rfl, by decide⟩ (by rw [length_nil]; omega)
    refine ⟨buf', last', tokens', size', hread.append hquiet, ?_, hle⟩
    rw [htokens]
    simp [pending]

theorem quiet_return {buf : Bytes} {last : UInt8} (hsize : size + buf.length ≤ limit) :
    Quiet (reading limit tag command buf tokens size (.argument last)) [13]
      (reading limit tag command [] (tokens ++ pending buf) (size + buf.length) (.argument 13)) := by
  have hplain : (reading limit tag command buf tokens size (.argument last)).singleToken 13 = none := by
    simp [singleToken]
  refine .one ?_
  show stepArgument _ last 13 = _
  rw [stepArgument, if_neg (by simp), if_neg (by simp), hplain]
  rw [if_neg (by decide), pushArgument_reading buf hsize]
  rfl

theorem step_lineFeed (last : UInt8) (hsize : size ≤ limit) :
    (reading limit tag command [] tokens size (.argument last)).step 10 =
      (new limit, some (.request ⟨tag, command, tokens⟩)) := by
  have hplain : (reading limit tag command [] tokens size (.argument last)).singleToken 10 = none := by
    simp [singleToken]
  show stepArgument _ last 10 = _
  rw [stepArgument, if_neg (by simp), if_neg (by simp), hplain]
  rw [pushArgument_reading [] hsize]
  simp [pending, finish, reading, new]

end

/-! ## Tag and command -/

theorem quiet_tag {tag : String} (limit : Nat) (h : IsTag (utf8 tag)) :
    Quiet (new limit : Receiver T) (utf8 tag ++ [32])
      (reading limit tag default [] [] 0 (.command false)) := by
  obtain ⟨hlen, hhead, hne, hall⟩ := h
  obtain ⟨b, rest, hb⟩ := exists_cons_of_ne_nil hne
  rw [hb] at hlen hhead hall
  have hmore : ∀ (more : Bytes) (buf : Bytes), (buf ++ more).length ≤ 128 →
      (∀ c ∈ more, c ≠ 32 ∧ c ≠ 9 ∧ c ≠ 13 ∧ c ≠ 10) →
      Quiet (⟨buf, emptyRequest, .tag, limit, 0, .start⟩ : Receiver T) more
        ⟨buf ++ more, emptyRequest, .tag, limit, 0, .start⟩ := by
    intro more
    induction more with
    | nil =>
      intro buf _ _
      rw [List.append_nil]
      exact .nil _
    | cons c more ih =>
      intro buf hle hchars
      have hsplit : buf ++ c :: more = buf ++ [c] ++ more := by simp
      rw [hsplit] at hle ⊢
      obtain ⟨h32, h9, h13, h10⟩ := hchars c mem_cons_self
      have hlt : buf.length < 128 := by
        simp only [length_append, length_singleton] at hle
        omega
      refine .cons ?_ (ih (buf ++ [c]) hle fun d hd => hchars d (mem_cons_of_mem _ hd))
      show stepTag _ c = _
      rw [stepTag, if_neg h32, if_neg (by simp [h9, h13]), if_neg h10]
      simp [pushChecked, hlt]
  have hfirst : (new limit : Receiver T).step b =
      (⟨[b], emptyRequest, .tag, limit, 0, .start⟩, none) := by
    show (if isAsciiWhitespace b = false then _ else _) = _
    rw [if_pos (hhead b rfl)]
    rfl
  have hend : (⟨b :: rest, emptyRequest, .tag, limit, 0, .start⟩ : Receiver T).step 32 =
      (reading limit tag default [] [] 0 (.command false), none) := by
    have hutf : fromUtf8 (b :: rest) = some tag := by
      rw [← hb]
      exact fromUtf8_utf8 tag
    show stepTag _ 32 = _
    rw [stepTag]
    simp [hutf, reading, emptyRequest]
  rw [hb]
  exact .cons hfirst ((hmore rest [b] (by simpa using hlen)
    fun c hc => hall c (mem_cons_of_mem _ hc)).append (.one hend))

theorem quiet_name {limit : Nat} {tag : String} (isUid : Bool) (name : Bytes) {buf : Bytes}
    (h : ∀ b ∈ name, isAsciiAlphanumeric b = true) (hlen : (buf ++ name).length ≤ 15) :
    Quiet (reading limit tag (default : T) buf [] 0 (.command isUid)) name
      (reading limit tag default (buf ++ name.map toAsciiUppercase) [] 0 (.command isUid)) := by
  induction name generalizing buf with
  | nil =>
    rw [map_nil, List.append_nil]
    exact .nil _
  | cons b name ih =>
    have hsplit : buf ++ (b :: name).map toAsciiUppercase =
        buf ++ [toAsciiUppercase b] ++ name.map toAsciiUppercase := by simp
    have hlt : buf.length < 15 := by
      simp only [length_append, length_cons] at hlen
      omega
    rw [hsplit]
    refine .cons ?_ (ih (fun c hc => h c (mem_cons_of_mem _ hc)) ?_)
    · show stepCommand _ isUid b = _
      simp [stepCommand, h b mem_cons_self, pushChecked_reading buf _ hlt]
    · simp only [length_append, length_cons, length_nil] at hlen ⊢
      omega

theorem quiet_command {limit : Nat} {tag : String} {name : Bytes} {isUid : Bool} {command : T}
    (h : IsName name isUid command) {space : UInt8} (hspace : space = 32 ∨ space = 13) :
    Quiet (reading limit tag (default : T) [] [] 0 (.command false))
      ((if isUid then utf8 "UID " else []) ++ (name ++ [space]))
      (reading limit tag command [] [] 0 (.argument 32)) := by
  obtain ⟨hne, hlen, hall, hnot, hparse⟩ := h
  have hname := @quiet_name T _ limit tag isUid name [] hall hlen
  have hne' : name.map toAsciiUppercase ≠ [] := by simpa using hne
  have hend : (reading limit tag (default : T) (name.map toAsciiUppercase) [] 0
      (.command isUid)).step space = (reading limit tag command [] [] 0 (.argument 32), none) := by
    have hws : isAsciiAlphanumeric space = false ∧ isAsciiWhitespace space = true ∧ space ≠ 10 := by
      rcases hspace with rfl | rfl <;> decide
    show stepCommand _ isUid space = _
    rw [stepCommand, if_neg (by simp [hws.1]), if_pos hws.2.1]
    refine (if_pos hne').trans ((if_pos hnot).trans ?_)
    have hknown : CommandParser.parse (reading limit tag (default : T) (name.map toAsciiUppercase) [] 0
        (.command isUid)).buf isUid = some command := hparse
    rw [hknown]
    exact if_pos hws.2.2
  have hlast := hname.append (.one hend)
  cases isUid with
  | false => exact hlast
  | true =>
    have huid : Quiet (reading limit tag (default : T) [] [] 0 (.command false)) (utf8 "UID ")
        (reading limit tag default [] [] 0 (.command true)) := rfl
    exact huid.append hlast

/-! ## A line -/

theorem quiet_line {request : Request T} {text : Bytes} {size limit : Nat} (h : Line request text size)
    (hsize : size ≤ limit) :
    ∃ r : Receiver T, Quiet (new limit) (text ++ [13]) r ∧
      r.step 10 = (new limit, some (.request request)) := by
  cases h with
  | @bare tag name isUid command htag hname =>
    have hhead := quiet_tag (T := T) limit htag
    have hcommand := @quiet_command T _ limit tag name isUid command hname 13 (Or.inr rfl)
    have hall := hhead.append hcommand
    refine ⟨_, ?_, step_lineFeed 32 (Nat.zero_le limit)⟩
    simpa using hall
  | @tokens tag name isUid command tokens text size htag hname hrenders =>
    have hhead := quiet_tag (T := T) limit htag
    have hcommand := @quiet_command T _ limit tag name isUid command hname 32 (Or.inl rfl)
    obtain ⟨buf, last, tokens', size', hquiet, htokens, hle⟩ :=
      @quiet_tokens T _ limit tag command .fresh tokens text size hrenders [] 32 [] 0
        ⟨rfl, by decide⟩ (by rw [length_nil]; omega)
    have hreturn := @quiet_return T _ limit tag command tokens' size' buf last hle
    have hall := hhead.append (hcommand.append (hquiet.append hreturn))
    have heq : tokens' ++ pending buf = tokens := by
      rw [htokens]
      simp [pending]
    rw [heq] at hall
    refine ⟨_, ?_, step_lineFeed 13 hle⟩
    simpa using hall

/-- The request is given back at the last byte of its line, however the line is cut, and
the receiver is then a new one. -/
theorem parseChunks_line {request : Request T} {text : Bytes} {size limit : Nat}
    (h : Line request text size) (hsize : size ≤ limit) {chunks : List Bytes}
    (hchunks : chunks.flatten = text ++ [13, 10]) :
    ∃ rest, (new limit : Receiver T).parseChunks chunks = (new limit, some (.request request), rest) ∧
      rest.flatten = [] := by
  obtain ⟨r, hquiet, hlast⟩ := quiet_line h hsize
  refine parseChunks_report chunks ?_ hquiet hlast
  rw [hchunks]
  simp

theorem isTag_a : IsTag (utf8 "a") :=
  ⟨by decide, fun b hb => by cases hb; rfl, by decide, fun b hb => by cases mem_singleton.mp hb; decide⟩

/-- `FETCH` in small letters, in two chunks. -/
theorem parseChunks_line_fetch :
    ∃ rest, (new 100 : Receiver Command).parseChunks
        [utf8 "a fe", utf8 "tch (\"x\" {1+}\r\n(\r\n"] =
          (new 100, some (.request ⟨"a", .fetch false,
            [.parenthesisOpen, .argument [120], .argument [40]]⟩), rest) ∧ rest.flatten = [] := by
  have hrenders : Renders true .fresh [.parenthesisOpen, .argument [120], .argument [40]]
      (40 :: (quotedText [120] ++ (32 :: (literalText [40] ++ [])))) (1 + (1 + (1 + 0))) :=
    .single rfl (@Renders.quoted true [120] _ _ _ (by decide) (by decide)
      (.space (@Renders.literal true [40] _ _ _ (by decide) .nil)))
  have hline := @Line.tokens Command _ "a" (utf8 "fetch") false (.fetch false) _ _ _ isTag_a
    ⟨by decide, by decide, all_eq_true.mp (by decide), by decide, by decide⟩ hrenders
  exact parseChunks_line hline (by decide) (by rfl)

/-- A bracket is a token only for some commands. -/
theorem not_parseChunks_line :
    ¬ ∀ (tag : String) (name : Bytes) (command : Command) (tokens : List Token) (text : Bytes)
        (size limit : Nat) (chunks : List Bytes), IsTag (utf8 tag) → IsName name false command →
      Renders true .fresh tokens text size → size ≤ limit →
      chunks.flatten = utf8 tag ++ 32 :: (name ++ 32 :: text) ++ [13, 10] →
      ∃ rest, (new limit : Receiver Command).parseChunks chunks =
        (new limit, some (.request ⟨tag, command, tokens⟩), rest) ∧ rest.flatten = [] := by
  intro h
  obtain ⟨rest, hrest, -⟩ := h "a" (utf8 "NOOP") .noop [.bracketOpen] [91] 1 100
    [utf8 "a NOOP [\r\n"] isTag_a
    ⟨by decide, by decide, all_eq_true.mp (by decide), by decide, by decide⟩
    (.single rfl .nil) (by decide) (by rfl)
  cases hrest

end Receiver

end Bearmail.Imap
