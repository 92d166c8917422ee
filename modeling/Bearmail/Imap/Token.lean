import Mathlib.Algebra.Group.Nat.Defs
import Mathlib.Data.List.Basic

/-!
# Tokens of an IMAP request and the values read from them

`Token` of `imap-proto/src/receiver.rs`, and `parse_number`, `parse_date` and
`Flag::parse_imap` of `imap-proto/src/parser/mod.rs`. The calendar that reads a
day comes from another crate and is a parameter.
-/

namespace Bearmail.Imap

open List

abbrev Bytes := List UInt8

def fromUtf8 (value : Bytes) : Option String := String.fromUTF8? ⟨value.toArray⟩

def utf8 (s : String) : Bytes := s.toByteArray.data.toList

theorem fromUtf8_utf8 (s : String) : fromUtf8 (utf8 s) = some s := by
  have h : (⟨(utf8 s).toArray⟩ : ByteArray) = s.toByteArray := by simp [utf8]
  unfold fromUtf8
  rw [h, String.fromUTF8?, dif_pos s.isValidUTF8]
  rfl

theorem utf8_injective {s t : String} (h : utf8 s = utf8 t) : s = t := by
  have hs := fromUtf8_utf8 s
  rw [h, fromUtf8_utf8 t] at hs
  exact (Option.some.inj hs).symm

theorem utf8_of_fromUtf8 {value : Bytes} {s : String} (h : fromUtf8 value = some s) : utf8 s = value := by
  rw [fromUtf8, String.fromUTF8?] at h
  split at h
  · cases h
    rfl
  · cases h

theorem utf8_ofList (cs : List Char) (h : ∀ c ∈ cs, c.toNat < 128) :
    utf8 (String.ofList cs) = cs.map fun c => UInt8.ofNat c.toNat := by
  have hone : ∀ c ∈ cs, String.utf8EncodeChar c = [UInt8.ofNat c.toNat] := by
    intro c hc
    have hlt := h c hc
    have hle : c.val.toNat ≤ 127 := Nat.le_of_lt_succ hlt
    simp only [String.utf8EncodeChar, hle, if_true]
    rfl
  have hflat : utf8 (String.ofList cs) = cs.flatMap String.utf8EncodeChar := by
    simp [utf8, List.utf8Encode]
  rw [hflat]
  clear hflat h
  induction cs with
  | nil => rfl
  | cons c cs ih =>
    rw [flatMap_cons, hone c mem_cons_self, map_cons, ih fun d hd => hone d (mem_cons_of_mem _ hd)]
    rfl

def toAsciiLowercase (b : UInt8) : UInt8 := if 65 ≤ b ∧ b ≤ 90 then b + 32 else b

def eqIgnoreAsciiCase (a b : Bytes) : Bool := a.map toAsciiLowercase == b.map toAsciiLowercase

/-! ## Messages

An error is kept as the pieces its text is made of, so that bytes shown through
`from_utf8_lossy` stay the bytes they are. -/

inductive Piece where
  | text (s : String)
  | lossy (value : Bytes)
  /-- The same, in the quotes and escapes of `{:?}`. -/
  | quoted (value : Bytes)
  /-- A byte taken as a character, with `{:?}`. -/
  | char (value : UInt8)
  | number (n : Nat)
  deriving DecidableEq

abbrev Message := List Piece

abbrev Result (α : Type) := Except Message α

def fail {α : Type} (s : String) : Result α := .error [.text s]

theorem ok_of_bind {α β : Type} {r : Result α} {f : α → Result β} {b : β}
    (h : (r >>= f) = .ok b) : ∃ a, r = .ok a ∧ f a = .ok b := by
  cases r with
  | error e => cases h
  | ok a => exact ⟨a, rfl, h⟩

/-! ## Tokens -/

inductive Token where
  | argument (value : Bytes)
  | parenthesisOpen
  | parenthesisClose
  | bracketOpen
  | bracketClose
  | lt
  | gt
  | dot
  | nil
  deriving DecidableEq

namespace Token

def asBytes : Token → Bytes
  | .argument value => value
  | .parenthesisOpen => utf8 "("
  | .parenthesisClose => utf8 ")"
  | .bracketOpen => utf8 "["
  | .bracketClose => utf8 "]"
  | .gt => utf8 ">"
  | .lt => utf8 "<"
  | .dot => utf8 "."
  | .nil => utf8 ""

def unwrapBytes : Token → Bytes
  | .argument value => value
  | other => other.asBytes

/-- The other tokens are shown as their own text, which is ASCII. -/
def unwrapString (t : Token) : Result String :=
  match fromUtf8 t.asBytes with
  | some s => .ok s
  | none => fail "Invalid UTF-8 in argument."

end Token

/-- The token the receiver makes of a string: a quoted one may be empty. -/
def stringToken (value : Bytes) : Token := if value = [] then .nil else .argument value

theorem unwrapBytes_stringToken (value : Bytes) : (stringToken value).unwrapBytes = value := by
  unfold stringToken
  split
  · rename_i h
    rw [h]
    rfl
  · rfl

theorem unwrapString_stringToken (s : String) : (stringToken (utf8 s)).unwrapString = .ok s := by
  have hb : (stringToken (utf8 s)).asBytes = utf8 s := by
    unfold stringToken
    split
    · rename_i h
      rw [h]
      rfl
    · rfl
  rw [Token.unwrapString, hb, fromUtf8_utf8]

/-! ## Numbers -/

def isAsciiDigit (b : UInt8) : Bool := decide (48 ≤ b) && decide (b ≤ 57)

def readDigits (value : Nat) : Bytes → Option Nat
  | [] => some value
  | b :: rest => if isAsciiDigit b then readDigits (value * 10 + (b.toNat - 48)) rest else none

/-- `from_str` of the unsigned integer of so many bits: an optional `+`, then digits. -/
def fromStr (bits : Nat) (value : Bytes) : Option Nat :=
  let digits := if value.head? = some 43 then value.tail else value
  if digits = [] then none
  else (readDigits 0 digits).filter fun n => decide (n < 2 ^ bits)

def parseNumber (bits : Nat) (value : Bytes) : Result Nat :=
  match fromUtf8 value with
  | none => fail "Expected a number, found an invalid UTF-8 string."
  | some _ =>
    match fromStr bits value with
    | some n => .ok n
    | none => .error [.text "Expected a number, found ", .quoted value, .text "."]

def decimal (n : Nat) : Bytes := utf8 (toString n)

variable (n : Nat)

theorem decimal_eq : decimal n = (Nat.toDigits 10 n).map fun c => UInt8.ofNat c.toNat := by
  have hascii : ∀ c ∈ Nat.toDigits 10 n, c.toNat < 128 := by
    intro c hc
    have hd := Nat.isDigit_of_mem_toDigits (by omega) (by omega) hc
    have hle := (Char.isDigit_iff_toNat.mp hd).2
    have h9 : '9'.toNat = 57 := rfl
    omega
  rw [decimal, Nat.toString_eq_ofList_toDigits, utf8_ofList _ hascii]

theorem decimal_ne_nil : decimal n ≠ [] := by
  rw [decimal_eq]
  simp [Nat.toDigits_ne_nil]

theorem isAsciiDigit_of_isDigit {c : Char} (h : c.isDigit = true) :
    isAsciiDigit (UInt8.ofNat c.toNat) = true ∧ (UInt8.ofNat c.toNat).toNat = c.toNat := by
  obtain ⟨h0, h9⟩ := Char.isDigit_iff_toNat.mp h
  have hlo : '0'.toNat = 48 := rfl
  have hhi : '9'.toNat = 57 := rfl
  have hval : (UInt8.ofNat c.toNat).toNat = c.toNat := by
    rw [UInt8.toNat_ofNat']
    omega
  refine ⟨?_, hval⟩
  simp only [isAsciiDigit, Bool.and_eq_true, decide_eq_true_eq, UInt8.le_iff_toNat_le, hval]
  constructor
  · show 48 ≤ c.toNat
    omega
  · show c.toNat ≤ 57
    omega

theorem isAsciiDigit_of_mem_decimal {n : Nat} {b : UInt8} (h : b ∈ decimal n) :
    isAsciiDigit b = true := by
  rw [decimal_eq] at h
  obtain ⟨c, hc, rfl⟩ := mem_map.mp h
  exact (isAsciiDigit_of_isDigit (Nat.isDigit_of_mem_toDigits (by omega) (by omega) hc)).1

theorem readDigits_map (cs : List Char) (h : ∀ c ∈ cs, c.isDigit = true) (value : Nat) :
    readDigits value (cs.map fun c => UInt8.ofNat c.toNat) = some (Nat.ofDigitChars 10 cs value) := by
  induction cs generalizing value with
  | nil => rfl
  | cons c cs ih =>
    obtain ⟨hd, hv⟩ := isAsciiDigit_of_isDigit (h c mem_cons_self)
    rw [map_cons, readDigits, if_pos hd, ih (fun d hm => h d (mem_cons_of_mem _ hm)), hv,
      Nat.ofDigitChars_cons, Nat.mul_comm]
    rfl

theorem readDigits_decimal : readDigits 0 (decimal n) = some n := by
  rw [decimal_eq, readDigits_map, Nat.ofDigitChars_ten_toDigits]
  intro c hc
  exact Nat.isDigit_of_mem_toDigits (by omega) (by omega) hc

theorem head_decimal_ne (b : UInt8) (h : isAsciiDigit b = false) : (decimal n).head? ≠ some b := by
  intro hb
  have hmem := List.mem_of_mem_head? hb
  rw [isAsciiDigit_of_mem_decimal hmem] at h
  cases h

theorem parseNumber_decimal {bits n : Nat} (h : n < 2 ^ bits) :
    parseNumber bits (decimal n) = .ok n := by
  have hf : fromStr bits (decimal n) = some n := by
    simp only [fromStr, if_neg (head_decimal_ne n 43 (by decide)), if_neg (decimal_ne_nil n)]
    rw [readDigits_decimal]
    simp [h]
  unfold parseNumber
  rw [show fromUtf8 (decimal n) = some (toString n) from fromUtf8_utf8 _]
  simp [hf]

/-! ## Dates -/

def isWhitespace (c : Char) : Bool :=
  let n := c.toNat
  (9 ≤ n && n ≤ 13) || n == 0x20 || n == 0x85 || n == 0xA0 || n == 0x1680 ||
    (0x2000 ≤ n && n ≤ 0x200A) || n == 0x2028 || n == 0x2029 || n == 0x202F || n == 0x205F ||
    n == 0x3000

def trim (s : String) : String :=
  String.ofList ((s.toList.dropWhile isWhitespace).reverse.dropWhile isWhitespace).reverse

/-- `NaiveDate::parse_from_str` with the format `%d-%b-%Y`, as the time stamp of its midnight. -/
structure Calendar where
  parseFromStr : String → Option Int

def parseDate (calendar : Calendar) (value : Bytes) : Result Int :=
  match fromUtf8 value with
  | none => fail "Expected date, found an invalid UTF-8 string."
  | some date =>
    match calendar.parseFromStr (trim date) with
    | some day => .ok day
    | none => .error [.text "Failed to parse date '", .lossy value, .text "'."]

/-! ## Flags -/

inductive SystemFlag where
  | seen
  | draft
  | flagged
  | answered
  | recent
  | important
  | phishing
  | junk
  | notJunk
  | deleted
  | forwarded
  | mdnSent
  | autosent
  | canUnsubscribe
  | followed
  | hasAttachment
  | hasMemo
  | hasNoAttachment
  | imported
  | isTrusted
  | mailFlagBit0
  | mailFlagBit1
  | mailFlagBit2
  | maskedEmail
  | memo
  | muted
  | new
  | notify
  | unsubscribed
  deriving DecidableEq

inductive Flag where
  | system (flag : SystemFlag)
  | keyword (name : String)
  deriving DecidableEq

namespace Flag

/-- The names `parse_imap` knows, compared without regard to case. -/
def imapNames : List (String × SystemFlag) :=
  [("\\Seen", .seen), ("\\Answered", .answered), ("\\Flagged", .flagged), ("\\Deleted", .deleted),
    ("\\Draft", .draft), ("\\Recent", .recent), ("\\Important", .important),
    ("$Forwarded", .forwarded), ("$MDNSent", .mdnSent), ("$Junk", .junk), ("$NotJunk", .notJunk),
    ("$Phishing", .phishing), ("$Important", .important), ("$autosent", .autosent),
    ("$canunsubscribe", .canUnsubscribe), ("$followed", .followed),
    ("$hasattachment", .hasAttachment), ("$hasmemo", .hasMemo),
    ("$hasnoattachment", .hasNoAttachment), ("$imported", .imported), ("$istrusted", .isTrusted),
    ("$MailFlagBit0", .mailFlagBit0), ("$MailFlagBit1", .mailFlagBit1),
    ("$MailFlagBit2", .mailFlagBit2), ("$maskedemail", .maskedEmail), ("$memo", .memo),
    ("$muted", .muted), ("$new", .new), ("$notify", .notify), ("$unsubscribed", .unsubscribed)]

def systemFlag? (value : Bytes) : Option SystemFlag :=
  (imapNames.find? fun entry => eqIgnoreAsciiCase value (utf8 entry.1)).map (·.2)

def parseImap (value : Bytes) : Result Flag :=
  if value = [] then fail "Null flags are not allowed."
  else
    match systemFlag? value with
    | some flag => .ok (.system flag)
    | none =>
      match fromUtf8 value with
      | some name => .ok (.keyword name)
      | none => fail "Invalid UTF-8."

def systemName : SystemFlag → String
  | .seen => "\\Seen"
  | .draft => "\\Draft"
  | .flagged => "\\Flagged"
  | .answered => "\\Answered"
  | .recent => "\\Recent"
  | .important => "\\Important"
  | .phishing => "$Phishing"
  | .junk => "$Junk"
  | .notJunk => "$NotJunk"
  | .deleted => "\\Deleted"
  | .forwarded => "$Forwarded"
  | .mdnSent => "$MDNSent"
  | .autosent => "$autosent"
  | .canUnsubscribe => "$canunsubscribe"
  | .followed => "$followed"
  | .hasAttachment => "$hasattachment"
  | .hasMemo => "$hasmemo"
  | .hasNoAttachment => "$hasnoattachment"
  | .imported => "$imported"
  | .isTrusted => "$istrusted"
  | .mailFlagBit0 => "$MailFlagBit0"
  | .mailFlagBit1 => "$MailFlagBit1"
  | .mailFlagBit2 => "$MailFlagBit2"
  | .maskedEmail => "$maskedemail"
  | .memo => "$memo"
  | .muted => "$muted"
  | .new => "$new"
  | .notify => "$notify"
  | .unsubscribed => "$unsubscribed"

def serialize : Flag → Bytes
  | .system flag => utf8 (systemName flag)
  | .keyword name => utf8 name

def Proper : Flag → Prop
  | .system _ => True
  | .keyword name => name ≠ "" ∧ systemFlag? (utf8 name) = none

theorem systemFlag_systemName (flag : SystemFlag) :
    utf8 (systemName flag) ≠ [] ∧ systemFlag? (utf8 (systemName flag)) = some flag := by
  cases flag <;> decide

theorem parseImap_serialize {flag : Flag} (h : flag.Proper) :
    parseImap flag.serialize = .ok flag := by
  cases flag with
  | system flag =>
    obtain ⟨hne, hfind⟩ := systemFlag_systemName flag
    simp [parseImap, serialize, if_neg hne, hfind]
  | keyword name =>
    have hne : utf8 name ≠ [] := by
      intro hnil
      exact h.1 (utf8_injective (hnil.trans (show [] = utf8 "" from rfl)))
    simp [parseImap, serialize, if_neg hne, h.2, fromUtf8_utf8]

end Flag

end Bearmail.Imap
