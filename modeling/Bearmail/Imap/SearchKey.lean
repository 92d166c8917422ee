import Bearmail.Imap.SequenceSet

/-!
# The search keys of a SEARCH command

The table of names in `parse_filters` of `imap-proto/src/parser/search.rs`, with
what each key takes from the tokens after it. Charset decoders and the calendar
come from other crates and are parameters.
-/

namespace Bearmail.Imap

open List hiding set

inductive PlainKey where
  | all
  | answered
  | deleted
  | draft
  | flagged
  | seen
  | unanswered
  | undeleted
  | undraft
  | unflagged
  | unseen
  | recent
  | new
  | old
  deriving DecidableEq

inductive StringKey where
  | bcc
  | body
  | cc
  | from_
  | subject
  | text
  | to
  deriving DecidableEq

inductive DateKey where
  | before
  | on
  | sentBefore
  | sentOn
  | sentSince
  | since
  deriving DecidableEq

inductive NumberKey where
  | larger
  | smaller
  | older
  | younger
  deriving DecidableEq

inductive ModSeqEntry where
  | shared (flag : Flag)
  | priv (flag : Flag)
  | all (flag : Flag)
  | none
  deriving DecidableEq

/-- The values of `Filter` that are not logical operators, the keys with arguments of one
kind gathered under that kind. -/
inductive Criterion where
  | sequence (set : Sequence) (uid : Bool)
  | plain (key : PlainKey)
  | string (key : StringKey) (value : String)
  | header (name value : String)
  | date (key : DateKey) (day : Int)
  | number (key : NumberKey) (value : Nat)
  | keyword (flag : Flag)
  | unkeyword (flag : Flag)
  | modSeq (value : Nat) (entry : ModSeqEntry)
  | emailId (value : String)
  | threadId (value : String)

inductive SearchKey where
  | plain (key : PlainKey)
  | string (key : StringKey)
  | header
  | date (key : DateKey)
  | number (key : NumberKey)
  | keyword
  | unkeyword
  | uid
  | modSeq
  | emailId
  | threadId
  | or
  | not
  deriving DecidableEq

/-- The names of the keys, compared without regard to case. -/
def searchKeys : List (String × SearchKey) :=
  [("ALL", .plain .all), ("ANSWERED", .plain .answered), ("BCC", .string .bcc),
    ("BEFORE", .date .before), ("BODY", .string .body), ("CC", .string .cc),
    ("DELETED", .plain .deleted), ("DRAFT", .plain .draft), ("FLAGGED", .plain .flagged),
    ("FROM", .string .from_), ("HEADER", .header), ("KEYWORD", .keyword),
    ("LARGER", .number .larger), ("ON", .date .on), ("SEEN", .plain .seen),
    ("SENTBEFORE", .date .sentBefore), ("SENTON", .date .sentOn),
    ("SENTSINCE", .date .sentSince), ("SINCE", .date .since), ("SMALLER", .number .smaller),
    ("SUBJECT", .string .subject), ("TEXT", .string .text), ("TO", .string .to), ("UID", .uid),
    ("UNANSWERED", .plain .unanswered), ("UNDELETED", .plain .undeleted),
    ("UNDRAFT", .plain .undraft), ("UNFLAGGED", .plain .unflagged), ("UNKEYWORD", .unkeyword),
    ("UNSEEN", .plain .unseen), ("OLDER", .number .older), ("YOUNGER", .number .younger),
    ("OLD", .plain .old), ("NEW", .plain .new), ("RECENT", .plain .recent),
    ("MODSEQ", .modSeq), ("EMAILID", .emailId), ("THREADID", .threadId), ("OR", .or),
    ("NOT", .not)]

def searchKey? (value : Bytes) : Option SearchKey :=
  (searchKeys.find? fun entry => eqIgnoreAsciiCase value (utf8 entry.1)).map (·.2)

/-! ## What a key takes from the tokens -/

/-- What the parser uses of other crates: the decoder of the charset the client named, if it
is known, and the calendar. -/
structure Codec where
  decoder : Option (Bytes → String)
  calendar : Calendar

def nextToken (missing : String) : List Token → Result (Token × List Token)
  | [] => fail missing
  | token :: tokens => .ok (token, tokens)

def decodeBytes (codec : Codec) (value : Bytes) : Result String :=
  match codec.decoder with
  | some decoder => .ok (decoder value)
  | none =>
    match fromUtf8 value with
    | some s => .ok s
    | none => fail "Invalid UTF-8 argument."

def takeArgument {α : Type} (missing : String) (value : Token → Result α) (tokens : List Token) :
    Result (α × List Token) := do
  let (token, tokens) ← nextToken missing tokens
  let a ← value token
  .ok (a, tokens)

def decodeArgument (codec : Codec) : List Token → Result (String × List Token) :=
  takeArgument "Expected string." fun token => decodeBytes codec token.unwrapBytes

def dateArgument (codec : Codec) : List Token → Result (Int × List Token) :=
  takeArgument "Expected date" fun token => parseDate codec.calendar token.unwrapBytes

def numberArgument : List Token → Result (Nat × List Token) :=
  takeArgument "Expected integer" fun token => parseNumber 32 token.unwrapBytes

def flagArgument : List Token → Result (Flag × List Token) :=
  takeArgument "Expected keyword" fun token => Flag.parseImap token.unwrapBytes

def setArgument : List Token → Result (Sequence × List Token) :=
  takeArgument "Missing sequence set." fun token => parseSequenceSet token.unwrapBytes

def modSeqArgument : List Token → Result (Nat × List Token) :=
  takeArgument "Missing MODSEQ mod-sequence-valzer parameter." fun token =>
    parseNumber 64 token.unwrapBytes

def unsupportedModSeq {α : Type} (value : Bytes) : Result α :=
  .error [.text "Unsupported MODSEQ parameter '", .lossy value, .text "'."]

def modSeqEntry (flag : Flag) : List Token → Result (ModSeqEntry × List Token)
  | [] => fail "Missing MODSEQ entry-type-req parameter."
  | .argument value :: tokens =>
    if eqIgnoreAsciiCase value (utf8 "all") then .ok (.all flag, tokens)
    else if eqIgnoreAsciiCase value (utf8 "shared") then .ok (.shared flag, tokens)
    else if eqIgnoreAsciiCase value (utf8 "priv") then .ok (.priv flag, tokens)
    else unsupportedModSeq value
  | token :: _ => unsupportedModSeq token.asBytes

def modSeqArguments (tokens : List Token) : Result (Criterion × List Token) := do
  let (token, tokens) ← nextToken "Missing MODSEQ parameters." tokens
  let param := token.unwrapBytes
  if param = [] ∨ ∃ ch ∈ param, isAsciiDigit ch = false then
    if param.length ≤ 7 ∨ ¬ utf8 "/flags/" <+: param then unsupportedModSeq param
    else
      let flag ← Flag.parseImap (param.drop 7)
      let (entry, tokens) ← modSeqEntry flag tokens
      let (n, tokens) ← modSeqArgument tokens
      .ok (.modSeq n entry, tokens)
  else
    let n ← parseNumber 64 param
    .ok (.modSeq n .none, tokens)

/-- One element of a search: a criterion, or a token that opens or closes a group. -/
inductive Item (α : Type) where
  | leaf (a : α)
  | or
  | not
  | parenthesisOpen
  | parenthesisClose
  deriving DecidableEq

def readKey (codec : Codec) (key : SearchKey) (tokens : List Token) :
    Result (Item Criterion × List Token) :=
  match key with
  | .plain key => .ok (.leaf (.plain key), tokens)
  | .string key => do
    let (s, tokens) ← decodeArgument codec tokens
    .ok (.leaf (.string key s), tokens)
  | .header => do
    let (name, tokens) ← decodeArgument codec tokens
    let (s, tokens) ← decodeArgument codec tokens
    .ok (.leaf (.header name s), tokens)
  | .date key => do
    let (day, tokens) ← dateArgument codec tokens
    .ok (.leaf (.date key day), tokens)
  | .number key => do
    let (n, tokens) ← numberArgument tokens
    .ok (.leaf (.number key n), tokens)
  | .keyword => do
    let (flag, tokens) ← flagArgument tokens
    .ok (.leaf (.keyword flag), tokens)
  | .unkeyword => do
    let (flag, tokens) ← flagArgument tokens
    .ok (.leaf (.unkeyword flag), tokens)
  | .uid => do
    let (set, tokens) ← setArgument tokens
    .ok (.leaf (.sequence set true), tokens)
  | .modSeq => do
    let (criterion, tokens) ← modSeqArguments tokens
    .ok (.leaf criterion, tokens)
  | .emailId => do
    let (s, tokens) ← takeArgument "Expected an EMAILID value." Token.unwrapString tokens
    .ok (.leaf (.emailId s), tokens)
  | .threadId => do
    let (s, tokens) ← takeArgument "Expected an THREADID value." Token.unwrapString tokens
    .ok (.leaf (.threadId s), tokens)
  | .or => .ok (.or, tokens)
  | .not => .ok (.not, tokens)

def readItem (codec : Codec) (token : Token) (tokens : List Token) :
    Result (Item Criterion × List Token) :=
  match token with
  | .argument value =>
    match searchKey? value with
    | some key => readKey codec key tokens
    | none => do
      let set ← parseSequenceSet value
      .ok (.leaf (.sequence set false), tokens)
  | .parenthesisOpen => .ok (.parenthesisOpen, tokens)
  | .parenthesisClose => .ok (.parenthesisClose, tokens)
  | token => .error [.text "Unexpected token ", .quoted token.asBytes, .text "."]

/-! ## No key gives tokens back -/

/-- The reader leaves no more tokens than it was given. -/
def Shrinks {α : Type} (tokens : List Token) (r : Result (α × List Token)) : Prop :=
  ∀ a rest, r = .ok (a, rest) → rest.length ≤ tokens.length

variable (missing : String)

section Shrinks

variable {α β : Type} {tokens : List Token}

theorem shrinks_ok (a : α) : Shrinks tokens (.ok (a, tokens)) := by
  intro b rest h
  cases h
  exact Nat.le_refl _

theorem shrinks_error (e : Message) : Shrinks tokens (.error e : Result (α × List Token)) := by
  intro b rest h
  cases h

theorem shrinks_nextToken : Shrinks tokens (nextToken missing tokens) := by
  intro token rest h
  cases tokens with
  | nil => cases h
  | cons t tokens =>
    cases h
    exact Nat.le_succ _

theorem shrinks_bind {r : Result (α × List Token)} {f : α × List Token → Result (β × List Token)}
    (hr : Shrinks tokens r) (hf : ∀ a rest, Shrinks rest (f (a, rest))) :
    Shrinks tokens (r >>= f) := by
  intro b rest h
  cases r with
  | error e => cases h
  | ok x => exact Nat.le_trans (hf x.1 x.2 b rest h) (hr x.1 x.2 rfl)

theorem shrinks_value {r : Result α} {f : α → Result (β × List Token)}
    (hf : ∀ a, Shrinks tokens (f a)) : Shrinks tokens (r >>= f) := by
  intro b rest h
  cases r with
  | error e => cases h
  | ok a => exact hf a b rest h

theorem shrinks_takeArgument (value : Token → Result α) :
    Shrinks tokens (takeArgument missing value tokens) :=
  shrinks_bind (shrinks_nextToken missing) fun _ _ => shrinks_value fun a => shrinks_ok a

theorem shrinks_modSeqEntry (flag : Flag) : Shrinks tokens (modSeqEntry flag tokens) := by
  intro entry rest h
  unfold modSeqEntry at h
  split at h
  · cases h
  · split at h
    · cases h
      exact Nat.le_succ _
    · split at h
      · cases h
        exact Nat.le_succ _
      · split at h
        · cases h
          exact Nat.le_succ _
        · cases h
  · cases h

theorem shrinks_modSeqArguments : Shrinks tokens (modSeqArguments tokens) := by
  refine shrinks_bind (shrinks_nextToken _) fun token rest => ?_
  dsimp only
  split
  · split
    · exact shrinks_error _
    · refine shrinks_value fun flag => shrinks_bind (shrinks_modSeqEntry flag) fun entry rest => ?_
      exact shrinks_bind (shrinks_takeArgument _ _) fun _ _ => shrinks_ok _
  · exact shrinks_value fun n => shrinks_ok _

end Shrinks

theorem shrinks_readKey (codec : Codec) (key : SearchKey) (tokens : List Token) :
    Shrinks tokens (readKey codec key tokens) := by
  cases key with
  | plain key => exact shrinks_ok _
  | string key => exact shrinks_bind (shrinks_takeArgument _ _) fun _ _ => shrinks_ok _
  | header =>
    exact shrinks_bind (shrinks_takeArgument _ _) fun _ _ =>
      shrinks_bind (shrinks_takeArgument _ _) fun _ _ => shrinks_ok _
  | date key | number key | keyword | unkeyword | uid =>
    exact shrinks_bind (shrinks_takeArgument _ _) fun _ _ => shrinks_ok _
  | modSeq => exact shrinks_bind shrinks_modSeqArguments fun _ _ => shrinks_ok _
  | emailId | threadId => exact shrinks_bind (shrinks_takeArgument _ _) fun _ _ => shrinks_ok _
  | or | not => exact shrinks_ok _

theorem shrinks_readItem (codec : Codec) (token : Token) (tokens : List Token) :
    Shrinks tokens (readItem codec token tokens) := by
  cases token with
  | argument value =>
    simp only [readItem]
    split
    · exact shrinks_readKey codec _ tokens
    · exact shrinks_value fun set => shrinks_ok _
  | parenthesisOpen | parenthesisClose => exact shrinks_ok _
  | bracketOpen | bracketClose | lt | gt | dot | nil => exact shrinks_error _

/-! ## What a client writes

A client has its own way of writing a text in the charset it named and a day. -/

structure Client where
  encode : String → Bytes
  day : Int → Bytes

def PlainKey.name : PlainKey → String
  | .all => "ALL"
  | .answered => "ANSWERED"
  | .deleted => "DELETED"
  | .draft => "DRAFT"
  | .flagged => "FLAGGED"
  | .seen => "SEEN"
  | .unanswered => "UNANSWERED"
  | .undeleted => "UNDELETED"
  | .undraft => "UNDRAFT"
  | .unflagged => "UNFLAGGED"
  | .unseen => "UNSEEN"
  | .recent => "RECENT"
  | .new => "NEW"
  | .old => "OLD"

def StringKey.name : StringKey → String
  | .bcc => "BCC"
  | .body => "BODY"
  | .cc => "CC"
  | .from_ => "FROM"
  | .subject => "SUBJECT"
  | .text => "TEXT"
  | .to => "TO"

def DateKey.name : DateKey → String
  | .before => "BEFORE"
  | .on => "ON"
  | .sentBefore => "SENTBEFORE"
  | .sentOn => "SENTON"
  | .sentSince => "SENTSINCE"
  | .since => "SINCE"

def NumberKey.name : NumberKey → String
  | .larger => "LARGER"
  | .smaller => "SMALLER"
  | .older => "OLDER"
  | .younger => "YOUNGER"

def word (name : String) : Token := .argument (utf8 name)

def ModSeqEntry.tokens : ModSeqEntry → List Token
  | .shared flag => [.argument (utf8 "/flags/" ++ flag.serialize), word "shared"]
  | .priv flag => [.argument (utf8 "/flags/" ++ flag.serialize), word "priv"]
  | .all flag => [.argument (utf8 "/flags/" ++ flag.serialize), word "all"]
  | .none => []

namespace Criterion

def tokens (client : Client) : Criterion → List Token
  | .sequence set false => [.argument set.text]
  | .sequence set true => [word "UID", .argument set.text]
  | .plain key => [word key.name]
  | .string key value => [word key.name, stringToken (client.encode value)]
  | .header name value =>
    [word "HEADER", stringToken (client.encode name), stringToken (client.encode value)]
  | .date key day => [word key.name, .argument (client.day day)]
  | .number key value => [word key.name, .argument (decimal value)]
  | .keyword flag => [word "KEYWORD", .argument flag.serialize]
  | .unkeyword flag => [word "UNKEYWORD", .argument flag.serialize]
  | .modSeq value entry => word "MODSEQ" :: (entry.tokens ++ [.argument (decimal value)])
  | .emailId value => [word "EMAILID", stringToken (utf8 value)]
  | .threadId value => [word "THREADID", stringToken (utf8 value)]

/-- The numbers have the width of the protocol, the flags are proper ones, and the server's
decoder and calendar understand the client's texts and days. -/
def Writable (codec : Codec) (client : Client) : Criterion → Prop
  | .sequence set _ => set.Fits
  | .plain _ => True
  | .string _ value => decodeBytes codec (client.encode value) = .ok value
  | .header name value =>
    decodeBytes codec (client.encode name) = .ok name ∧
      decodeBytes codec (client.encode value) = .ok value
  | .date _ day => parseDate codec.calendar (client.day day) = .ok day
  | .number _ value => value < 2 ^ 32
  | .keyword flag => flag.Proper
  | .unkeyword flag => flag.Proper
  | .modSeq value entry =>
    value < 2 ^ 64 ∧
      match entry with
      | .shared flag => flag.Proper
      | .priv flag => flag.Proper
      | .all flag => flag.Proper
      | .none => True
  | .emailId _ => True
  | .threadId _ => True

end Criterion

theorem searchKey_plain (key : PlainKey) : searchKey? (utf8 key.name) = some (.plain key) := by
  cases key <;> decide

theorem searchKey_string (key : StringKey) : searchKey? (utf8 key.name) = some (.string key) := by
  cases key <;> decide

theorem searchKey_date (key : DateKey) : searchKey? (utf8 key.name) = some (.date key) := by
  cases key <;> decide

theorem searchKey_number (key : NumberKey) : searchKey? (utf8 key.name) = some (.number key) := by
  cases key <;> decide

/-- Every name starts with a letter, so a text that starts below the letters is no name. -/
theorem searchKey_none {b : UInt8} {rest : Bytes} (h : b < 65) : searchKey? (b :: rest) = none := by
  have hletter : ∀ entry ∈ searchKeys,
      ((utf8 entry.1).map toAsciiLowercase).head?.all (fun c => decide (65 ≤ c)) = true ∧
        utf8 entry.1 ≠ [] := by decide
  have hlow : toAsciiLowercase b = b := by
    unfold toAsciiLowercase
    rw [if_neg]
    rintro ⟨hle, -⟩
    rw [UInt8.le_iff_toNat_le] at hle
    rw [UInt8.lt_iff_toNat_lt] at h
    omega
  rw [searchKey?, Option.map_eq_none_iff, List.find?_eq_none]
  intro entry hentry heq
  obtain ⟨hhead, hne⟩ := hletter entry hentry
  rw [eqIgnoreAsciiCase, beq_iff_eq, map_cons, hlow] at heq
  rw [← heq] at hhead
  simp only [List.head?_cons, Option.all_some, decide_eq_true_eq, UInt8.le_iff_toNat_le] at hhead
  rw [UInt8.lt_iff_toNat_lt] at h
  omega

theorem decimal_head (n : Nat) (rest : Bytes) : ∃ b more, decimal n ++ rest = b :: more ∧ b < 65 := by
  cases h : decimal n with
  | nil => exact absurd h (decimal_ne_nil n)
  | cons b more =>
    refine ⟨b, more ++ rest, rfl, ?_⟩
    have hd : isAsciiDigit b = true :=
      isAsciiDigit_of_mem_decimal (n := n) (by rw [h]; exact mem_cons_self)
    simp only [isAsciiDigit, Bool.and_eq_true, decide_eq_true_eq, UInt8.le_iff_toNat_le] at hd
    rw [UInt8.lt_iff_toNat_lt]
    have h57 : (57 : UInt8).toNat = 57 := rfl
    have h65 : (65 : UInt8).toNat = 65 := rfl
    omega

theorem itemText_head {item : Sequence} (h : item.ItemFits) (rest : Bytes) :
    ∃ b more, item.itemText ++ rest = b :: more ∧ b < 65 := by
  cases item with
  | number n => exact decimal_head n rest
  | range a b =>
    cases a with
    | none => cases b <;> exact ⟨42, _, rfl, by decide⟩
    | some a =>
      cases b with
      | none | some b =>
        simp only [Sequence.itemText, append_assoc]
        exact decimal_head a _
  | savedSearch => exact ⟨36, rest, rfl, by decide⟩
  | list items => exact h.elim

theorem text_head {set : Sequence} (h : set.Fits) : ∃ b more, set.text = b :: more ∧ b < 65 := by
  have hone : ∀ item : Sequence, item.ItemFits → ∃ b more, item.itemText = b :: more ∧ b < 65 := by
    intro item hitem
    simpa using itemText_head hitem []
  cases set with
  | number n => exact hone (.number n) h
  | range a b => exact hone (.range a b) h
  | savedSearch => exact hone .savedSearch h
  | list items =>
    obtain ⟨hlen, hall⟩ := h
    match items, hlen, hall with
    | item :: next :: items, _, hall => exact itemText_head (hall item mem_cons_self) _

theorem takeArgument_ok {α : Type} {value : Token → Result α} {token : Token} {a : α}
    (h : value token = .ok a) (rest : List Token) :
    takeArgument missing value (token :: rest) = .ok (a, rest) := by
  simp [takeArgument, nextToken, bind, Except.bind, h]

theorem serialize_ne_nil {flag : Flag} (h : flag.Proper) : flag.serialize ≠ [] := by
  intro hnil
  have hread := Flag.parseImap_serialize h
  rw [hnil] at hread
  cases hread

theorem modSeqArguments_flag {flag : Flag} {entry : ModSeqEntry} {value : Nat} {kind : Token}
    {rest : List Token} (h : flag.Proper) (hvalue : value < 2 ^ 64)
    (hentry : ∀ tokens, modSeqEntry flag (kind :: tokens) = .ok (entry, tokens)) :
    modSeqArguments (.argument (utf8 "/flags/" ++ flag.serialize) :: kind ::
      .argument (decimal value) :: rest) = .ok (.modSeq value entry, rest) := by
  have hletter : (utf8 "/flags/" ++ flag.serialize = [] ∨
      ∃ ch ∈ utf8 "/flags/" ++ flag.serialize, isAsciiDigit ch = false) :=
    Or.inr ⟨47, mem_append_left _ (by decide), by decide⟩
  have hlen : ¬ ((utf8 "/flags/" ++ flag.serialize).length ≤ 7 ∨
      ¬ utf8 "/flags/" <+: utf8 "/flags/" ++ flag.serialize) := by
    have hpos := length_pos_iff.mpr (serialize_ne_nil h)
    have h7 : (utf8 "/flags/").length = 7 := by decide
    rintro (hle | hno)
    · rw [length_append] at hle
      omega
    · exact hno (prefix_append _ _)
  have hdrop : (utf8 "/flags/" ++ flag.serialize).drop 7 = flag.serialize := drop_left' rfl
  have hnum : modSeqArgument (.argument (decimal value) :: rest) = .ok (value, rest) :=
    takeArgument_ok _ (parseNumber_decimal hvalue) rest
  simp only [modSeqArguments, nextToken, bind, Except.bind, Token.unwrapBytes, if_pos hletter,
    if_neg hlen, hdrop, Flag.parseImap_serialize h, hentry, hnum]

variable {client : Client}

theorem modSeqArguments_tokens {value : Nat} {entry : ModSeqEntry} {codec : Codec}
    (h : (Criterion.modSeq value entry).Writable codec client) (rest : List Token) :
    modSeqArguments (entry.tokens ++ .argument (decimal value) :: rest) =
      .ok (.modSeq value entry, rest) := by
  obtain ⟨hvalue, hentry⟩ := h
  cases entry with
  | none =>
    have hdigits : ¬ (decimal value = [] ∨ ∃ ch ∈ decimal value, isAsciiDigit ch = false) := by
      rintro (hnil | ⟨ch, hch, hno⟩)
      · exact decimal_ne_nil value hnil
      · rw [isAsciiDigit_of_mem_decimal hch] at hno
        cases hno
    simp [ModSeqEntry.tokens, modSeqArguments, nextToken, bind, Except.bind, Token.unwrapBytes,
      if_neg hdigits, parseNumber_decimal hvalue]
  | all flag | shared flag | priv flag => exact modSeqArguments_flag hentry hvalue fun _ => rfl

theorem readItem_word (codec : Codec) {name : String} {key : SearchKey}
    (h : searchKey? (utf8 name) = some key) (tokens : List Token) :
    readItem codec (word name) tokens = readKey codec key tokens := by
  simp [readItem, word, h]

theorem decodeArgument_encode {codec : Codec} {value : String}
    (h : decodeBytes codec (client.encode value) = .ok value) (rest : List Token) :
    decodeArgument codec (stringToken (client.encode value) :: rest) = .ok (value, rest) := by
  refine takeArgument_ok _ ?_ rest
  rw [unwrapBytes_stringToken]
  exact h

theorem flagArgument_serialize {flag : Flag} (h : flag.Proper) (rest : List Token) :
    flagArgument (.argument flag.serialize :: rest) = .ok (flag, rest) :=
  takeArgument_ok _ (Flag.parseImap_serialize h) rest

/-- The first of the tokens a client writes for a criterion takes the others and gives the
criterion. -/
theorem readItem_tokens {codec : Codec} {c : Criterion} (h : c.Writable codec client) :
    ∃ token tokens, c.tokens client = token :: tokens ∧
      ∀ rest, readItem codec token (tokens ++ rest) = .ok (.leaf c, rest) := by
  cases c with
  | sequence set uid =>
    have hset : parseSequenceSet set.text = .ok set := parseSequenceSet_text h
    cases uid with
    | false =>
      refine ⟨.argument set.text, [], rfl, fun rest => ?_⟩
      obtain ⟨b, more, htext, hb⟩ := text_head h
      have hnone : searchKey? set.text = none := by
        rw [htext]
        exact searchKey_none hb
      simp [readItem, hnone, hset, bind, Except.bind]
    | true =>
      refine ⟨word "UID", [.argument set.text], rfl, fun rest => ?_⟩
      have harg : setArgument (.argument set.text :: rest) = .ok (set, rest) :=
        takeArgument_ok _ hset rest
      rw [readItem_word codec (show searchKey? (utf8 "UID") = some .uid by decide)]
      simp [readKey, harg, bind, Except.bind]
  | plain key => exact ⟨word key.name, [], rfl, readItem_word codec (searchKey_plain key)⟩
  | string key value =>
    refine ⟨word key.name, [stringToken (client.encode value)], rfl, fun rest => ?_⟩
    rw [readItem_word codec (searchKey_string key)]
    simp [readKey, decodeArgument_encode h, bind, Except.bind]
  | header name value =>
    refine ⟨word "HEADER", [stringToken (client.encode name), stringToken (client.encode value)],
      rfl, fun rest => ?_⟩
    rw [readItem_word codec (show searchKey? (utf8 "HEADER") = some .header by decide)]
    simp [readKey, decodeArgument_encode h.1, decodeArgument_encode h.2, bind, Except.bind]
  | date key day =>
    refine ⟨word key.name, [.argument (client.day day)], rfl, fun rest => ?_⟩
    have hday : parseDate codec.calendar (client.day day) = .ok day := h
    have harg : dateArgument codec (.argument (client.day day) :: rest) = .ok (day, rest) :=
      takeArgument_ok _ hday rest
    rw [readItem_word codec (searchKey_date key)]
    simp [readKey, harg, bind, Except.bind]
  | number key value =>
    refine ⟨word key.name, [Token.argument (decimal value)], rfl, fun rest => ?_⟩
    have harg : numberArgument (.argument (decimal value) :: rest) = .ok (value, rest) :=
      takeArgument_ok _ (parseNumber_decimal h) rest
    rw [readItem_word codec (searchKey_number key)]
    simp [readKey, harg, bind, Except.bind]
  | keyword flag =>
    refine ⟨word "KEYWORD", [.argument flag.serialize], rfl, fun rest => ?_⟩
    rw [readItem_word codec (show searchKey? (utf8 "KEYWORD") = some .keyword by decide)]
    simp [readKey, flagArgument_serialize h, bind, Except.bind]
  | unkeyword flag =>
    refine ⟨word "UNKEYWORD", [.argument flag.serialize], rfl, fun rest => ?_⟩
    rw [readItem_word codec (show searchKey? (utf8 "UNKEYWORD") = some .unkeyword by decide)]
    simp [readKey, flagArgument_serialize h, bind, Except.bind]
  | modSeq value entry =>
    refine ⟨word "MODSEQ", entry.tokens ++ [Token.argument (decimal value)], rfl, fun rest => ?_⟩
    rw [readItem_word codec (show searchKey? (utf8 "MODSEQ") = some .modSeq by decide)]
    simp [readKey, modSeqArguments_tokens h, bind, Except.bind]
  | emailId value =>
    refine ⟨word "EMAILID", [stringToken (utf8 value)], rfl, fun rest => ?_⟩
    rw [readItem_word codec (show searchKey? (utf8 "EMAILID") = some .emailId by decide)]
    simp [readKey, takeArgument_ok _ (unwrapString_stringToken value), bind, Except.bind]
  | threadId value =>
    refine ⟨word "THREADID", [stringToken (utf8 value)], rfl, fun rest => ?_⟩
    rw [readItem_word codec (show searchKey? (utf8 "THREADID") = some .threadId by decide)]
    simp [readKey, takeArgument_ok _ (unwrapString_stringToken value), bind, Except.bind]

end Bearmail.Imap
