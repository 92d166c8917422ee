import Mathlib.Algebra.GroupWithZero.Nat
import Bearmail.Imap.Token

/-!
# The receiver

`Receiver::parse` of `imap-proto/src/receiver.rs`: a machine that reads the bytes of a connection
one by one and reports a request, an error, or that a literal has to be asked for. The commands
are those of `imap-proto/src/parser/mod.rs`.

Sizes are unbounded here; `resize_buffer` only reserves memory and is left out.
-/

namespace Bearmail.Imap

/-! ## Commands -/

/-- What the receiver needs to know about the commands of a protocol. -/
class CommandParser (T : Type) extends Inhabited T where
  parse : Bytes → Bool → Option T
  tokenizeBrackets : T → Bool

inductive Command where
  | capability
  | noop
  | logout
  | startTls
  | authenticate
  | login
  | enable
  | select
  | examine
  | create
  | delete
  | rename
  | subscribe
  | unsubscribe
  | list
  | namespace
  | status
  | append
  | idle
  | close
  | unselect
  | expunge (isUid : Bool)
  | search (isUid : Bool)
  | fetch (isUid : Bool)
  | store (isUid : Bool)
  | copy (isUid : Bool)
  | move (isUid : Bool)
  | sort (isUid : Bool)
  | thread (isUid : Bool)
  | lsub
  | check
  | setAcl
  | deleteAcl
  | getAcl
  | listRights
  | myRights
  | unauthenticate
  | id
  | getQuota
  | getQuotaRoot
  | getJmapAccess
  deriving DecidableEq

def Command.names (isUid : Bool) : List (String × Command) :=
  [("CAPABILITY", .capability), ("NOOP", .noop), ("LOGOUT", .logout), ("STARTTLS", .startTls),
    ("AUTHENTICATE", .authenticate), ("LOGIN", .login), ("ENABLE", .enable), ("SELECT", .select),
    ("EXAMINE", .examine), ("CREATE", .create), ("DELETE", .delete), ("RENAME", .rename),
    ("SUBSCRIBE", .subscribe), ("UNSUBSCRIBE", .unsubscribe), ("LIST", .list),
    ("NAMESPACE", .namespace), ("STATUS", .status), ("APPEND", .append), ("IDLE", .idle),
    ("CLOSE", .close), ("UNSELECT", .unselect), ("EXPUNGE", .expunge isUid),
    ("SEARCH", .search isUid), ("FETCH", .fetch isUid), ("STORE", .store isUid),
    ("COPY", .copy isUid), ("MOVE", .move isUid), ("SORT", .sort isUid),
    ("THREAD", .thread isUid), ("LSUB", .lsub), ("CHECK", .check), ("SETACL", .setAcl),
    ("DELETEACL", .deleteAcl), ("GETACL", .getAcl), ("LISTRIGHTS", .listRights),
    ("MYRIGHTS", .myRights), ("UNAUTHENTICATE", .unauthenticate), ("ID", .id),
    ("GETQUOTA", .getQuota), ("GETQUOTAROOT", .getQuotaRoot), ("GETJMAPACCESS", .getJmapAccess)]

instance : CommandParser Command where
  default := .noop
  parse := fun value isUid =>
    ((Command.names isUid).find? fun name => decide (utf8 name.1 = value)).map Prod.snd
  tokenizeBrackets := fun command =>
    match command with
    | .fetch _ => true
    | _ => false

/-! ## The machine -/

structure Request (T : Type) where
  tag : String
  command : T
  tokens : List Token
  deriving DecidableEq

/-- What `parse` returns, apart from asking for more data. -/
inductive Report (T : Type) where
  | request (request : Request T)
  | needsLiteral (size : Nat)
  | error (tag : Option String) (message : Message)
  deriving DecidableEq

inductive ReceiverState where
  | start
  | tag
  | command (isUid : Bool)
  | argument (lastCh : UInt8)
  | argumentQuoted (escaped : Bool)
  | literal (nonSync : Bool)
  | literalSeek (size : Nat) (nonSync : Bool)
  | literalData (remaining : Nat)
  | literalDiscard (remaining : Nat)
  deriving DecidableEq

structure Receiver (T : Type) where
  buf : Bytes
  request : Request T
  state : ReceiverState
  maxRequestSize : Nat
  currentRequestSize : Nat
  startState : ReceiverState
  deriving DecidableEq

def argMaxLen : Nat := 8000

def isAsciiWhitespace (ch : UInt8) : Bool :=
  ch == 32 || ch == 9 || ch == 10 || ch == 12 || ch == 13

def isAsciiAlphanumeric (ch : UInt8) : Bool :=
  (48 ≤ ch && ch ≤ 57) || (65 ≤ ch && ch ≤ 90) || (97 ≤ ch && ch ≤ 122)

def toAsciiUppercase (ch : UInt8) : UInt8 := if 97 ≤ ch ∧ ch ≤ 122 then ch - 32 else ch

def parseU32 (digits : Bytes) : Option Nat :=
  let value := digits.foldl (fun n d => 10 * n + (d.toNat - 48)) 0
  if value < 2 ^ 32 then some value else none

namespace Receiver

variable {T : Type} [CommandParser T]

def emptyRequest : Request T := ⟨"", default, []⟩

/-- A receiver before anything of a request has been read. -/
def reset (r : Receiver T) : Receiver T :=
  { r with buf := [], request := emptyRequest, state := r.startState, currentRequestSize := 0 }

/-- The receiver after one byte, and its report. -/
abbrev Step (T : Type) := Receiver T × Option (Report T)

def errorReset (r : Receiver T) (message : Message) : Step T :=
  (r.reset, some (.error (if r.request.tag = "" then none else some r.request.tag) message))

def sizeMessage (r : Receiver T) : Message :=
  [.text "Request exceeds maximum limit of ", .number r.maxRequestSize, .text " bytes."]

def literalMessage (r : Receiver T) : Message :=
  [.text "Literal exceeds the maximum request size of ", .number r.maxRequestSize, .text " bytes."]

def addToken (r : Receiver T) (token : Token) : Receiver T :=
  { r with request := { r.request with tokens := r.request.tokens ++ [token] } }

def pushArgument (r : Receiver T) (inQuote : Bool) (next : Receiver T → Step T) : Step T :=
  if r.buf ≠ [] then
    let sized := { r with currentRequestSize := r.currentRequestSize + r.buf.length }
    if sized.currentRequestSize > r.maxRequestSize then sized.errorReset r.sizeMessage
    else next ({ sized with buf := [] }.addToken (.argument r.buf))
  else if inQuote then next (r.addToken .nil)
  else next r

def pushToken (r : Receiver T) (token : Token) (next : Receiver T → Step T) : Step T :=
  let sized := { r with currentRequestSize := r.currentRequestSize + 1 }
  if sized.currentRequestSize > r.maxRequestSize then sized.errorReset r.sizeMessage
  else next (sized.addToken token)

def pushChecked (r : Receiver T) (ch : UInt8) (limit : Nat) (message : String)
    (next : Receiver T → Step T) : Step T :=
  if r.buf.length < limit then next { r with buf := r.buf ++ [ch] }
  else r.errorReset [.text message]

def goto (state : ReceiverState) (r : Receiver T) : Step T := ({ r with state }, none)

def finish (r : Receiver T) : Step T :=
  ({ r with request := emptyRequest, state := r.startState, currentRequestSize := 0 },
    some (.request r.request))

def stepTag (r : Receiver T) (ch : UInt8) : Step T :=
  if ch = 32 then
    if r.buf ≠ [] then
      match fromUtf8 r.buf with
      | some tag =>
        ({ r with buf := [], request := { r.request with tag }, state := .command false }, none)
      | none => { r with buf := [] }.errorReset [.text "Tag is not a valid UTF-8 string."]
    else (r, none)
  else if ch = 9 ∨ ch = 13 then (r, none)
  else if ch = 10 then
    r.errorReset [.text "Missing command after tag ",
      .quoted (if (fromUtf8 r.buf).isSome then r.buf else []), .text ", found CRLF instead."]
  else
    r.pushChecked ch 128 "Tag exceeds maximum length of 128 characters." fun r => (r, none)

def stepCommand (r : Receiver T) (isUid : Bool) (ch : UInt8) : Step T :=
  if isAsciiAlphanumeric ch then
    r.pushChecked (toAsciiUppercase ch) 15 "Command exceeds maximum length of 15 characters."
      fun r => (r, none)
  else if isAsciiWhitespace ch then
    if r.buf ≠ [] then
      if eqIgnoreAsciiCase r.buf (utf8 "UID") = false then
        match CommandParser.parse r.buf isUid with
        | none =>
          r.errorReset [.text "Unrecognized command '", .lossy r.buf, .text "'."]
        | some command =>
          let parsed := { r with buf := [], request := { r.request with command } }
          if ch ≠ 10 then parsed.goto (.argument 32) else parsed.finish
      else { r with buf := [] }.goto (.command true)
    else (r, none)
  else r.errorReset [.text "Invalid character ", .char ch, .text " in command name."]

/-- The tokens that are single characters; brackets and the like only for some commands. -/
def singleToken (r : Receiver T) (ch : UInt8) : Option Token :=
  if ch = 40 then some .parenthesisOpen
  else if ch = 41 then some .parenthesisClose
  else if CommandParser.tokenizeBrackets r.request.command = true then
    if ch = 91 then some .bracketOpen
    else if ch = 93 then some .bracketClose
    else if ch = 60 then some .lt
    else if ch = 62 then some .gt
    else if ch = 46 then some .dot
    else none
  else none

def stepArgument (r : Receiver T) (lastCh ch : UInt8) : Step T :=
  if ch = 34 ∧ isAsciiWhitespace lastCh = true then
    r.pushArgument false fun r => r.goto (.argumentQuoted false)
  else if ch = 123 ∧ (isAsciiWhitespace lastCh = true ∨ lastCh = 126 ∧ r.buf.length = 1) then
    if lastCh ≠ 126 then r.pushArgument false fun r => r.goto (.literal false)
    else { r with buf := [] }.goto (.literal false)
  else
    match r.singleToken ch with
    | some token => r.pushArgument false fun r => r.pushToken token fun r => (r, none)
    | none =>
      if ch = 10 then r.pushArgument false fun r => r.finish
      else if isAsciiWhitespace ch then r.pushArgument false fun r => r.goto (.argument ch)
      else
        r.pushChecked ch argMaxLen "Argument exceeds maximum length of 8000 bytes."
          fun r => r.goto (.argument ch)

def stepQuoted (r : Receiver T) (escaped : Bool) (ch : UInt8) : Step T :=
  let tooLong := "Quoted argument too long."
  if ch = 34 then
    if escaped = false then r.pushArgument true fun r => r.goto (.argument 32)
    else r.pushChecked ch argMaxLen tooLong fun r => r.goto (.argumentQuoted false)
  else if ch = 92 then
    if escaped then r.pushChecked ch argMaxLen tooLong fun r => r.goto (.argumentQuoted false)
    else r.goto (.argumentQuoted true)
  else if ch = 10 then r.errorReset [.text "Unterminated quoted argument."]
  else
    let r := if escaped then { r with buf := r.buf ++ [92] } else r
    r.pushChecked ch argMaxLen tooLong fun r => r.goto (.argumentQuoted false)

def stepLiteral (r : Receiver T) (nonSync : Bool) (ch : UInt8) : Step T :=
  if ch = 125 then
    if r.buf ≠ [] then
      match parseU32 r.buf with
      | none => r.errorReset [.text "Literal size is not a valid number."]
      | some size =>
        if r.currentRequestSize + size > r.maxRequestSize ∧ nonSync = false then
          r.errorReset r.literalMessage
        else { r with buf := [] }.goto (.literalSeek size nonSync)
    else r.errorReset [.text "Invalid empty literal."]
  else if ch = 43 then
    if r.buf ≠ [] then r.goto (.literal true)
    else r.errorReset [.text "Invalid non-sync literal."]
  else if 48 ≤ ch ∧ ch ≤ 57 then
    if nonSync = false then
      r.pushChecked ch 15 "Literal size exceeds maximum of 15 digits." fun r => (r, none)
    else r.errorReset [.text "Invalid literal."]
  else r.errorReset [.text "Invalid character ", .char ch, .text " in literal."]

/-- A literal that is not announced by the client has to be asked for. -/
def askLiteral (size : Nat) (nonSync : Bool) (r : Receiver T) : Step T :=
  (r, if nonSync then none else some (.needsLiteral size))

def stepLiteralSeek (r : Receiver T) (size : Nat) (nonSync : Bool) (ch : UInt8) : Step T :=
  if ch = 10 then
    if nonSync = true ∧ r.currentRequestSize + size > r.maxRequestSize then
      r.goto (.literalDiscard size)
    else if size > 0 then askLiteral size nonSync { r with state := .literalData size }
    else
      { r with state := .argument 32 }.pushToken .nil (askLiteral size nonSync)
  else if isAsciiWhitespace ch = false then
    r.errorReset [.text "Expected CRLF after literal, found an invalid char."]
  else (r, none)

def step (r : Receiver T) (ch : UInt8) : Step T :=
  match r.state with
  | .start =>
    if isAsciiWhitespace ch = false then ({ r with buf := r.buf ++ [ch], state := .tag }, none)
    else (r, none)
  | .tag => r.stepTag ch
  | .command isUid => r.stepCommand isUid ch
  | .argument lastCh => r.stepArgument lastCh ch
  | .argumentQuoted escaped => r.stepQuoted escaped ch
  | .literal nonSync => r.stepLiteral nonSync ch
  | .literalSeek size nonSync => r.stepLiteralSeek size nonSync ch
  | .literalDiscard remaining =>
    if remaining > 1 then r.goto (.literalDiscard (remaining - 1))
    else r.errorReset r.literalMessage
  | .literalData remaining =>
    let r := { r with buf := r.buf ++ [ch] }
    if remaining > 1 then r.goto (.literalData (remaining - 1))
    else r.pushArgument false fun r => r.goto (.argument 32)

/-- `parse`: the first report, and the bytes that are left; no report asks for more data. -/
def parse (r : Receiver T) : Bytes → Receiver T × Option (Report T) × Bytes
  | [] => (r, none, [])
  | ch :: bytes =>
    match r.step ch with
    | (r, some report) => (r, some report, bytes)
    | (r, none) => r.parse bytes

def new (maxRequestSize : Nat) : Receiver T := ⟨[], emptyRequest, .start, maxRequestSize, 0, .start⟩

end Receiver

end Bearmail.Imap
