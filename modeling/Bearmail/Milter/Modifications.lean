import Bearmail.Imap.Token

/-!
# Modifications of a message

`apply_milter_modifications` of `smtp/src/inbound/milter/message.rs`. The modifications of the
envelope are made as they come; the body and the header changes are gathered first, and then either
the new headers are written before the message, or all headers are written again.

Names, values and addresses are lists: header names and values of bytes, addresses of characters. The
message is what the parser of another crate makes of it, and the parameters of MAIL and RCPT are read
by that of a third.
-/

namespace Bearmail.Milter

open Imap (Bytes isWhitespace eqIgnoreAsciiCase)

abbrev Text := List Char

/-! ## Addresses -/

def trim (text : Text) : Text :=
  ((text.dropWhile isWhitespace).reverse.dropWhile isWhitespace).reverse

def rsplitOnce (ch : Char) (text : Text) : Option (Text × Text) :=
  if ch ∈ text then
    some (((text.reverse.dropWhile (· ≠ ch)).drop 1).reverse, (text.reverse.takeWhile (· ≠ ch)).reverse)
  else none

def stripBrackets (addr : Text) : Text :=
  match trim addr with
  | '<' :: addr =>
    match rsplitOnce '>' addr with
    | some (addr, _) => trim addr
    | none => trim addr
  | addr => addr

def domainPart (address : Text) : Text := ((rsplitOnce '@' address).map Prod.snd).getD []

structure SessionAddress where
  address : Text
  addressLcase : Text
  domain : Text
  flags : Nat
  dsnInfo : Option Text
  deriving DecidableEq

structure SessionData where
  mailFrom : Option SessionAddress
  rcptTo : List SessionAddress
  deriving DecidableEq

structure Library where
  /-- `str::to_lowercase` -/
  toLowercase : Text → Text
  /-- flags and ENVID, unless the parameters are refused -/
  mailFromParameters : Text → Option (Nat × Option Text)
  /-- flags and ORCPT, unless the parameters are refused -/
  rcptToParameters : Text → Option (Nat × Option Text)

def sessionAddress (lib : Library) (parameters : Text → Option (Nat × Option Text))
    (address args : Text) : SessionAddress :=
  let addressLcase := lib.toLowercase address
  let (flags, dsnInfo) :=
    if args = [] then (0, none) else (parameters (args ++ ['\n'])).getD (0, none)
  ⟨address, addressLcase, domainPart addressLcase, flags, dsnInfo⟩

def addRcpt (lib : Library) (recipient args : Text) (rcptTo : List SessionAddress) :
    List SessionAddress :=
  let recipient := stripBrackets recipient
  if '@' ∈ recipient then
    let rcpt := sessionAddress lib lib.rcptToParameters recipient args
    -- addresses are equal when their lowercase forms are
    if rcptTo.any fun r => r.addressLcase == rcpt.addressLcase then rcptTo else rcptTo ++ [rcpt]
  else rcptTo

def deleteRcpt (recipient : Text) (rcptTo : List SessionAddress) : List SessionAddress :=
  rcptTo.filter fun r => r.addressLcase != stripBrackets recipient

/-! ## Headers -/

structure Header where
  name : Bytes
  value : Bytes
  deriving DecidableEq

structure AuthenticatedMessage where
  rawParsedHeaders : List Header
  rawHeaders : Bytes
  rawBody : Bytes

def AuthenticatedMessage.hasHeader (message : AuthenticatedMessage) (name : Bytes) : Bool :=
  message.rawParsedHeaders.any fun header => eqIgnoreAsciiCase header.name name

structure HeaderChange where
  index : Nat
  name : Bytes
  value : Bytes
  isChange : Bool
  deriving DecidableEq

def changeLoop (index : Nat) (name value : Bytes) : Nat → List Header → List Header
  | _, [] => []
  | headerCount, header :: rest =>
    if eqIgnoreAsciiCase header.name name then
      if headerCount + 1 = index then
        if value ≠ [] then { header with value } :: rest else rest
      else header :: changeLoop index name value (headerCount + 1) rest
    else header :: changeLoop index name value headerCount rest

/-- The loop for the place of a new header, at a position, with the place so far. -/
def insertLoop (index : Nat) (name : Bytes) : Nat → Nat → Nat → List Header → Nat
  | _, _, headerPos, [] => headerPos
  | pos, headerCount, headerPos, header :: rest =>
    if eqIgnoreAsciiCase header.name name then
      if headerCount + 1 = index then pos
      else insertLoop index name (pos + 1) (headerCount + 1) pos rest
    else insertLoop index name (pos + 1) headerCount headerPos rest

def HeaderChange.apply (change : HeaderChange) (headers : List Header) : List Header :=
  if change.isChange then changeLoop change.index change.name change.value 0 headers
  else
    let headerPos :=
      if 0 < change.index then insertLoop change.index change.name 0 0 0 headers else 0
    headers.insertIdx headerPos ⟨change.name, change.value⟩

/-! ## `apply_milter_modifications` -/

inductive Modification where
  | changeFrom (sender args : Text)
  | addRcpt (recipient args : Text)
  | deleteRcpt (recipient : Text)
  | replaceBody (value : Bytes)
  | addHeader (name value : Bytes)
  | insertHeader (index : Nat) (name value : Bytes)
  | changeHeader (index : Nat) (name value : Bytes)
  | quarantine (reason : Bytes)
  deriving DecidableEq

def xQuarantine : Bytes := Imap.utf8 "X-Quarantine"

structure Gathered where
  session : SessionData
  body : Bytes
  headerChanges : List HeaderChange
  needsRewrite : Bool

def Gathered.push (gathered : Gathered) (change : HeaderChange) : Gathered :=
  { gathered with headerChanges := gathered.headerChanges ++ [change] }

def Gathered.rewrite (gathered : Gathered) : Gathered := { gathered with needsRewrite := true }

def gather (lib : Library) (message : AuthenticatedMessage) (gathered : Gathered) :
    Modification → Gathered
  | .changeFrom sender args =>
    let mailFrom := sessionAddress lib lib.mailFromParameters (stripBrackets sender) args
    { gathered with session := { gathered.session with mailFrom := some mailFrom } }
  | .addRcpt recipient args =>
    { gathered with session := { gathered.session with
        rcptTo := Milter.addRcpt lib recipient args gathered.session.rcptTo } }
  | .deleteRcpt recipient =>
    { gathered with session := { gathered.session with
        rcptTo := Milter.deleteRcpt recipient gathered.session.rcptTo } }
  | .replaceBody value => { gathered with body := gathered.body ++ value }
  | .addHeader name value => gathered.push ⟨0, name, value, false⟩
  | .insertHeader index name value => (gathered.push ⟨index, name, value, false⟩).rewrite
  | .changeHeader index name value =>
    if value = [] ∨ message.hasHeader name then
      (gathered.push ⟨index, name, value, true⟩).rewrite
    else gathered.push ⟨0, name, value, false⟩
  | .quarantine reason => gathered.push ⟨0, xQuarantine, reason, false⟩

inductive NewMessage where
  | unchanged
  /-- the headers of the message and a body -/
  | replaced (body : Bytes)
  /-- new headers, the headers of the message and a body -/
  | prepended (added : List Header) (body : Bytes)
  /-- headers and a body -/
  | rewritten (headers : List Header) (body : Bytes)

def NewMessage.headers (message : AuthenticatedMessage) : NewMessage → List Header
  | .unchanged | .replaced _ => message.rawParsedHeaders
  | .prepended added _ => added ++ message.rawParsedHeaders
  | .rewritten headers _ => headers

def NewMessage.body (message : AuthenticatedMessage) : NewMessage → Bytes
  | .unchanged => message.rawBody
  | .replaced body | .prepended _ body | .rewritten _ body => body

def endLine (value : Bytes) : Bytes := if value.getLast? = some 10 then [] else [13, 10]

def prependedLine (header : Header) : Bytes :=
  header.name ++ [58, 32] ++ header.value ++ endLine header.value

def isAsciiWhitespace (ch : UInt8) : Bool := ch = 32 || ch = 9 || ch = 10 || ch = 12 || ch = 13

/-- A header that is written again. The value of one of the message has its white space. -/
def rewrittenLine (header : Header) : Bytes :=
  header.name ++ (if header.value.head?.any isAsciiWhitespace then [58] else [58, 32]) ++
    header.value ++ endLine header.value

def NewMessage.bytes (message : AuthenticatedMessage) : NewMessage → Option Bytes
  | .unchanged => none
  | .replaced body => some (message.rawHeaders ++ body)
  | .prepended added body => some (added.flatMap prependedLine ++ message.rawHeaders ++ body)
  | .rewritten headers body => some (headers.flatMap rewrittenLine ++ [13, 10] ++ body)

def inPlace (changes : List HeaderChange) : List Header :=
  changes.map fun change => ⟨change.name, change.value⟩

def rewriteHeaders (changes : List HeaderChange) (headers : List Header) : List Header :=
  changes.foldl (fun headers change => change.apply headers) headers

def Gathered.newMessage (message : AuthenticatedMessage) (gathered : Gathered) : NewMessage :=
  if gathered.headerChanges = [] then
    if gathered.body ≠ [] then .replaced gathered.body else .unchanged
  else
    let newBody := if gathered.body ≠ [] then gathered.body else message.rawBody
    if gathered.needsRewrite then
      .rewritten (rewriteHeaders gathered.headerChanges message.rawParsedHeaders) newBody
    else .prepended (inPlace gathered.headerChanges) newBody

def gatherAll (lib : Library) (session : SessionData) (modifications : List Modification)
    (message : AuthenticatedMessage) : Gathered :=
  modifications.foldl (gather lib message) ⟨session, [], [], false⟩

def newMessage (lib : Library) (session : SessionData) (modifications : List Modification)
    (message : AuthenticatedMessage) : NewMessage :=
  (gatherAll lib session modifications message).newMessage message

/-- The session behind the modifications, and the new message unless nothing is changed. -/
def applyMilterModifications (lib : Library) (session : SessionData)
    (modifications : List Modification) (message : AuthenticatedMessage) :
    SessionData × Option Bytes :=
  ((gatherAll lib session modifications message).session,
    (newMessage lib session modifications message).bytes message)

end Bearmail.Milter
