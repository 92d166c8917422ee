import Bearmail.Lib.Pieces
import Bearmail.Lib.Turns
import Mathlib.Data.List.Infix

/-!
# SMTP sessions

`Session::ingest` of `smtp/src/inbound/session.rs`: one read of a connection is taken apart by the
receivers of the `smtp-proto` crate, until it is used up. The receivers, and the handlers of the
commands, are an `Mta`. Writes to the client succeed.

The message of a session is kept apart from its other data, since receivers write to it.
-/

namespace Bearmail.Smtp

abbrev Bytes := List UInt8

def ascii (s : String) : Bytes := s.toList.map fun c => UInt8.ofNat c.toNat

/-! ## The end of a message -/

def terminator : Bytes := [13, 10, 46, 13, 10]

def FirstEnd (raw : Bytes) : Prop :=
  terminator <:+ raw ∧ ∀ front, front <+: raw → terminator <:+ front → front = raw

/-! ## Sessions and their surroundings -/

structure Session (Data : Type) where
  data : Data
  message : Bytes

inductive Request (Command : Type) where
  | data
  | bdat (chunkSize : Nat) (isLast : Bool)
  | command (command : Command)

inductive Error (Failure : Type) where
  | responseTooLong
  | failure (failure : Failure)

inductive Next (Token : Type) where
  | request
  | sasl (token : Token)
  | close

/-- What a handler leaves: the session, what it wrote, and where the session goes on. -/
structure Reply (Data Token : Type) where
  session : Session Data
  writes : List Bytes
  next : Next Token

/-- The receivers of the crate with what the session relies on, and the handlers. The dummy of a
receiver of messages stops where that would stop. -/
structure Mta where
  Data : Type
  Command : Type
  Failure : Type
  Token : Type
  Line : Type
  DataReceiver : Type
  DummyData : Type
  Bdat : Type
  SaslLine : Type
  DummyLine : Type
  requests : Receiver UInt8 Line (Except (Error Failure) (Request Command) × Line)
  newLine : Line
  data : Receiver UInt8 (DataReceiver × Bytes) Bytes
  newData : DataReceiver
  bdat : Receiver UInt8 (Bdat × Bytes) Bytes
  newBdat : Nat → Bdat
  dummyData : Receiver UInt8 DummyData Unit
  dummyOfData : DataReceiver → DummyData
  dummyOfBdat : Nat → DummyData
  saslLines : Receiver UInt8 SaslLine Bytes
  newSaslLine : SaslLine
  dummyLines : Receiver UInt8 DummyLine Unit
  newDummyLine : DummyLine
  maxLineLength : Nat
  unstuff : Bytes → Bytes
  requests_take : ∀ {r b xs rest}, requests.ingest r xs = .done b rest → rest.length < xs.length
  saslLines_take : ∀ {r b xs rest}, saslLines.ingest r xs = .done b rest → rest.length < xs.length
  dummyLines_take : ∀ {r b xs rest}, dummyLines.ingest r xs = .done b rest → rest.length < xs.length
  data_ends : ∀ {raw} rest, FirstEnd raw →
    data.ingest (newData, []) (raw ++ rest) = .done (unstuff raw) rest
  data_grows : ∀ {r message xs content rest}, data.ingest (r, message) xs = .done content rest →
    content.length + rest.length ≤ message.length + xs.length
  dummy_more : ∀ {r message xs r' message'}, data.ingest (r, message) xs = .more (r', message') →
    dummyData.ingest (dummyOfData r) xs = .more (dummyOfData r')
  dummy_done : ∀ {r message xs content rest}, data.ingest (r, message) xs = .done content rest →
    dummyData.ingest (dummyOfData r) xs = .done () rest
  lmtp : Bool
  rcptOks : Data → Nat
  maxMessageSize : Data → Nat
  /-- all but the message -/
  reset : Data → Data
  canSendData : Session Data → Option Bytes
  queueMessage : Session Data → Session Data × Bytes
  command : Command → Session Data → Reply Data Token
  failure : Failure → Session Data → Reply Data Token
  saslResponse : Token → Bytes → Session Data → Reply Data Token
  authError : Session Data → Reply Data Token

inductive State (mta : Mta) where
  | request (receiver : mta.Line)
  | data (receiver : mta.DataReceiver)
  | bdat (receiver : mta.Bdat) (isLast : Bool)
  | sasl (token : mta.Token) (receiver : mta.SaslLine)
  | skipData (receiver : mta.DummyData) (response : Bytes)
  | requestTooLarge (receiver : mta.DummyLine)
  | closed

def State.default {mta : Mta} : State mta := .request mta.newLine

inductive Event where
  | write (response : Bytes)
  | queue (message : Bytes)
  deriving DecidableEq

def startMail : Bytes := ascii "354 Start mail input; end with <CRLF>.<CRLF>\r\n"

def tooBig : Bytes := ascii "552 5.3.4 Message too big for system.\r\n"

def chunkAccepted : Bytes := ascii "250 2.6.0 Chunk accepted.\r\n"

def lineTooLong : Bytes := ascii "554 5.3.4 Line is too long.\r\n"

/-- A session, its state, and what is left of a read. -/
abbrev Config (mta : Mta) := Session mta.Data × State mta × Bytes

/-! ## One turn of the loop -/

/-- Where a session goes on, and what was seen. -/
abbrev Step (mta : Mta) := Session mta.Data × State mta × List Event

variable (mta : Mta)

/-- Goes on with a state, unless the handler says otherwise. -/
def replied (reply : Reply mta.Data mta.Token) (stay : State mta) : Step mta :=
  let state : State mta :=
    match reply.next with
    | .request => stay
    | .sasl token => .sasl token mta.newSaslLine
    | .close => .closed
  (reply.session, state, reply.writes.map .write)

def handleRequest (s : Session mta.Data) (receiver : mta.Line)
    (answer : Except (Error mta.Failure) (Request mta.Command)) : Step mta :=
  match answer with
  | .ok .data =>
    match mta.canSendData s with
    | some response => (s, .request receiver, [.write response])
    | none => ({ s with message := [] }, .data mta.newData, [.write startMail])
  | .ok (.bdat chunkSize isLast) =>
    match mta.canSendData s with
    | some response => (s, .skipData (mta.dummyOfBdat chunkSize) response, [])
    | none =>
      if chunkSize + s.message.length < mta.maxMessageSize s.data then
        (s, .bdat (mta.newBdat chunkSize) isLast, [])
      else (s, .skipData (mta.dummyOfBdat chunkSize) tooBig, [])
  | .ok (.command command) => replied mta (mta.command command s) (.request receiver)
  | .error .responseTooLong => (s, .requestTooLarge mta.newDummyLine, [])
  | .error (.failure failure) => replied mta (mta.failure failure s) (.request receiver)

/-- `queue_message`, with a reply for each recipient in LMTP; an empty one asks to disconnect. -/
def queued (s : Session mta.Data) : Step mta :=
  let (s', response) := mta.queueMessage s
  let numResponses := if mta.lmtp then mta.rcptOks s'.data else 1
  if response ≠ [] then
    (⟨mta.reset s'.data, []⟩, .default,
      .queue s.message :: List.replicate numResponses (.write response))
  else (s', .closed, [.queue s.message])

def Step.on {mta : Mta} (step : Step mta) (rest : Bytes) : Turn (Config mta) Event :=
  .again (step.1, step.2.1, rest) step.2.2

def turn (size : Nat) : Config mta → Turn (Config mta) Event
  | (s, .request receiver, iter) =>
    match mta.requests.ingest receiver iter with
    | .more receiver => .stop (s, .request receiver, [])
    | .done (answer, receiver) rest => (handleRequest mta s receiver answer).on rest
  | (s, .data receiver, iter) =>
    -- the whole read is added, also what stands before the message or behind it
    if s.message.length + size < mta.maxMessageSize s.data then
      match mta.data.ingest (receiver, s.message) iter with
      | .more (receiver, message) => .stop ({ s with message }, .data receiver, [])
      | .done message rest => (queued mta { s with message }).on rest
    else .again (s, .skipData (mta.dummyOfData receiver) tooBig, iter) []
  | (s, .bdat receiver isLast, iter) =>
    match mta.bdat.ingest (receiver, s.message) iter with
    | .more (receiver, message) => .stop ({ s with message }, .bdat receiver isLast, [])
    | .done message rest =>
      if isLast then (queued mta { s with message }).on rest
      else .again ({ s with message }, .default, rest) [.write chunkAccepted]
  | (s, .sasl token receiver, iter) =>
    match mta.saslLines.ingest receiver iter with
    | .more receiver => .stop (s, .sasl token receiver, [])
    | .done line rest =>
      if line.length < mta.maxLineLength then
        (replied mta (mta.saslResponse token line s) .default).on rest
      else (replied mta (mta.authError s) .default).on rest
  | (s, .skipData receiver response, iter) =>
    match mta.dummyData.ingest receiver iter with
    | .more receiver => .stop (s, .skipData receiver response, [])
    | .done () rest => .again ({ s with message := [] }, .default, rest) [.write response]
  | (s, .requestTooLarge receiver, iter) =>
    match mta.dummyLines.ingest receiver iter with
    | .more receiver => .stop (s, .requestTooLarge receiver, [])
    | .done () rest => .again (s, .default, rest) [.write lineTooLong]
  | (s, .closed, _) => .stop (s, .closed, [])

/-! ## The loop ends -/

/-- States that can be left without taking a byte come before those that cannot. -/
def State.rank {mta : Mta} : State mta → Nat
  | .data _ => 2
  | .bdat _ _ => 1
  | .skipData _ _ => 1
  | _ => 0

def rank (x : Config mta) : Nat := 3 * x.2.2.length + x.2.1.rank

variable {mta}

theorem State.rank_le (state : State mta) : state.rank ≤ 2 := by
  cases state <;> simp [State.rank]

theorem replied_rank {reply : Reply mta.Data mta.Token} {stay : State mta}
    (hstay : stay.rank = 0) : (replied mta reply stay).2.1.rank = 0 := by
  unfold replied
  cases reply.next with
  | request => exact hstay
  | sasl token | close => rfl

theorem queued_rank (s : Session mta.Data) : (queued mta s).2.1.rank = 0 := by
  unfold queued
  dsimp only
  split <;> rfl

theorem rank_on {step : Step mta} {rest : Bytes} {next : Config mta} {events : List Event}
    (h : step.on rest = .again next events) :
    rank mta next = 3 * rest.length + step.2.1.rank := by
  cases h
  rfl

theorem turn_falls {size : Nat} {x next : Config mta} {events : List Event}
    (h : turn mta size x = .again next events) : rank mta next < rank mta x := by
  obtain ⟨s, state, iter⟩ := x
  change _ < 3 * iter.length + state.rank
  cases state with
  | request receiver =>
    rw [turn] at h
    split at h
    · cases h
    · rename_i answer receiver' rest htaken
      have hshort := mta.requests_take htaken
      have hrank := (handleRequest mta s receiver' answer).2.1.rank_le
      rw [rank_on h]
      omega
  | data receiver =>
    change _ < 3 * iter.length + 2
    rw [turn] at h
    split at h
    · split at h
      · cases h
      · rename_i message rest htaken
        have hshort := mta.data.shrinks htaken
        rw [rank_on h, queued_rank]
        omega
    · cases h
      exact Nat.lt_succ_self _
  | bdat receiver isLast =>
    change _ < 3 * iter.length + 1
    rw [turn] at h
    split at h
    · cases h
    · rename_i message rest htaken
      have hshort := mta.bdat.shrinks htaken
      split at h
      · rw [rank_on h, queued_rank]
        omega
      · cases h
        change 3 * rest.length < _
        omega
  | sasl token receiver =>
    rw [turn] at h
    split at h
    · cases h
    · rename_i line rest htaken
      have hshort := mta.saslLines_take htaken
      split at h
      all_goals
        rw [rank_on h, replied_rank rfl]
        omega
  | skipData receiver response =>
    change _ < 3 * iter.length + 1
    rw [turn] at h
    split at h
    · cases h
    · rename_i rest htaken
      have hshort := mta.dummyData.shrinks htaken
      cases h
      change 3 * rest.length < _
      omega
  | requestTooLarge receiver =>
    rw [turn] at h
    split at h
    · cases h
    · rename_i rest htaken
      have hshort := mta.dummyLines_take htaken
      cases h
      change 3 * rest.length < _
      omega
  | closed => cases h

variable (mta)

def loop (size : Nat) : Loop (Config mta) Event where
  turn := turn mta size
  rank := rank mta
  falls := turn_falls

def ingest (s : Session mta.Data) (state : State mta) (bytes : Bytes) :
    (Session mta.Data × State mta) × List Event :=
  let ((s, state, _), events) := (loop mta bytes.length).run (s, state, bytes)
  ((s, state), events)

def outcome (s : Session mta.Data) (state : State mta) : List Bytes → List Event
  | [] => []
  | bytes :: reads =>
    let ((s, state), events) := ingest mta s state bytes
    events ++ outcome s state reads

end Bearmail.Smtp
