import Bearmail.Lib.BigEndian
import Bearmail.Lib.Framing

/-!
# Frames of the edge tunnel

Length-prefixed frames with big-endian numbers, and the decoder that gets them in pieces. A bad header is
rejected before the payload is there.
-/

namespace Bearmail.Edge

open BigEndian

/-! ## Values -/

def maxFramePayload : Nat := 65536

def maxDataPayload : Nat := 16384

def header : Nat := 5

/-- The public ports, each with the port that the Mac dials. -/
def helloPairs : List (UInt16 × UInt16) :=
  [(25, 2525), (465, 2465), (993, 2993), (80, 8088), (443, 8448)]

def tyHello : UInt8 := 1
def tyHelloOk : UInt8 := 2
def tyPing : UInt8 := 3
def tyPong : UInt8 := 4
def tyOpen : UInt8 := 5
def tyOpenOk : UInt8 := 6
def tyOpenFail : UInt8 := 7
def tyData : UInt8 := 8
def tyClose : UInt8 := 9
def tyQuota : UInt8 := 10

inductive ProtocolError where
  | tooLong
  | dataTooLong
  | truncated
  | unknownType
  | badLength
  | badHello
  | badState
  | badMonth
  | badAddress
  | badReason
  | badConn
  | secondHello
  | cap
  | connExhausted
  | proxy
  deriving DecidableEq

inductive OpenFailReason where
  | dialRefused
  | badPort
  | cap
  deriving DecidableEq

def OpenFailReason.toU8 : OpenFailReason → UInt8
  | .dialRefused => 1
  | .badPort => 2
  | .cap => 3

def OpenFailReason.fromU8 (v : UInt8) : Except ProtocolError OpenFailReason :=
  if v = 1 then .ok .dialRefused
  else if v = 2 then .ok .badPort
  else if v = 3 then .ok .cap
  else .error .badReason

inductive CloseReason where
  | eof
  | reset
  | localClose
  deriving DecidableEq

def CloseReason.toU8 : CloseReason → UInt8
  | .eof => 1
  | .reset => 2
  | .localClose => 3

def CloseReason.fromU8 (v : UInt8) : Except ProtocolError CloseReason :=
  if v = 1 then .ok .eof
  else if v = 2 then .ok .reset
  else if v = 3 then .ok .localClose
  else .error .badReason

inductive QuotaState where
  | opened
  | pausedQuota
  | override
  deriving DecidableEq

def QuotaState.toU8 : QuotaState → UInt8
  | .opened => 0
  | .pausedQuota => 1
  | .override => 2

def QuotaState.fromU8 (v : UInt8) : Except ProtocolError QuotaState :=
  if v = 0 then .ok .opened
  else if v = 1 then .ok .pausedQuota
  else if v = 2 then .ok .override
  else .error .badState

structure Ipv4Addr where
  a : UInt8
  b : UInt8
  c : UInt8
  d : UInt8
  deriving DecidableEq

inductive Frame where
  | hello
  | helloOk (txBytes : UInt64) (state : QuotaState) (year : UInt16) (month : UInt8)
  | ping (unixMs : UInt64)
  | pong (unixMs : UInt64)
  | open (connId : UInt64) (publicPort srcPort : UInt16) (addr : Ipv4Addr)
  | openOk (connId : UInt64)
  | openFail (connId : UInt64) (reason : OpenFailReason)
  | data (connId : UInt64) (payload : List UInt8)
  | close (connId : UInt64) (reason : CloseReason)
  | quota (txBytes : UInt64) (state : QuotaState)
  deriving DecidableEq

/-! ## Numbers -/

def u16Bytes (n : UInt16) : List UInt8 := toBytes 2 n.toNat

def u64Bytes (n : UInt64) : List UInt8 := toBytes 8 n.toNat

def slice (buf : List UInt8) (start stop : Nat) : Option (List UInt8) :=
  if stop ≤ buf.length then some ((buf.take stop).drop start) else none

def readU16 (buf : List UInt8) (start : Nat) : Except ProtocolError UInt16 :=
  match slice buf start (start + 2) with
  | some bytes => .ok (UInt16.ofNat (ofBytes bytes))
  | none => .error .truncated

def readU64 (buf : List UInt8) (start : Nat) : Except ProtocolError UInt64 :=
  match slice buf start (start + 8) with
  | some bytes => .ok (UInt64.ofNat (ofBytes bytes))
  | none => .error .truncated

/-! ## Encoding -/

def helloPayload : List UInt8 :=
  u16Bytes 1 ++ u16Bytes 5 ++
    helloPairs.flatMap fun (publicPort, loopback) => u16Bytes publicPort ++ u16Bytes loopback

def encodeMapped (addr : Ipv4Addr) : List UInt8 :=
  List.replicate 10 0 ++ [0xff, 0xff, addr.a, addr.b, addr.c, addr.d]

def Frame.ty : Frame → UInt8
  | .hello => tyHello
  | .helloOk .. => tyHelloOk
  | .ping .. => tyPing
  | .pong .. => tyPong
  | .open .. => tyOpen
  | .openOk .. => tyOpenOk
  | .openFail .. => tyOpenFail
  | .data .. => tyData
  | .close .. => tyClose
  | .quota .. => tyQuota

def Frame.payload : Frame → Except ProtocolError (List UInt8)
  | .hello => .ok helloPayload
  | .helloOk txBytes state year month =>
    if 1 ≤ month ∧ month ≤ 12 then
      .ok (u64Bytes txBytes ++ [state.toU8] ++ u16Bytes year ++ [month])
    else .error .badMonth
  | .ping unixMs => .ok (u64Bytes unixMs)
  | .pong unixMs => .ok (u64Bytes unixMs)
  | .open connId publicPort srcPort addr =>
    .ok (u64Bytes connId ++ u16Bytes publicPort ++ u16Bytes srcPort ++ encodeMapped addr)
  | .openOk connId => .ok (u64Bytes connId)
  | .openFail connId reason => .ok (u64Bytes connId ++ [reason.toU8])
  | .data connId body =>
    if maxDataPayload < body.length then .error .dataTooLong else .ok (u64Bytes connId ++ body)
  | .close connId reason => .ok (u64Bytes connId ++ [reason.toU8])
  | .quota txBytes state => .ok (u64Bytes txBytes ++ [state.toU8])

def Frame.encode (frame : Frame) : Except ProtocolError (List UInt8) := do
  let payload ← frame.payload
  return frame.ty :: toBytes 4 payload.length ++ payload

/-! ## Decoding -/

def validateHeader (ty : UInt8) (len : Nat) : Except ProtocolError Unit :=
  if maxFramePayload < len then .error .tooLong
  else
    let outcome (matched : Bool) : Except ProtocolError Unit :=
      if matched then .ok ()
      else if ty = tyData ∧ 8 ≤ len then .error .dataTooLong
      else .error .badLength
    if ty = tyHello then outcome (len = 24)
    else if ty = tyHelloOk then outcome (len = 12)
    else if ty = tyPing ∨ ty = tyPong ∨ ty = tyOpenOk then outcome (len = 8)
    else if ty = tyOpen then outcome (len = 28)
    else if ty = tyOpenFail ∨ ty = tyClose ∨ ty = tyQuota then outcome (len = 9)
    else if ty = tyData then outcome (8 ≤ len ∧ len - 8 ≤ maxDataPayload)
    else .error .unknownType

def decodeMapped : List UInt8 → Except ProtocolError Ipv4Addr
  | [z0, z1, z2, z3, z4, z5, z6, z7, z8, z9, f0, f1, a, b, c, d] =>
    if [z0, z1, z2, z3, z4, z5, z6, z7, z8, z9] = List.replicate 10 0 ∧ f0 = 0xff ∧ f1 = 0xff then
      .ok ⟨a, b, c, d⟩
    else .error .badAddress
  | _ => .error .badAddress

/-- `payload[i]`; the header check has seen to it that the byte is there. -/
def byte (payload : List UInt8) (i : Nat) : UInt8 := payload.getD i 0

def decodePayload (ty : UInt8) (payload : List UInt8) : Except ProtocolError Frame :=
  if ty = tyHello then
    if payload = helloPayload then .ok .hello else .error .badHello
  else if ty = tyHelloOk then
    let month := byte payload 11
    if 1 ≤ month ∧ month ≤ 12 then do
      let txBytes ← readU64 payload 0
      let state ← QuotaState.fromU8 (byte payload 8)
      let year ← readU16 payload 9
      return .helloOk txBytes state year month
    else .error .badMonth
  else if ty = tyPing then return .ping (← readU64 payload 0)
  else if ty = tyPong then return .pong (← readU64 payload 0)
  else if ty = tyOpen then do
    let connId ← readU64 payload 0
    let publicPort ← readU16 payload 8
    let srcPort ← readU16 payload 10
    let addr ← decodeMapped ((payload.take 28).drop 12)
    return .open connId publicPort srcPort addr
  else if ty = tyOpenOk then return .openOk (← readU64 payload 0)
  else if ty = tyOpenFail then do
    let connId ← readU64 payload 0
    return .openFail connId (← OpenFailReason.fromU8 (byte payload 8))
  else if ty = tyData then return .data (← readU64 payload 0) (payload.drop 8)
  else if ty = tyClose then do
    let connId ← readU64 payload 0
    return .close connId (← CloseReason.fromU8 (byte payload 8))
  else if ty = tyQuota then do
    let txBytes ← readU64 payload 0
    return .quota txBytes (← QuotaState.fromU8 (byte payload 8))
  else .error .unknownType

def headerLen (buf : List UInt8) : Nat := ofBytes ((buf.take 5).drop 1)

@[ext]
structure Decoder where
  buf : List UInt8
  deriving DecidableEq

def Decoder.new : Decoder := ⟨[]⟩

/-- The buffer with at least so many bytes, and the input after it. None when the input does not do. -/
def fill (total : Nat) (buf input : List UInt8) : Option (List UInt8 × List UInt8) :=
  if buf.length < total then
    let need := total - buf.length
    if input.length < need then none else some (buf ++ input.take need, input.drop need)
  else some (buf, input)

theorem fill_append {total : Nat} {buf input buf' input' : List UInt8}
    (h : fill total buf input = some (buf', input')) :
    buf' ++ input' = buf ++ input ∧ total ≤ buf'.length := by
  simp only [fill] at h
  split at h
  · split at h
    · cases h
    · cases h
      refine ⟨by rw [List.append_assoc, List.take_append_drop], ?_⟩
      rw [List.length_append, List.length_take]
      omega
  · cases h
    exact ⟨rfl, by omega⟩

theorem fill_none {total : Nat} {buf input : List UInt8} (h : fill total buf input = none) :
    (buf ++ input).length < total := by
  simp only [fill] at h
  split at h
  · split at h
    · rw [List.length_append]; omega
    · cases h
  · cases h

def Decoder.pushLoop (buf input : List UInt8) (out : List Frame) :
    Except ProtocolError (List Frame × Decoder) :=
  match _hfill : fill header buf input with
  | none => .ok (out, ⟨buf ++ input⟩)
  | some (buf', input') =>
    match validateHeader (byte buf' 0) (headerLen buf') with
    | .error e => .error e
    | .ok () =>
      let total := header + headerLen buf'
      match _hfill' : fill total buf' input' with
      | none => .ok (out, ⟨buf' ++ input'⟩)
      | some (buf'', input'') =>
        match decodePayload (byte buf'' 0) ((buf''.take total).drop header) with
        | .error e => .error e
        | .ok frame =>
          if buf''.drop total = [] ∧ input'' = [] then .ok (out ++ [frame], ⟨buf''.drop total⟩)
          else pushLoop (buf''.drop total) input'' (out ++ [frame])
termination_by buf.length + input.length
decreasing_by
  have h := fill_append _hfill
  have h' := fill_append _hfill'
  have hlen := congrArg List.length (h'.1.trans h.1)
  have _htotal : header + headerLen buf' ≤ buf''.length := h'.2
  simp only [List.length_append, List.length_drop, header, total] at *
  omega

def Decoder.push (decoder : Decoder) (input : List UInt8) :
    Except ProtocolError (List Frame × Decoder) :=
  Decoder.pushLoop decoder.buf input []

/-- The peer closed the socket. A leftover partial frame is fatal. -/
def Decoder.finish (decoder : Decoder) : Except ProtocolError Unit :=
  if decoder.buf = [] then .ok () else .error .truncated

def Decoder.pushAll (decoder : Decoder) : List (List UInt8) → Except ProtocolError (List Frame × Decoder)
  | [] => .ok ([], decoder)
  | input :: inputs => do
    let (frames, decoder) ← decoder.push input
    let (frames', decoder) ← decoder.pushAll inputs
    return (frames ++ frames', decoder)

end Bearmail.Edge
