import Bearmail.Edge.Session

/-!
# The edge tunnel

The VM takes clients and the Mac dials the servers for them; their bytes go through one control session.
Each side has one thread for the frames that arrive and one for every socket that it reads, and the VM one
that accepts. A step is what a thread does until another thread can see it. A send puts a frame at the end
of the queue of its direction.

Left out are the ping deadline, which is real time, and what threads still do when one side has returned.
-/

namespace Bearmail.Edge

/-! ## Threads -/

/-- What a thread that reads a socket does next. -/
inductive Uplink where
  /-- look whether to go on -/
  | check
  | read
  | sendData (payload : List UInt8)
  /-- count the bytes that were sent (VM) -/
  | note (n : Nat)
  /-- `closed` was set: give the id back (VM) -/
  | giveBack (reason : CloseReason)
  | sendClose (reason : CloseReason)
  | done
  deriving DecidableEq

inductive Accept where
  | off
  | check
  | listen
  /-- an id was given out for the client -/
  | keep (id : UInt64) (srcPort : UInt16) (addr : Ipv4Addr)
  | sendOpen (id : UInt64) (srcPort : UInt16) (addr : Ipv4Addr)
  | done
  deriving DecidableEq

inductive PauseAct where
  | retire (id : UInt64)
  | sendClose (id : UInt64)
  | sendQuota
  deriving DecidableEq

inductive SessionEnd where
  | stopped
  /-- a socket failed -/
  | io
  | protocol (error : ProtocolError)
  deriving DecidableEq

structure VmOpts where
  advertisePort : UInt16
  txBytes : UInt64
  quotaOverride : Bool

structure Vm where
  ids : IdWindow
  waiting : Finset UInt64
  writers : Finset UInt64
  /-- the ids of which the shared flag `closed` is set -/
  closed : Finset UInt64
  uplinks : UInt64 → Option Uplink
  accept : Accept
  meter : Meter
  stop : Bool
  helloSeen : Bool
  forwarding : Bool
  /-- with whether the thread for arriving frames is the one that pauses -/
  pausing : Option (Bool × List PauseAct)
  /-- every id that was opened -/
  history : List UInt64

structure Mac where
  ids : IdWindow
  writers : Finset UInt64
  closed : Finset UInt64
  uplinks : UInt64 → Option Uplink
  history : List UInt64

structure Tunnel where
  vm : Vm
  mac : Mac
  toMac : List Frame
  toVm : List Frame
  vmEnd : Option SessionEnd
  macEnd : Option SessionEnd

def Tunnel.start (opts : VmOpts) : Tunnel where
  vm := {
    ids := .new, waiting := ∅, writers := ∅, closed := ∅, uplinks := fun _ => none, accept := .off,
    meter := ⟨opts.txBytes, opts.quotaOverride⟩, stop := false, helloSeen := false,
    forwarding := false, pausing := none, history := [] }
  mac := { ids := .new, writers := ∅, closed := ∅, uplinks := fun _ => none, history := [] }
  toMac := []
  toVm := [.hello]
  vmEnd := none
  macEnd := none

def Vm.setUplink (vm : Vm) (id : UInt64) (next : Uplink) : Vm :=
  { vm with uplinks := Function.update vm.uplinks id (some next) }

def Mac.setUplink (mac : Mac) (id : UInt64) (next : Uplink) : Mac :=
  { mac with uplinks := Function.update mac.uplinks id (some next) }

def Tunnel.sendMac (s : Tunnel) (frame : Frame) : Tunnel := { s with toMac := s.toMac ++ [frame] }

def Tunnel.sendVm (s : Tunnel) (frame : Frame) : Tunnel := { s with toVm := s.toVm ++ [frame] }

/-! ## Pausing -/

/-- `pause` up to its first effect that others see. The order is that of the map of writers. -/
def Vm.pause (vm : Vm) (byControl : Bool) (order : List UInt64) : Vm :=
  if vm.stop then vm
  else { vm with
    stop := true
    pausing := some (byControl, order.map .retire ++ [.sendQuota]) }

/-- With whether the flag was not set before. -/
def Vm.retire (vm : Vm) (id : UInt64) : Except ProtocolError (Bool × Vm) := do
  let ids ← vm.ids.close id
  if id ∈ vm.writers then
    return (id ∉ vm.closed, { vm with
      ids := ids, writers := vm.writers.erase id, closed := insert id vm.closed,
      waiting := vm.waiting.erase id })
  else return (false, { vm with ids := ids, waiting := vm.waiting.erase id })

def pauseStep (s : Tunnel) : Option Tunnel :=
  match s.vm.pausing with
  | none => none
  | some (_, []) => some { s with vm := { s.vm with pausing := none } }
  | some (who, .retire id :: acts) =>
    match s.vm.retire id with
    | .error _ => some { s with vm := { s.vm with pausing := some (who, acts) } }
    | .ok (true, vm) => some { s with vm := { vm with pausing := some (who, .sendClose id :: acts) } }
    | .ok (false, vm) => some { s with vm := { vm with pausing := some (who, acts) } }
  | some (who, .sendClose id :: acts) =>
    some ({ s with vm := { s.vm with pausing := some (who, acts) } }.sendMac (.close id .localClose))
  | some (who, .sendQuota :: acts) =>
    some ({ s with vm := { s.vm with pausing := some (who, acts) } }.sendMac
      (.quota s.vm.meter.txBytes s.vm.meter.state))

/-! ## Frames that arrive at the VM -/

/-- `start_uplink`, with whether the socket could be cloned. -/
def Vm.startUplink (vm : Vm) (id : UInt64) (io : Bool) : Vm :=
  if io then
    { vm with
      writers := insert id vm.writers
      closed := vm.closed.erase id
      uplinks := Function.update vm.uplinks id (some .check) }
  else vm

/-- With whether the public port could be bound, and the UTC year and month. -/
def answerHello (s : Tunnel) (io : Bool) (today : UInt16 × UInt8) : Except SessionEnd Tunnel :=
  let state := s.vm.meter.state
  let s := s.sendMac (.helloOk s.vm.meter.txBytes state today.1 today.2)
  if !s.vm.meter.dataAllowed then .ok (s.sendMac (.quota s.vm.meter.txBytes state))
  else if !io then .error .io
  else .ok { s with vm := { s.vm with forwarding := true, accept := .check } }

def observe (vm : Vm) : Except SessionEnd Vm :=
  if vm.helloSeen then .error (.protocol .secondHello) else .ok { vm with helloSeen := true }

/-- With whether the socket of the handler did its part. -/
def onVmFrame (s : Tunnel) (frame : Frame) (io : Bool) (order : List UInt64) :
    Except SessionEnd Tunnel :=
  match frame with
  | .hello =>
    match observe s.vm with
    | .error e => .error e
    | .ok vm => .ok { s with vm := vm }
  | .ping unixMs => .ok (s.sendMac (.pong unixMs))
  | .pong _ => .ok s
  | .openOk id =>
    match s.vm.ids.requireOpen id with
    | .error e => .error (.protocol e)
    | .ok () =>
      if id ∈ s.vm.waiting then
        .ok { s with vm := { s.vm with waiting := s.vm.waiting.erase id }.startUplink id io }
      else .error (.protocol .badConn)
  | .openFail id _ =>
    match s.vm.ids.close id with
    | .error e => .error (.protocol e)
    | .ok ids => .ok { s with vm := { s.vm with ids := ids, waiting := s.vm.waiting.erase id } }
  | .data id payload =>
    if !s.vm.meter.dataAllowed then .ok { s with vm := s.vm.pause true order }
    else
      match s.vm.ids.requireOpen id with
      | .error e => .error (.protocol e)
      | .ok () =>
        if id ∈ s.vm.writers then
          if !io then .error .io
          else
            let (reached, meter) := s.vm.meter.noteTx payload.length
            let vm := { s.vm with meter := meter }
            .ok { s with vm := if reached then vm.pause true order else vm }
        else .error (.protocol .badConn)
  | .close id _ =>
    match s.vm.retire id with
    | .error e => .error (.protocol e)
    | .ok (_, vm) => .ok { s with vm := vm }
  | .helloOk .. | .open .. | .quota .. => .error (.protocol .unknownType)

def vmSession (s : Tunnel) (frame : Frame) (io : Bool) (today : UInt16 × UInt8)
    (order : List UInt64) : Except SessionEnd Tunnel :=
  if frame = .hello ∧ s.vm.forwarding = false then
    match observe s.vm with
    | .error e => .error e
    | .ok vm => answerHello { s with vm := vm } io today
  else onVmFrame s frame io order

/-! ## Frames that arrive at the Mac -/

inductive Dial where
  | refused
  /-- the socket fails before OPEN_OK is sent -/
  | failed
  /-- and after that -/
  | failedLate
  | connected
  deriving DecidableEq

def openOnMac (s : Tunnel) (id : UInt64) (publicPort : UInt16) (dial : Dial) :
    Except SessionEnd Tunnel :=
  match s.mac.ids.admitId id with
  | .error e => .error (.protocol e)
  | .ok (.cap, ids) => .ok ({ s with mac := { s.mac with ids := ids } }.sendVm (.openFail id .cap))
  | .ok (.opened, ids) =>
    let history := s.mac.history ++ [id]
    let refuse (reason : OpenFailReason) : Except SessionEnd Tunnel :=
      match ids.close id with
      | .error e => .error (.protocol e)
      | .ok ids =>
        .ok ({ s with mac := { s.mac with ids := ids, history := history } }.sendVm
          (.openFail id reason))
    match loopbackFor publicPort with
    | none => refuse .badPort
    | some _ =>
      match dial with
      | .refused => refuse .dialRefused
      | .failed | .failedLate => .error .io
      | .connected =>
        .ok ({ s with mac := { s.mac with
          ids := ids, history := history
          writers := insert id s.mac.writers
          closed := s.mac.closed.erase id
          uplinks := Function.update s.mac.uplinks id (some .check) } }.sendVm (.openOk id))

/-- The arm of `serve_mac` for a frame, with whether the socket took the payload. -/
def serveMac (s : Tunnel) (frame : Frame) (dial : Dial) (io : Bool) : Except SessionEnd Tunnel :=
  match frame with
  | .helloOk .. | .pong _ | .quota .. => .ok s
  | .ping unixMs => .ok (s.sendVm (.pong unixMs))
  | .open id publicPort _ _ => openOnMac s id publicPort dial
  | .data id _ =>
    match s.mac.ids.requireOpen id with
    | .error e => .error (.protocol e)
    | .ok () =>
      if id ∈ s.mac.writers then if io then .ok s else .error .io
      else .error (.protocol .badConn)
  | .close id _ =>
    match s.mac.ids.close id with
    | .error e => .error (.protocol e)
    | .ok ids =>
      if id ∈ s.mac.writers then
        .ok { s with mac := { s.mac with
          ids := ids, writers := s.mac.writers.erase id, closed := insert id s.mac.closed } }
      else .ok { s with mac := { s.mac with ids := ids } }
  | .hello | .openOk _ | .openFail .. => .error (.protocol .unknownType)

/-! ## Steps -/

inductive Event where
  /-- the VM sends a ping -/
  | vmPing (unixMs : UInt64)
  | macPing (unixMs : UInt64)
  /-- the accepting thread goes on -/
  | accept
  | client (srcPort : UInt16) (addr : Ipv4Addr)
  /-- the thread of a client's socket goes on -/
  | uplink (id : UInt64) (order : List UInt64)
  | clientRead (id : UInt64) (payload : List UInt8)
  | clientEnd (id : UInt64) (reset : Bool)
  | pause
  /-- the thread for arriving frames sees `stop` -/
  | vmStop
  | vmFrame (io : Bool) (today : UInt16 × UInt8) (order : List UInt64)
  /-- the thread of a server's socket goes on -/
  | macUplink (id : UInt64)
  | upstreamRead (id : UInt64) (payload : List UInt8)
  | upstreamEnd (id : UInt64) (reset : Bool)
  | macFrame (dial : Dial) (io : Bool)
  deriving DecidableEq

def Tunnel.Live (s : Tunnel) : Prop := s.vmEnd = none ∧ s.macEnd = none

instance (s : Tunnel) : Decidable s.Live := inferInstanceAs (Decidable (_ ∧ _))

/-- The map of writers may be walked in this order. -/
def Vm.Order (vm : Vm) (order : List UInt64) : Prop :=
  order.Nodup ∧ order.toFinset = vm.writers

instance (vm : Vm) (order : List UInt64) : Decidable (vm.Order order) :=
  inferInstanceAs (Decidable (_ ∧ _))

def Chunk (payload : List UInt8) : Prop := payload ≠ [] ∧ payload.length ≤ 16384

instance (payload : List UInt8) : Decidable (Chunk payload) := inferInstanceAs (Decidable (_ ∧ _))

def closeReason (reset : Bool) : CloseReason := if reset then .reset else .eof

def acceptStep (opts : VmOpts) (s : Tunnel) : Option Tunnel :=
  match s.vm.accept with
  | .check =>
    let next := if !s.vm.stop && s.vm.meter.dataAllowed then Accept.listen else .done
    some { s with vm := { s.vm with accept := next } }
  | .listen => some { s with vm := { s.vm with accept := .check } }
  | .keep id srcPort addr =>
    some { s with vm := { s.vm with
      waiting := insert id s.vm.waiting, accept := .sendOpen id srcPort addr } }
  | .sendOpen id srcPort addr =>
    some ({ s with vm := { s.vm with accept := .check } }.sendMac
      (.open id opts.advertisePort srcPort addr))
  | .off | .done => none

def clientStep (s : Tunnel) (srcPort : UInt16) (addr : Ipv4Addr) : Option Tunnel :=
  match s.vm.accept with
  | .listen =>
    match s.vm.ids.alloc with
    | .ok (id, ids) =>
      some { s with vm := { s.vm with
        ids := ids, history := s.vm.history ++ [id], accept := .keep id srcPort addr } }
    | .error .cap => some { s with vm := { s.vm with accept := .check } }
    | .error _ => some { s with vm := { s.vm with accept := .done } }
  | _ => none

def uplinkStep (s : Tunnel) (id : UInt64) (order : List UInt64) : Option Tunnel :=
  match s.vm.uplinks id with
  | some .check =>
    let next :=
      if s.vm.stop || decide (id ∈ s.vm.closed) || !s.vm.meter.dataAllowed then Uplink.done else .read
    some { s with vm := s.vm.setUplink id next }
  | some (.sendData payload) =>
    some ({ s with vm := s.vm.setUplink id (.note payload.length) }.sendMac (.data id payload))
  | some (.note n) =>
    if s.vm.Order order then
      let (reached, meter) := s.vm.meter.noteTx n
      let vm := { s.vm with meter := meter }
      if reached then some { s with vm := (vm.pause false order).setUplink id .done }
      else some { s with vm := vm.setUplink id .check }
    else none
  | some (.giveBack reason) =>
    -- an id that was given back before is no error here
    let ids := match s.vm.ids.close id with
      | .ok ids => ids
      | .error _ => s.vm.ids
    some { s with vm := { s.vm with ids := ids }.setUplink id (.sendClose reason) }
  | some (.sendClose reason) =>
    some ({ s with vm := s.vm.setUplink id .done }.sendMac (.close id reason))
  | some .read | some .done | none => none

def clientReadStep (s : Tunnel) (id : UInt64) (payload : List UInt8) : Option Tunnel :=
  if s.vm.uplinks id = some .read ∧ Chunk payload then
    some { s with vm := s.vm.setUplink id (.sendData payload) }
  else none

def clientEndStep (s : Tunnel) (id : UInt64) (reset : Bool) : Option Tunnel :=
  if s.vm.uplinks id = some .read then
    if id ∈ s.vm.closed then some { s with vm := s.vm.setUplink id .done }
    else
      let vm := { s.vm with closed := insert id s.vm.closed }
      some { s with vm := vm.setUplink id (.giveBack (closeReason reset)) }
  else none

def macUplinkStep (s : Tunnel) (id : UInt64) : Option Tunnel :=
  match s.mac.uplinks id with
  | some .check =>
    let next := if id ∈ s.mac.closed then Uplink.done else .read
    some { s with mac := s.mac.setUplink id next }
  | some (.sendData payload) =>
    some ({ s with mac := s.mac.setUplink id .check }.sendVm (.data id payload))
  | some (.sendClose reason) =>
    some ({ s with mac := s.mac.setUplink id .done }.sendVm (.close id reason))
  | some .read | some (.note _) | some (.giveBack _) | some .done | none => none

def upstreamReadStep (s : Tunnel) (id : UInt64) (payload : List UInt8) : Option Tunnel :=
  if s.mac.uplinks id = some .read ∧ Chunk payload then
    some { s with mac := s.mac.setUplink id (.sendData payload) }
  else none

def upstreamEndStep (s : Tunnel) (id : UInt64) (reset : Bool) : Option Tunnel :=
  if s.mac.uplinks id = some .read then
    if id ∈ s.mac.closed then some { s with mac := s.mac.setUplink id .done }
    else
      let mac := { s.mac with closed := insert id s.mac.closed }
      some { s with mac := mac.setUplink id (.sendClose (closeReason reset)) }
  else none

def vmFrameStep (s : Tunnel) (io : Bool) (today : UInt16 × UInt8) (order : List UInt64) :
    Option Tunnel :=
  match s.toVm with
  | [] => none
  | frame :: rest =>
    -- the thread is not there while it pauses
    if s.vm.Order order ∧ s.vm.pausing.map Prod.fst ≠ some true then
      match vmSession { s with toVm := rest } frame io today order with
      | .ok next => some next
      | .error e => some { s with toVm := rest, vmEnd := some e }
    else none

def macFrameStep (s : Tunnel) (dial : Dial) (io : Bool) : Option Tunnel :=
  match s.toMac with
  | [] => none
  | frame :: rest =>
    match serveMac { s with toMac := rest } frame dial io with
    | .ok next => some next
    | .error e => some { s with toMac := rest, macEnd := some e }

def step (opts : VmOpts) (s : Tunnel) (event : Event) : Option Tunnel :=
  if s.Live then
    match event with
    | .vmPing unixMs => some (s.sendMac (.ping unixMs))
    | .macPing unixMs => some (s.sendVm (.ping unixMs))
    | .accept => acceptStep opts s
    | .client srcPort addr => clientStep s srcPort addr
    | .uplink id order => uplinkStep s id order
    | .clientRead id payload => clientReadStep s id payload
    | .clientEnd id reset => clientEndStep s id reset
    | .pause => pauseStep s
    | .vmStop =>
      if s.vm.stop ∧ s.vm.pausing.map Prod.fst ≠ some true then some { s with vmEnd := some .stopped }
      else none
    | .vmFrame io today order => vmFrameStep s io today order
    | .macUplink id => macUplinkStep s id
    | .upstreamRead id payload => upstreamReadStep s id payload
    | .upstreamEnd id reset => upstreamEndStep s id reset
    | .macFrame dial io => macFrameStep s dial io
  else none

end Bearmail.Edge
