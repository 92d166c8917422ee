import Bearmail.Edge.Slots
import Bearmail.Lib.Allowance

/-!
# The quota over sessions

The VM serves control sessions one after another, each with a meter of its own that starts at the count of
the command line. A thread looks at the meter, forwards a payload and counts it in three steps. What all
sessions forward must stop one payload behind the pause line.
-/

namespace Bearmail.Edge

open Allowance
open List Option Function

/-! ## Sessions -/

/-- What the thread for arriving frames has in hand. -/
inductive Delivery where
  | idle
  /-- the session was the current one when it looked -/
  | taken (id : UInt64) (payload : List UInt8)
  /-- the meter let it through -/
  | checked (id : UInt64) (payload : List UInt8)
  /-- count the bytes that were written -/
  | note (n : Nat)
  deriving DecidableEq

/-- A `vm_session` with its threads and the Mac that it serves. -/
structure Session where
  tunnel : Tunnel
  delivery : Delivery
  /-- its socket was shut down -/
  shut : Bool

def Session.start (opts : VmOpts) : Session := ⟨.start opts, .idle, false⟩

inductive SessionStep where
  /-- a thread goes on, but not the one for arriving frames with a payload -/
  | event (event : Event)
  /-- the socket fails while a payload is sent -/
  | sendFails (id : UInt64) (sent : Nat)
  | dataTake
  | dataCheck (order : List UInt64)
  /-- with whether the client's socket took it all -/
  | dataWrite (io : Bool) (sent : Nat)
  | dataNote (order : List UInt64)
  /-- `vm_session` returns between two frames -/
  | leave (reason : SessionEnd)
  /-- the ping thread gives the tunnel up -/
  | timeout
  deriving DecidableEq

namespace Session

def setVm (session : Session) (vm : Vm) : Session :=
  { session with tunnel := { session.tunnel with vm := vm } }

def endWith (session : Session) (reason : SessionEnd) : Session :=
  { session with tunnel := { session.tunnel with vmEnd := some reason }, delivery := .idle }

/-- The thread for arriving frames is there and has none in hand. -/
def Ready (session : Session) : Prop :=
  session.tunnel.vmEnd = none ∧ session.tunnel.vm.pausing.map Prod.fst ≠ some true ∧
    session.delivery = .idle

instance (session : Session) : Decidable session.Ready := inferInstanceAs (Decidable (_ ∧ _))

end Session

/-- The payload that the thread of a client's socket is about to send. -/
def Uplink.payload : Option Uplink → Option (List UInt8)
  | some (.sendData payload) => some payload
  | _ => none

def Frame.isData : Frame → Bool
  | .data .. => true
  | _ => false

def threadStep (opts : VmOpts) (session : Session) (event : Event) : Option Tunnel :=
  let s := session.tunnel
  match event with
  | .accept => acceptStep opts s
  | .client srcPort addr => clientStep s srcPort addr
  | .uplink id order => uplinkStep s id order
  | .clientRead id payload => clientReadStep s id payload
  | .clientEnd id reset => clientEndStep s id reset
  | .pause => pauseStep s
  | .vmFrame io today order =>
    if session.Ready ∧ session.shut = false ∧ (s.toVm.head?.map Frame.isData) = some false then
      vmFrameStep s io today order
    else none
  | .vmStop => none
  | .vmPing _ | .macPing _ | .macUplink _ | .upstreamRead .. | .upstreamEnd .. | .macFrame .. =>
    step opts s event

namespace Session

def sends (session : Session) : Event → Option (List UInt8)
  | .uplink id _ => Uplink.payload (session.tunnel.vm.uplinks id)
  | _ => none

/-- With the bytes of payload that were forwarded. -/
def eventStep (opts : VmOpts) (session : Session) (event : Event) : Option (Session × Nat) :=
  if session.shut = true ∧ session.sends event ≠ none then none
  else (threadStep opts session event).map fun s =>
    ({ session with tunnel := s }, ((session.sends event).getD []).length)

def sendFails (session : Session) (id : UInt64) (sent : Nat) : Option (Session × Nat) :=
  match Uplink.payload (session.tunnel.vm.uplinks id) with
  | some payload =>
    if sent ≤ payload.length then some (session.setVm (session.tunnel.vm.setUplink id .done), sent)
    else none
  | none => none

/-- The decoder refuses a payload that is too long. -/
def dataTake (session : Session) : Option Session :=
  match session.tunnel.toVm with
  | .data id payload :: rest =>
    if session.Ready ∧ session.shut = false then
      let session := { session with tunnel := { session.tunnel with toVm := rest } }
      if maxDataPayload < payload.length then some (session.endWith (.protocol .dataTooLong))
      else some { session with delivery := .taken id payload }
    else none
  | _ => none

def dataCheck (session : Session) (order : List UInt64) : Option Session :=
  match session.delivery with
  | .taken id payload =>
    if session.tunnel.vm.Order order then
      if !session.tunnel.vm.meter.dataAllowed then
        some { session.setVm (session.tunnel.vm.pause true order) with delivery := .idle }
      else some { session with delivery := .checked id payload }
    else none
  | _ => none

def dataWrite (session : Session) (io : Bool) (sent : Nat) : Option (Session × Nat) :=
  match session.delivery with
  | .checked id payload =>
    match session.tunnel.vm.ids.requireOpen id with
    | .error e => some (session.endWith (.protocol e), 0)
    | .ok () =>
      if id ∈ session.tunnel.vm.writers then
        if io then some ({ session with delivery := .note payload.length }, payload.length)
        else if sent ≤ payload.length then some (session.endWith .io, sent)
        else none
      else some (session.endWith (.protocol .badConn), 0)
  | _ => none

def dataNote (session : Session) (order : List UInt64) : Option Session :=
  match session.delivery with
  | .note n =>
    if session.tunnel.vm.Order order then
      let (reached, meter) := session.tunnel.vm.meter.noteTx n
      let vm := { session.tunnel.vm with meter := meter }
      some { session.setVm (if reached then vm.pause true order else vm) with delivery := .idle }
    else none
  | _ => none

/-- Only an orderly return tells the other threads to stop. -/
def leave (session : Session) (reason : SessionEnd) : Option Session :=
  if session.Ready then
    let vm := session.tunnel.vm
    some ((session.setVm { vm with stop := vm.stop || decide (reason = .stopped) }).endWith reason)
  else none

def step (opts : VmOpts) (session : Session) : SessionStep → Option (Session × Nat)
  | .event event => session.eventStep opts event
  | .sendFails id sent => session.sendFails id sent
  | .dataTake => session.dataTake.map (·, 0)
  | .dataCheck order => (session.dataCheck order).map (·, 0)
  | .dataWrite io sent => session.dataWrite io sent
  | .dataNote order => (session.dataNote order).map (·, 0)
  | .leave reason => (session.leave reason).map (·, 0)
  | .timeout =>
    some ({ session.setVm { session.tunnel.vm with stop := true } with shut := true }, 0)

end Session

/-! ## The process -/

structure Server where
  sessions : List Session
  /-- the bytes of payload that all sessions have forwarded, to either side -/
  forwarded : Nat

inductive ServerStep where
  /-- a control connection replaces the one before -/
  | connect
  | session (i : Nat) (step : SessionStep)

namespace Server

def start : Server := ⟨[], 0⟩

def step (opts : VmOpts) (server : Server) : ServerStep → Option Server
  | .connect =>
    let sessions := server.sessions.map fun session => { session with shut := true }
    some { server with sessions := sessions ++ [.start opts] }
  | .session i l =>
    server.sessions[i]?.bind fun session =>
      (session.step opts l).map fun (next, sent) =>
        { sessions := server.sessions.set i next, forwarded := server.forwarded + sent }

end Server

/-! ## Threads that were let through -/

def Uplink.Waits : Option Uplink → Prop
  | some .read | some (.sendData _) => True
  | _ => False

def Uplink.Held : Option Uplink → Prop
  | some (.sendData payload) => payload.length ≤ maxDataPayload
  | _ => True

def Delivery.Held : Delivery → Prop
  | .taken _ payload | .checked _ payload => payload.length ≤ maxDataPayload
  | .idle | .note _ => True

/-- The thread of a client's socket, or the one for arriving frames, was let through and has not forwarded
its payload. -/
def Session.Waits (session : Session) : Option UInt64 → Prop
  | some id => Uplink.Waits (session.tunnel.vm.uplinks id)
  | none => ∃ id payload, session.delivery = .checked id payload

structure Session.Held (session : Session) : Prop where
  uplinks : ∀ id, Uplink.Held (session.tunnel.vm.uplinks id)
  delivery : session.delivery.Held

/-- The meter that a thread looks at before it forwards. -/
def Session.meterRead (session : Session) : SessionStep → Option Meter
  | .event (.uplink id _) =>
    if session.tunnel.vm.uplinks id = some .check then some session.tunnel.vm.meter else none
  | .dataCheck _ => some session.tunnel.vm.meter
  | _ => none

def Server.meterRead (server : Server) : ServerStep → Option Meter
  | .connect => none
  | .session i l => server.sessions[i]?.bind (·.meterRead l)

def Server.Waits (server : Server) (thread : Nat × Option UInt64) : Prop :=
  ∃ session, server.sessions[thread.1]? = some session ∧ session.Waits thread.2

/-- A thread that the meter lets through is one that could be: all that was forwarded, with a payload of
full length for every other thread that was let through, is not over the line. -/
def Server.Reliable (server : Server) (l : ServerStep) : Prop :=
  ∀ meter, server.meterRead l = some meter → meter.dataAllowed = true →
    Within server.Waits server.forwarded maxDataPayload pauseAt

/-! ## One step of a session -/

/-- No thread of a client's socket is let through. -/
structure Calm (vm vm' : Vm) : Prop where
  waits : ∀ id, Uplink.Waits (vm'.uplinks id) → Uplink.Waits (vm.uplinks id)
  held : (∀ id, Uplink.Held (vm.uplinks id)) → ∀ id, Uplink.Held (vm'.uplinks id)

variable {opts : VmOpts} {s s' : Tunnel} {vm vm' : Vm}

theorem Vm.uplinks_pause (vm : Vm) (byControl : Bool) (order : List UInt64) :
    (vm.pause byControl order).uplinks = vm.uplinks := by
  simp only [Vm.pause]
  split <;> rfl

variable {id : UInt64} {io : Bool} {order : List UInt64} {sent n : Nat} {server : Server}

namespace Calm

theorem of_eq (h : vm'.uplinks = vm.uplinks) : Calm vm vm' where
  waits id := by rw [h]; exact fun hwaits => hwaits
  held hheld id := by rw [h]; exact hheld id

theorem trans {vm'' : Vm} (h : Calm vm vm') (h' : Calm vm' vm'') : Calm vm vm'' where
  waits id hwaits := h.waits id (h'.waits id hwaits)
  held hheld := h'.held (h.held hheld)

theorem update {next : Uplink} (h : vm'.uplinks = Function.update vm.uplinks id (some next))
    (hwaits : Uplink.Waits (some next) → Uplink.Waits (vm.uplinks id))
    (hheld : Uplink.Held (some next)) : Calm vm vm' := by
  refine ⟨fun other hother => ?_, fun hall other => ?_⟩
  all_goals rcases eq_or_ne other id with rfl | hne
  · rw [h, update_self] at hother
    exact hwaits hother
  · rwa [h, update_of_ne hne] at hother
  · rwa [h, update_self]
  · rw [h, update_of_ne hne]
    exact hall other

theorem retire {first : Bool} (h : vm.retire id = .ok (first, vm')) : Calm vm vm' := by
  obtain ⟨-, ⟨-, -, rfl⟩ | ⟨-, -, rfl⟩⟩ := Vm.retire_cases h <;> exact of_eq rfl

theorem pause (vm : Vm) (byControl : Bool) (order : List UInt64) :
    Calm vm (vm.pause byControl order) :=
  of_eq (Vm.uplinks_pause ..)

theorem startUplink (vm : Vm) (id : UInt64) (io : Bool) : Calm vm (vm.startUplink id io) := by
  cases io with
  | false => exact of_eq rfl
  | true => exact update rfl (by rintro ⟨⟩) trivial

end Calm

theorem calm_accept (h : acceptStep opts s = some s') : Calm s.vm s'.vm := by
  simp only [acceptStep] at h
  split at h <;> cases h <;> exact .of_eq rfl

theorem calm_client {srcPort : UInt16} {addr : Ipv4Addr} (h : clientStep s srcPort addr = some s') :
    Calm s.vm s'.vm := by
  simp only [clientStep] at h
  split at h
  · split at h <;> cases h <;> exact .of_eq rfl
  · cases h

theorem calm_clientRead {payload : List UInt8} (h : clientReadStep s id payload = some s') :
    Calm s.vm s'.vm := by
  simp only [clientReadStep] at h
  split at h
  · next hread =>
    cases h
    exact .update rfl (fun _ => by rw [hread.1]; trivial) hread.2.2
  · cases h

theorem calm_clientEnd {reset : Bool} (h : clientEndStep s id reset = some s') :
    Calm s.vm s'.vm := by
  simp only [clientEndStep] at h
  split at h
  · split at h <;> cases h <;> exact .update rfl (by rintro ⟨⟩) trivial
  · cases h

theorem calm_pause (h : pauseStep s = some s') : Calm s.vm s'.vm := by
  simp only [pauseStep] at h
  split at h
  · cases h
  · cases h
    exact .of_eq rfl
  · split at h
    · cases h
      exact .of_eq rfl
    all_goals
      next hretire =>
      cases h
      exact (Calm.retire hretire).trans (.of_eq rfl)
  · cases h
    exact .of_eq rfl
  · cases h
    exact .of_eq rfl

theorem calm_answerHello {today : UInt16 × UInt8} (h : answerHello s io today = .ok s') :
    Calm s.vm s'.vm := by
  simp only [answerHello] at h
  split at h
  · cases h
    exact .of_eq rfl
  · split at h <;> cases h
    exact .of_eq rfl

theorem calm_onVmFrame {frame : Frame} (hdata : frame.isData = false)
    (h : onVmFrame s frame io order = .ok s') : Calm s.vm s'.vm := by
  cases frame with
  | data => cases hdata
  | hello =>
    simp only [onVmFrame, observe] at h
    split at h
    · cases h
    · next hobserve =>
      split at hobserve <;> cases hobserve
      cases h
      exact .of_eq rfl
  | ping | pong =>
    cases h
    exact .of_eq rfl
  | openOk id =>
    simp only [onVmFrame] at h
    split at h
    · cases h
    · split at h <;> cases h
      have hstart := Calm.startUplink { s.vm with waiting := s.vm.waiting.erase id } id io
      exact { hstart with }
  | openFail id =>
    simp only [onVmFrame] at h
    split at h <;> cases h
    exact .of_eq rfl
  | close id =>
    simp only [onVmFrame] at h
    split at h
    · cases h
    · next hretire =>
      cases h
      exact .retire hretire
  | helloOk | «open» | quota => cases h

theorem calm_vmFrame {today : UInt16 × UInt8} (hdata : (s.toVm.head?.map Frame.isData) = some false)
    (h : vmFrameStep s io today order = some s') : Calm s.vm s'.vm := by
  simp only [vmFrameStep] at h
  split at h
  · cases h
  · next frame rest htoVm =>
    have hframe : frame.isData = false := by simpa [htoVm] using hdata
    split at h
    · split at h
      · next hsession =>
        cases h
        simp only [vmSession, observe] at hsession
        split at hsession
        · split at hsession
          · cases hsession
          · next hobserve =>
            split at hobserve <;> cases hobserve
            have hcalm := calm_answerHello hsession
            exact { hcalm with }
        · have hcalm := calm_onVmFrame hframe hsession
          exact { hcalm with }
      · cases h
        exact .of_eq rfl
    · cases h

theorem vm_macUplink (h : macUplinkStep s id = some s') : s'.vm = s.vm := by
  simp only [macUplinkStep] at h
  split at h <;> cases h <;> rfl

theorem vm_upstreamRead {payload : List UInt8} (h : upstreamReadStep s id payload = some s') :
    s'.vm = s.vm := by
  simp only [upstreamReadStep] at h
  split at h <;> cases h
  rfl

theorem vm_upstreamEnd {reset : Bool} (h : upstreamEndStep s id reset = some s') :
    s'.vm = s.vm := by
  simp only [upstreamEndStep] at h
  split at h
  · split at h <;> cases h <;> rfl
  · cases h

theorem vm_openOnMac {publicPort : UInt16} {dial : Dial}
    (h : openOnMac s id publicPort dial = .ok s') : s'.vm = s.vm := by
  obtain ⟨outcome, ids, -, ⟨-, rfl⟩ | ⟨-, reason, rfl⟩ | ⟨-, rfl⟩⟩ := openOnMac_cases h <;> rfl

theorem vm_serveMac {frame : Frame} {dial : Dial} (h : serveMac s frame dial io = .ok s') :
    s'.vm = s.vm := by
  cases frame with
  | helloOk | pong | quota | ping =>
    cases h
    rfl
  | «open» id publicPort => exact vm_openOnMac h
  | data id payload =>
    simp only [serveMac] at h
    split at h
    · cases h
    · split at h
      · split at h <;> cases h
        rfl
      · cases h
  | close id reason =>
    simp only [serveMac] at h
    split at h
    · cases h
    · split at h <;> cases h <;> rfl
  | hello | openOk | openFail => cases h

theorem vm_macFrame {dial : Dial} (h : macFrameStep s dial io = some s') : s'.vm = s.vm := by
  simp only [macFrameStep] at h
  split at h
  · cases h
  · next frame rest htoMac =>
    split at h
    · next next hserve =>
      cases h
      have hvm := vm_serveMac hserve
      exact hvm
    · cases h
      rfl

theorem calm_threadStep {session : Session} {event : Event} {s' : Tunnel}
    (huplink : ∀ id order, event ≠ .uplink id order) (h : threadStep opts session event = some s') :
    Calm session.tunnel.vm s'.vm := by
  cases event with
  | accept => exact calm_accept h
  | client srcPort addr => exact calm_client h
  | uplink id order => exact absurd rfl (huplink id order)
  | clientRead id payload => exact calm_clientRead h
  | clientEnd id reset => exact calm_clientEnd h
  | pause => exact calm_pause h
  | vmFrame io today order =>
    simp only [threadStep] at h
    split at h
    · next hready => exact calm_vmFrame hready.2.2 h
    · cases h
  | vmStop => cases h
  | vmPing | macPing =>
    simp only [threadStep, step] at h
    split at h <;> cases h
    exact .of_eq rfl
  | macUplink id =>
    simp only [threadStep, step] at h
    split at h
    · exact .of_eq (congrArg Vm.uplinks (vm_macUplink h))
    · cases h
  | upstreamRead id payload =>
    simp only [threadStep, step] at h
    split at h
    · exact .of_eq (congrArg Vm.uplinks (vm_upstreamRead h))
    · cases h
  | upstreamEnd id reset =>
    simp only [threadStep, step] at h
    split at h
    · exact .of_eq (congrArg Vm.uplinks (vm_upstreamEnd h))
    · cases h
  | macFrame dial io =>
    simp only [threadStep, step] at h
    split at h
    · exact .of_eq (congrArg Vm.uplinks (vm_macFrame h))
    · cases h

/-- What a step does to the threads that were let through. -/
inductive Effect (session next : Session) (l : SessionStep) (sent : Nat) : Prop where
  | keeps (hsent : sent = 0) (hwaits : ∀ t, next.Waits t → session.Waits t)
  /-- one of them forwards -/
  | spends (t : Option UInt64) (hwaits : session.Waits t) (hsent : sent ≤ maxDataPayload)
      (hrest : ∀ t', next.Waits t' → t' ≠ t ∧ session.Waits t')
  /-- the meter lets one more through -/
  | admits (t : Option UInt64) (meter : Meter) (hsent : sent = 0)
      (hread : session.meterRead l = some meter) (hallowed : meter.dataAllowed = true)
      (hrest : ∀ t', next.Waits t' → t' = t ∨ session.Waits t')

namespace Effect

variable {session next : Session} {l : SessionStep}

theorem calm (h : Calm session.tunnel.vm next.tunnel.vm) (hdelivery : next.delivery = session.delivery) :
    Effect session next l 0 := by
  refine .keeps rfl fun t ht => ?_
  cases t with
  | none => simpa only [Session.Waits, hdelivery] using ht
  | some id => exact h.waits id ht

theorem arriving (h : Calm session.tunnel.vm next.tunnel.vm)
    (hdelivery : ∀ id payload, next.delivery ≠ .checked id payload) : Effect session next l 0 := by
  refine .keeps rfl fun t ht => ?_
  cases t with
  | none =>
    obtain ⟨id, payload, hchecked⟩ := ht
    exact absurd hchecked (hdelivery id payload)
  | some id => exact h.waits id ht

theorem written {payload : List UInt8} (h : session.delivery = .checked id payload)
    (hheld : session.Held) (hsent : sent ≤ payload.length)
    (hcalm : Calm session.tunnel.vm next.tunnel.vm)
    (hdelivery : ∀ id payload, next.delivery ≠ .checked id payload) : Effect session next l sent := by
  have hdata : payload.length ≤ maxDataPayload := by
    have := hheld.delivery
    rwa [h] at this
  refine .spends none ⟨id, payload, h⟩ (hsent.trans hdata) fun t ht => ?_
  cases t with
  | none =>
    obtain ⟨id, payload, hchecked⟩ := ht
    exact absurd hchecked (hdelivery id payload)
  | some id => exact ⟨(by simp), hcalm.waits id ht⟩

theorem sentOn {payload : List UInt8} {uplink : Uplink}
    (h : session.tunnel.vm.uplinks id = some (.sendData payload)) (hheld : session.Held)
    (hsent : sent ≤ payload.length)
    (hnext : next.tunnel.vm.uplinks = Function.update session.tunnel.vm.uplinks id (some uplink))
    (hdone : ¬ Uplink.Waits (some uplink)) (hdelivery : next.delivery = session.delivery) : Effect session next l sent := by
  have hdata : payload.length ≤ maxDataPayload := by
    have := hheld.uplinks id
    rwa [h] at this
  refine .spends (some id) (by simp only [Session.Waits, h, Uplink.Waits]) (hsent.trans hdata)
    fun t ht => ?_
  cases t with
  | none => exact ⟨(by simp), by simpa only [Session.Waits, hdelivery] using ht⟩
  | some other =>
    simp only [Session.Waits, hnext] at ht
    rcases eq_or_ne other id with rfl | hne
    · rw [update_self] at ht
      exact absurd ht hdone
    · rw [update_of_ne hne] at ht
      exact ⟨fun heq => hne (Option.some.inj heq), ht⟩

end Effect

variable {session next : Session}

theorem held_update (hheld : session.Held) {uplink : Uplink}
    (hnext : next.tunnel.vm.uplinks = Function.update session.tunnel.vm.uplinks id (some uplink))
    (huplink : Uplink.Held (some uplink)) (hdelivery : next.delivery = session.delivery) :
    next.Held where
  uplinks other := by
    rw [hnext]
    rcases eq_or_ne other id with rfl | hne
    · rwa [update_self]
    · rw [update_of_ne hne]
      exact hheld.uplinks other
  delivery := by
    rw [hdelivery]
    exact hheld.delivery

theorem uplinkStep_cases (h : uplinkStep s id order = some s') : ∃ old next, s.vm.uplinks id = some old ∧
      s'.vm.uplinks = Function.update s.vm.uplinks id (some next) ∧
      (old = .check ∧ next = .read ∧ s.vm.meter.dataAllowed = true ∨
        (∃ payload, old = .sendData payload ∧ next = .note payload.length) ∨
        Uplink.payload (some old) = none ∧ ¬ Uplink.Waits (some next) ∧ Uplink.Held (some next)) := by
  simp only [uplinkStep] at h
  split at h
  · next hold =>
    cases h
    refine ⟨_, _, hold, rfl, ?_⟩
    split
    · exact .inr (.inr ⟨rfl, by rintro ⟨⟩, trivial⟩)
    · next hgo =>
      simp only [Bool.or_eq_true, not_or, Bool.not_eq_true', Bool.not_eq_false] at hgo
      exact .inl ⟨rfl, rfl, hgo.2⟩
  · next payload hold =>
    cases h
    exact ⟨_, _, hold, rfl, .inr (.inl ⟨payload, rfl, rfl⟩)⟩
  · next n hold =>
    split at h
    · split at h
      · cases h
        refine ⟨_, .done, hold, ?_, .inr (.inr ⟨rfl, by rintro ⟨⟩, trivial⟩)⟩
        exact congrArg (Function.update · id (some .done)) (Vm.uplinks_pause ..)
      · cases h
        exact ⟨_, _, hold, rfl, .inr (.inr ⟨rfl, by rintro ⟨⟩, trivial⟩)⟩
    · cases h
  · next reason hold =>
    cases h
    exact ⟨_, _, hold, rfl, .inr (.inr ⟨rfl, by rintro ⟨⟩, trivial⟩)⟩
  · next reason hold =>
    cases h
    exact ⟨_, _, hold, rfl, .inr (.inr ⟨rfl, by rintro ⟨⟩, trivial⟩)⟩
  all_goals cases h

theorem effect_uplink {session : Session} {s' : Tunnel} (hheld : session.Held)
    (h : uplinkStep session.tunnel id order = some s') :
    Effect session { session with tunnel := s' } (.event (.uplink id order))
        ((session.sends (.uplink id order)).getD []).length ∧
      Session.Held { session with tunnel := s' } := by
  obtain ⟨old, next, hold, hnext, hcases⟩ := uplinkStep_cases h
  have hsends : session.sends (.uplink id order) = Uplink.payload (some old) :=
    congrArg Uplink.payload hold
  rw [hsends]
  rcases hcases with ⟨rfl, rfl, hallowed⟩ | ⟨payload, rfl, rfl⟩ | ⟨hpayload, hdone, hnone⟩
  · refine ⟨.admits (some id) session.tunnel.vm.meter rfl (if_pos hold) hallowed fun t ht => ?_,
      held_update hheld hnext trivial rfl⟩
    cases t with
    | none => exact .inr ht
    | some other =>
      rcases eq_or_ne other id with rfl | hne
      · exact .inl rfl
      · refine .inr ?_
        simpa only [Session.Waits, hnext, update_of_ne hne] using ht
  · exact ⟨.sentOn hold hheld le_rfl hnext (by rintro ⟨⟩) rfl, held_update hheld hnext trivial rfl⟩
  · rw [hpayload]
    exact ⟨.calm (.update hnext (fun hwaits => absurd hwaits hdone) hnone) rfl,
      held_update hheld hnext hnone rfl⟩

theorem effect_arriving {l : SessionStep} (hheld : session.Held)
    (hcalm : Calm session.tunnel.vm next.tunnel.vm)
    (hdelivery : next.delivery = .idle ∨ ∃ n, next.delivery = .note n) :
    Effect session next l 0 ∧ next.Held := by
  refine ⟨.arriving hcalm fun id payload hchecked => ?_, hcalm.held hheld.uplinks, ?_⟩
  · rcases hdelivery with hidle | ⟨n, hnote⟩
    · cases hchecked.symm.trans hidle
    · cases hchecked.symm.trans hnote
  · rcases hdelivery with hidle | ⟨n, hnote⟩
    · rw [hidle]
      trivial
    · rw [hnote]
      trivial

theorem effect_dataTake (hheld : session.Held)
    (h : session.dataTake = some next) : Effect session next .dataTake 0 ∧ next.Held := by
  simp only [Session.dataTake] at h
  split at h
  · next id payload rest htoVm =>
    split at h
    · split at h
      · cases h
        exact effect_arriving hheld (.of_eq rfl) (.inl rfl)
      · next hlen =>
        cases h
        exact ⟨.arriving (.of_eq rfl) (by simp), hheld.uplinks, Nat.le_of_not_lt hlen⟩
    · cases h
  · cases h

theorem effect_dataCheck (hheld : session.Held)
    (h : session.dataCheck order = some next) : Effect session next (.dataCheck order) 0 ∧ next.Held := by
  simp only [Session.dataCheck] at h
  split at h
  · next id payload htaken =>
    split at h
    · split at h
      · cases h
        exact effect_arriving hheld (.pause ..) (.inl rfl)
      · next hallowed =>
        cases h
        have hdata : payload.length ≤ maxDataPayload := by
          have := hheld.delivery
          rwa [htaken] at this
        refine ⟨.admits none session.tunnel.vm.meter rfl rfl (by simpa using hallowed) fun t ht => ?_,
          hheld.uplinks, hdata⟩
        cases t with
        | none => exact .inl rfl
        | some id => exact .inr ht
    · cases h
  · cases h

theorem effect_dataWrite (hheld : session.Held) (h : session.dataWrite io sent = some (next, n)) :
    Effect session next (.dataWrite io sent) n ∧ next.Held := by
  simp only [Session.dataWrite] at h
  split at h
  · next id payload hchecked =>
    split at h
    · cases h
      exact effect_arriving hheld (.of_eq rfl) (.inl rfl)
    · split at h
      · split at h
        · cases h
          exact ⟨.written hchecked hheld le_rfl (.of_eq rfl) (by simp), hheld.uplinks, trivial⟩
        · split at h
          · next hsent =>
            cases h
            exact ⟨.written hchecked hheld hsent (.of_eq rfl) (by rintro _ _ ⟨⟩), hheld.uplinks, trivial⟩
          · cases h
      · cases h
        exact effect_arriving hheld (.of_eq rfl) (.inl rfl)
  · cases h

theorem effect_dataNote (hheld : session.Held)
    (h : session.dataNote order = some next) : Effect session next (.dataNote order) 0 ∧ next.Held := by
  simp only [Session.dataNote] at h
  split at h
  · next n hnote =>
    split at h
    · cases h
      refine effect_arriving hheld ?_ (.inl rfl)
      split
      · exact .of_eq (Vm.uplinks_pause ..)
      · exact .of_eq rfl
    · cases h
  · cases h

theorem effect_sendFails (hheld : session.Held) (h : session.sendFails id sent = some (next, n)) :
    Effect session next (.sendFails id sent) n ∧ next.Held := by
  simp only [Session.sendFails] at h
  split at h
  · next payload hpayload =>
    have hold : session.tunnel.vm.uplinks id = some (.sendData payload) := by
      rcases huplink : session.tunnel.vm.uplinks id with _ | ⟨_ | _ | _ | _ | _ | _ | _⟩ <;>
        simp_all [Uplink.payload]
    split at h
    · next hsent =>
      cases h
      exact ⟨.sentOn hold hheld hsent rfl (by rintro ⟨⟩) rfl, held_update hheld rfl trivial rfl⟩
    · cases h
  · cases h

theorem effect_step {l : SessionStep} (hheld : session.Held)
    (h : session.step opts l = some (next, sent)) : Effect session next l sent ∧ next.Held := by
  cases l with
  | event event =>
    simp only [Session.step, Session.eventStep] at h
    split at h
    · cases h
    · obtain ⟨s', hthread, heq⟩ := map_eq_some_iff.mp h
      cases heq
      by_cases huplink : ∃ id order, event = .uplink id order
      · obtain ⟨id, order, rfl⟩ := huplink
        exact effect_uplink hheld hthread
      · have hcalm := calm_threadStep (fun id order heq => huplink ⟨id, order, heq⟩) hthread
        have hsends : session.sends event = none := by
          cases event with
          | uplink id order => exact absurd ⟨id, order, rfl⟩ huplink
          | _ => rfl
        rw [hsends]
        exact ⟨.calm hcalm rfl, hcalm.held hheld.uplinks, hheld.delivery⟩
  | sendFails id sent => exact effect_sendFails hheld h
  | dataTake =>
    obtain ⟨next, htake, heq⟩ := map_eq_some_iff.mp h
    cases heq
    exact effect_dataTake hheld htake
  | dataCheck order =>
    obtain ⟨next, hcheck, heq⟩ := map_eq_some_iff.mp h
    cases heq
    exact effect_dataCheck hheld hcheck
  | dataWrite io sent => exact effect_dataWrite hheld h
  | dataNote order =>
    obtain ⟨next, hnote, heq⟩ := map_eq_some_iff.mp h
    cases heq
    exact effect_dataNote hheld hnote
  | leave reason =>
    obtain ⟨next, hleave, heq⟩ := map_eq_some_iff.mp h
    cases heq
    simp only [Session.leave] at hleave
    split at hleave
    · cases hleave
      exact effect_arriving hheld (.of_eq rfl) (.inl rfl)
    · cases hleave
  | timeout =>
    cases h
    exact ⟨.calm (.of_eq rfl) rfl, hheld.uplinks, hheld.delivery⟩

/-! ## Runs of the process -/

/-- What was forwarded, with what every thread that was let through may still forward. -/
structure Metered (server : Server) : Prop where
  held : ∀ session ∈ server.sessions, session.Held
  within : Within server.Waits server.forwarded maxDataPayload (pauseAt + maxDataPayload)

theorem metered_start : Metered .start where
  held := by simp [Server.start]
  within := by
    refine within_of_none ?_ ?_
    · rintro t ⟨session, hget, -⟩
      simp [Server.start] at hget
    · simp [Server.start]

theorem waits_connect {next : Server} (h : server.step opts .connect = some next)
    {thread : Nat × Option UInt64} (hwaits : next.Waits thread) : server.Waits thread := by
  obtain ⟨session, hget, ht⟩ := hwaits
  cases h
  rw [List.getElem?_append] at hget
  split at hget
  · rw [List.getElem?_map] at hget
    obtain ⟨old, hold, rfl⟩ := map_eq_some_iff.mp hget
    exact ⟨old, hold, ht⟩
  · -- the new session has let no thread through
    obtain rfl := mem_singleton.mp (mem_of_getElem? hget)
    cases hthread : thread.2 with
    | none =>
      rw [hthread] at ht
      obtain ⟨id, payload, hchecked⟩ := ht
      cases hchecked
    | some id =>
      rw [hthread] at ht
      exact ht.elim

theorem waits_set {i : Nat} (hget : server.sessions[i]? = some session)
    {thread : Nat × Option UInt64} (hwaits : Server.Waits ⟨server.sessions.set i next, n⟩ thread) :
    thread.1 = i ∧ next.Waits thread.2 ∨ thread.1 ≠ i ∧ server.Waits thread := by
  obtain ⟨other, hother, ht⟩ := hwaits
  rcases eq_or_ne thread.1 i with heq | hne
  · rw [heq, List.getElem?_set_self' , hget] at hother
    cases hother
    exact .inl ⟨heq, ht⟩
  · rw [List.getElem?_set_ne hne.symm] at hother
    exact .inr ⟨hne, other, hother, ht⟩

theorem metered_step {next : Server} {l : ServerStep} (h : Metered server)
    (hreliable : server.Reliable l) (hstep : server.step opts l = some next) : Metered next := by
  cases l with
  | connect =>
    have hwaits := @waits_connect _ _ _ hstep
    cases hstep
    refine ⟨?_, h.within.mono fun t => hwaits⟩
    intro session hsession
    rcases mem_append.mp hsession with hmap | hnew
    · obtain ⟨old, hold, rfl⟩ := List.mem_map.mp hmap
      exact ⟨(h.held old hold).uplinks, (h.held old hold).delivery⟩
    · obtain rfl := mem_singleton.mp hnew
      exact ⟨fun id => trivial, trivial⟩
  | session i l =>
    obtain ⟨session, hget, hrest⟩ := bind_eq_some_iff.mp hstep
    obtain ⟨⟨after, sent⟩, hafter, heq⟩ := map_eq_some_iff.mp hrest
    cases heq
    obtain ⟨heffect, hheld⟩ := effect_step (h.held session (mem_of_getElem? hget)) hafter
    refine ⟨fun other hother => ?_, ?_⟩
    · rcases mem_or_eq_of_mem_set hother with hold | rfl
      · exact h.held other hold
      · exact hheld
    · -- the other sessions are as they were
      have hself : ∀ t, session.Waits t → server.Waits (i, t) := fun t ht => ⟨session, hget, ht⟩
      cases heffect with
      | keeps hsent hwaits =>
        subst hsent
        refine h.within.mono fun thread hthread => ?_
        obtain ⟨hi, ht⟩ | ⟨-, ht⟩ := waits_set hget hthread
        · obtain ⟨j, t⟩ := thread
          cases hi
          exact hself t (hwaits t ht)
        · exact ht
      | spends t hwaits hsent hothers =>
        refine h.within.spend (hself t hwaits) hsent fun thread hthread => ?_
        obtain ⟨hi, ht⟩ | ⟨hne, ht⟩ := waits_set hget hthread
        · obtain ⟨j, t'⟩ := thread
          cases hi
          obtain ⟨hne, hold⟩ := hothers t' ht
          exact ⟨fun heq => hne (Prod.mk.inj heq).2, hself t' hold⟩
        · exact ⟨fun heq => hne (congrArg Prod.fst heq), ht⟩
      | admits t meter hsent hread hallowed hothers =>
        subst hsent
        have hmeter : server.meterRead (.session i l) = some meter := by
          simp [Server.meterRead, hget, hread]
        refine @Within.letThrough _ _ _ _ _ _ _ (hreliable meter hmeter hallowed) (i, t)
          fun thread hthread => ?_
        obtain ⟨hi, ht⟩ | ⟨-, ht⟩ := waits_set hget hthread
        · obtain ⟨j, t'⟩ := thread
          cases hi
          exact (hothers t' ht).imp (congrArg (Prod.mk _)) (hself t')
        · exact .inr ht

def clientComes : List SessionStep :=
  [.vmFrame true (2026, 9) [], .accept, .client 40000 ⟨203, 0, 113, 9⟩, .accept, .accept,
    .macFrame .connected true, .macFrame .connected true, .vmFrame true (2026, 9) []].map .event

/-- Its thread is let through, reads and sends. -/
def uploads (payload : List UInt8) : List SessionStep :=
  [.uplink 1 [], .clientRead 1 payload, .uplink 1 []].map .event

def upload (payload : List UInt8) : List SessionStep := clientComes ++ uploads payload

def again (payload : List UInt8) (i : Nat) : List ServerStep :=
  .connect :: (upload payload).map (.session i)

def reconnects (payload : List UInt8) (n : Nat) : List ServerStep :=
  (List.range n).flatMap (again payload)

def Session.run (opts : VmOpts) : Session → List SessionStep → Option (Session × Nat)
  | session, [] => some (session, 0)
  | session, l :: ls =>
    (session.step opts l).bind fun (next, sent) =>
      (next.run opts ls).map fun (last, more) => (last, sent + more)

theorem step_last (old : List Session) (session : Session) (n : Nat) (l : SessionStep) :
    Server.step opts ⟨old ++ [session], n⟩ (.session old.length l) =
      (session.step opts l).map fun (next, sent) => ⟨old ++ [next], n + sent⟩ := by
  simp [Server.step]

theorem run_last {old : List Session} {n sent : Nat} {ls : List SessionStep}
    (h : session.run opts ls = some (next, sent)) :
    Runs.run (Server.step opts) ⟨old ++ [session], n⟩ (ls.map (.session old.length)) =
      some ⟨old ++ [next], n + sent⟩ := by
  induction ls generalizing session n sent with
  | nil =>
    cases h
    rfl
  | cons l ls ih =>
    obtain ⟨⟨after, first⟩, hstep, hrest⟩ := bind_eq_some_iff.mp h
    obtain ⟨⟨last, more⟩, hrun, heq⟩ := map_eq_some_iff.mp hrest
    cases heq
    simp [Runs.run, step_last, hstep, ih hrun, Nat.add_assoc]

theorem Session.run_cons {session next last : Session} {l : SessionStep} {ls : List SessionStep}
    {more : Nat} (h : session.step opts l = some (next, sent))
    (h' : next.run opts ls = some (last, more)) :
    session.run opts (l :: ls) = some (last, sent + more) := by
  simp [Session.run, h, h']

theorem Session.run_append {session next last : Session} {ls ls' : List SessionStep} {more : Nat}
    (h : session.run opts ls = some (next, sent)) (h' : next.run opts ls' = some (last, more)) :
    session.run opts (ls ++ ls') = some (last, sent + more) := by
  induction ls generalizing session sent with
  | nil =>
    cases h
    simpa using h'
  | cons l ls ih =>
    obtain ⟨⟨after, first⟩, hstep, hrest⟩ := bind_eq_some_iff.mp h
    obtain ⟨⟨middle, rest⟩, hrun, heq⟩ := map_eq_some_iff.mp hrest
    cases heq
    rw [Nat.add_assoc]
    exact Session.run_cons hstep (ih hrun)

theorem run_clientComes : ∃ session,
    (Session.start mailPort).run mailPort clientComes = some (session, 0) ∧
      session.tunnel.vm.uplinks = Function.update (fun _ => none) 1 (some .check) ∧
      session.delivery = .idle ∧ session.shut = false ∧ session.tunnel.vm.stop = false ∧
      session.tunnel.vm.closed = ∅ ∧ session.tunnel.vm.meter = ⟨0, false⟩ := by
  refine ⟨_, rfl, rfl, rfl, rfl, rfl, rfl, rfl⟩

section Uploads

variable {session : Session} {payload : List UInt8}

def Session.setUplink (session : Session) (id : UInt64) (next : Uplink) : Session :=
  session.setVm (session.tunnel.vm.setUplink id next)

theorem Session.uplinks_setUplink (session : Session) (id : UInt64) (next : Uplink) :
    (session.setUplink id next).tunnel.vm.uplinks id = some next :=
  update_self ..

theorem step_check (huplinks : session.tunnel.vm.uplinks 1 = some .check)
    (hstop : session.tunnel.vm.stop = false) (hclosed : session.tunnel.vm.closed = ∅)
    (hmeter : session.tunnel.vm.meter.dataAllowed = true) :
    session.step opts (.event (.uplink 1 [])) = some (session.setUplink 1 .read, 0) := by
  simp [Session.step, Session.eventStep, Session.sends, Uplink.payload, huplinks, threadStep,
    uplinkStep, hstop, hclosed, hmeter, Session.setUplink, Session.setVm]

theorem step_read (huplinks : session.tunnel.vm.uplinks 1 = some .read) (hchunk : Chunk payload) :
    session.step opts (.event (.clientRead 1 payload)) =
      some (session.setUplink 1 (.sendData payload), 0) := by
  simp [Session.step, Session.eventStep, Session.sends, threadStep, clientReadStep, huplinks,
    hchunk, Session.setUplink, Session.setVm]

theorem step_send (huplinks : session.tunnel.vm.uplinks 1 = some (.sendData payload))
    (hshut : session.shut = false) :
    ∃ next, session.step opts (.event (.uplink 1 [])) = some (next, payload.length) := by
  simp [Session.step, Session.eventStep, Session.sends, Uplink.payload, threadStep, uplinkStep,
    huplinks, hshut]

theorem run_uploads (hchunk : Chunk payload) (huplinks : session.tunnel.vm.uplinks 1 = some .check)
    (hshut : session.shut = false) (hstop : session.tunnel.vm.stop = false)
    (hclosed : session.tunnel.vm.closed = ∅)
    (hmeter : session.tunnel.vm.meter.dataAllowed = true) :
    ∃ next, session.run opts (uploads payload) = some (next, payload.length) := by
  have huplinks' := session.uplinks_setUplink 1 .read
  have huplinks'' := (session.setUplink 1 .read).uplinks_setUplink 1 (.sendData payload)
  obtain ⟨next, hnext⟩ := @step_send opts _ _ huplinks'' hshut
  have hsent : Session.run opts _ [_] = some (next, payload.length + 0) :=
    Session.run_cons hnext rfl
  have hrun := Session.run_cons (step_check huplinks hstop hclosed hmeter)
    (Session.run_cons (step_read huplinks' hchunk) hsent)
  rw [Nat.zero_add, Nat.zero_add] at hrun
  exact ⟨next, hrun⟩

theorem run_upload (hchunk : Chunk payload) : ∃ next,
    (Session.start mailPort).run mailPort (upload payload) = some (next, payload.length) := by
  obtain ⟨session, hrun, huplinks, -, hshut, hstop, hclosed, hmeter⟩ := run_clientComes
  obtain ⟨next, hnext⟩ := run_uploads hchunk (by rw [huplinks, update_self]) hshut hstop
    hclosed (by rw [hmeter]; decide)
  have hall := Session.run_append hrun hnext
  rw [Nat.zero_add] at hall
  exact ⟨next, hall⟩

/-- Each session forwards a payload, as its meter has not counted those of the others. -/
theorem run_reconnects (hchunk : Chunk payload) (n : Nat) : ∃ sessions, sessions.length = n ∧
      Runs.run (Server.step mailPort) .start (reconnects payload n) =
        some ⟨sessions, n * payload.length⟩ := by
  obtain ⟨last, hlast⟩ := run_upload hchunk
  induction n with
  | zero => exact ⟨[], rfl, by simp [reconnects, Runs.run, Server.start]⟩
  | succ n ih =>
    obtain ⟨sessions, hlen, hrun⟩ := ih
    have hagain : Runs.run (Server.step mailPort) ⟨sessions, n * payload.length⟩ (again payload n) =
        some ⟨sessions.map (fun session => { session with shut := true }) ++ [last],
          n * payload.length + payload.length⟩ := by
      rw [← hlen, ← length_map (fun session => { session with shut := true })]
      exact run_last hlast
    refine ⟨sessions.map (fun session => { session with shut := true }) ++ [last], ?_, ?_⟩
    · simp [hlen]
    · rw [reconnects, range_succ, flatMap_append, Runs.run_append, ← reconnects, hrun,
        bind_some, flatMap_singleton, hagain, Nat.succ_mul]

theorem chunk_replicate (hpos : 0 < n) (hle : n ≤ 16384) : Chunk (List.replicate n 0) :=
  ⟨by simpa using hpos.ne', by simpa using hle⟩

end Uploads

theorem reliable_of_meterRead {l : ServerStep} (h : server.meterRead l = none) :
    server.Reliable l := by
  intro meter hmeter
  cases h.symm.trans hmeter

theorem along_clientComes : Runs.Along (Server.step opts) Server.Reliable .start
    (.connect :: clientComes.map (.session 0)) := by
  have hread : ∀ l ∈ ServerStep.connect :: clientComes.map (.session 0),
      ∀ server : Server, server.meterRead l = none := by
    simp [clientComes, Server.meterRead, Session.meterRead]
  exact .mono (fun server _ hnone => reliable_of_meterRead (hnone server)) (Runs.along_of_forall hread _)

theorem along_uploads {session : Session} {payload : List UInt8} (hchunk : Chunk payload)
    (huplinks : session.tunnel.vm.uplinks 1 = some .check)
    (hstop : session.tunnel.vm.stop = false) (hclosed : session.tunnel.vm.closed = ∅)
    (hmeter : session.tunnel.vm.meter.dataAllowed = true)
    (hquiet : ∀ thread, ¬ Server.Waits ⟨[session], 0⟩ thread) :
    Runs.Along (Server.step opts) Server.Reliable ⟨[session], 0⟩
      ((uploads payload).map (.session 0)) := by
  refine ⟨fun _ _ _ => within_of_none hquiet (Nat.zero_le _), fun server hcheck => ?_⟩
  cases hcheck.symm.trans
    ((step_last [] session 0 _).trans (by rw [step_check huplinks hstop hclosed hmeter]))
  refine ⟨reliable_of_meterRead (by simp [Server.meterRead, Session.meterRead]),
    fun server hread => ⟨reliable_of_meterRead ?_, fun _ _ => trivial⟩⟩
  cases hread.symm.trans
    ((step_last [] _ 0 _).trans (by rw [step_read (session.uplinks_setUplink 1 .read) hchunk]))
  simp [Server.meterRead, Session.meterRead, Session.uplinks_setUplink]

end Bearmail.Edge
