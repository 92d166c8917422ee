import Bearmail.Lib.Framing
import Bearmail.Milter.Protocol

/-!
# The receiver of milter frames

`Receiver::read_frame` of `smtp/src/inbound/milter/receiver.rs` gets the bytes of the connection in packets
and is called on each until it asks for more.
-/

namespace Bearmail.Milter

open BigEndian
open List

/-! ## The receiver -/

inductive State where
  /-- the bytes of the length that were read -/
  | len (buf : List UInt8)
  | frame (buf : List UInt8) (frameLen : Nat)
  deriving DecidableEq

def State.default : State := .len []

structure Receiver where
  packetPos : Nat
  state : State
  maxFrameLen : Nat
  deriving DecidableEq

inductive FrameResult where
  | frame (payload : List UInt8)
  | incomplete
  | tooLarge (len : Nat)
  deriving DecidableEq

def getRange (packet : List UInt8) (pos len : Nat) : Option (List UInt8) :=
  if pos + len ≤ packet.length then some ((packet.drop pos).take len) else none

def getFrom (packet : List UInt8) (pos : Nat) : Option (List UInt8) :=
  if pos ≤ packet.length then some (packet.drop pos) else none

namespace Receiver

def withMaxFrameLen (maxFrameLen : Nat) : Receiver := ⟨0, .default, maxFrameLen⟩

def fillLen : List UInt8 → Nat → List UInt8 → Nat × List UInt8
  | [], pos, buf => (pos, buf)
  | byte :: rest, pos, buf =>
    if buf.length < 4 then fillLen rest (pos + 1) (buf ++ [byte]) else (pos, buf)

def readFrame (receiver : Receiver) (packet : List UInt8) : FrameResult × Receiver :=
  if packet = [] then (.incomplete, receiver)
  else
    match receiver.state with
    | .len buf =>
      let (pos, buf) := fillLen (packet.drop receiver.packetPos) receiver.packetPos buf
      if buf.length < 4 then (.incomplete, { receiver with packetPos := 0, state := .len buf })
      else
        let length := ofBytes buf
        if length ≤ receiver.maxFrameLen then
          match getRange packet pos length with
          | some frame =>
            (.frame frame, { receiver with packetPos := pos + length, state := .default })
          | none =>
            let state := .frame ((getFrom packet pos).getD []) length
            (.incomplete, { receiver with packetPos := 0, state := state })
        else (.tooLarge length, { receiver with packetPos := pos, state := .len buf })
    | .frame buf frameLen =>
      let bytesPending := frameLen - buf.length
      match getRange packet receiver.packetPos bytesPending with
      | some bytes =>
        let packetPos := receiver.packetPos + bytesPending
        (.frame (buf ++ bytes), { receiver with packetPos := packetPos, state := .default })
      | none =>
        match getFrom packet receiver.packetPos with
        | some bytes =>
          (.incomplete, { receiver with packetPos := 0, state := .frame (buf ++ bytes) frameLen })
        | none => (.incomplete, { receiver with packetPos := 0 })

/-- Calls `readFrame` until it asks for more, at most as often as the fuel says. -/
def readPacket (packet : List UInt8) : Nat → Receiver → Option (List (List UInt8) × Receiver)
  | 0, _ => none
  | fuel + 1, receiver =>
    match receiver.readFrame packet with
    | (.frame payload, next) => (readPacket packet fuel next).map fun (payloads, last) => (payload :: payloads, last)
    | (.incomplete, next) => some ([], next)
    | (.tooLarge _, _) => none

/-- A call takes a byte at least, so that there is fuel for as many calls as are made. -/
def readPackets : List (List UInt8) → Receiver → Option (List (List UInt8))
  | [], _ => some []
  | packet :: packets, receiver => do
    let (payloads, receiver) ← receiver.readPacket packet (packet.length + 1)
    let rest ← readPackets packets receiver
    return payloads ++ rest

end Receiver

/-! ## Frames -/

def nextFrame (maxFrameLen : Nat) (s : List UInt8) : Except Nat (Option (List UInt8 × List UInt8)) :=
  if s.length < 4 then .ok none
  else if maxFrameLen < ofBytes (s.take 4) then .error (ofBytes (s.take 4))
  else if s.length < 4 + ofBytes (s.take 4) then .ok none
  else .ok (some ((s.drop 4).take (ofBytes (s.take 4)), s.drop (4 + ofBytes (s.take 4))))

theorem nextFrame_eq_some {maxFrameLen : Nat} {s b r : List UInt8} :
    nextFrame maxFrameLen s = .ok (some (b, r)) ↔
      ofBytes (s.take 4) ≤ maxFrameLen ∧ 4 + ofBytes (s.take 4) ≤ s.length ∧
        b = (s.drop 4).take (ofBytes (s.take 4)) ∧ r = s.drop (4 + ofBytes (s.take 4)) := by
  simp only [nextFrame]
  split_ifs with hshort hlarge hrest
  · simp
    omega
  · simp
    omega
  · simp
    omega
  · simp only [Except.ok.injEq, Option.some.injEq, Prod.mk.injEq, eq_comm (b := b), eq_comm (b := r)]
    exact ⟨fun h => ⟨by omega, by omega, h⟩, fun h => h.2.2⟩

theorem nextFrame_eq_none {maxFrameLen : Nat} {s : List UInt8} : nextFrame maxFrameLen s = .ok none ↔
      s.length < 4 ∨ ofBytes (s.take 4) ≤ maxFrameLen ∧ s.length < 4 + ofBytes (s.take 4) := by
  simp only [nextFrame]
  split_ifs <;> simp <;> omega

theorem nextFrame_eq_error {maxFrameLen : Nat} {s : List UInt8} {len : Nat} :
    nextFrame maxFrameLen s = .error len ↔
      4 ≤ s.length ∧ maxFrameLen < ofBytes (s.take 4) ∧ len = ofBytes (s.take 4) := by
  simp only [nextFrame]
  split_ifs <;> simp [eq_comm] <;> omega

def framing (maxFrameLen : Nat) : Framing UInt8 (List UInt8) Nat where
  next := nextFrame maxFrameLen
  shrinks {s b r} h := by
    obtain ⟨-, hlength, -, rfl⟩ := nextFrame_eq_some.mp h
    simp
    omega
  stable {s b r} t h := by
    obtain ⟨hmax, hlength, rfl, rfl⟩ := nextFrame_eq_some.mp h
    refine nextFrame_eq_some.mpr ?_
    rw [List.take_append_of_le_length (by omega), List.drop_append_of_le_length (by omega),
      List.take_append_of_le_length (by simp; omega), List.drop_append_of_le_length hlength,
      List.length_append]
    exact ⟨hmax, by omega, rfl, rfl⟩
  stable_error {s e} t h := by
    obtain ⟨hlength, hmax, rfl⟩ := nextFrame_eq_error.mp h
    refine nextFrame_eq_error.mpr ?_
    rw [List.take_append_of_le_length hlength, List.length_append]
    exact ⟨by omega, hmax, rfl⟩
  next_nil := rfl

/-! ## What the receiver holds -/

variable {buf rest : List UInt8}

namespace Receiver

def held (receiver : Receiver) : List UInt8 :=
  match receiver.state with
  | .len buf => buf
  | .frame buf frameLen => toBytes 4 frameLen ++ buf

def Ready (receiver : Receiver) : Prop :=
  match receiver.state with
  | .len buf => buf.length < 4
  | .frame buf frameLen =>
    buf.length < frameLen ∧ frameLen ≤ receiver.maxFrameLen ∧ frameLen < 2 ^ 32

theorem fillLen_eq (rest : List UInt8) (pos : Nat) (buf : List UInt8) : fillLen rest pos buf =
      (pos + min rest.length (4 - buf.length), buf ++ rest.take (4 - buf.length)) := by
  induction rest generalizing pos buf with
  | nil => simp [fillLen]
  | cons byte rest ih =>
    rw [fillLen]
    split
    · next hlt =>
      obtain ⟨n, hn⟩ : ∃ n, 4 - buf.length = n + 1 := ⟨3 - buf.length, by omega⟩
      have hnext : 4 - (buf ++ [byte]).length = n := by simp; omega
      rw [ih, hnext, hn]
      simp
      omega
    · next hge =>
      rw [show 4 - buf.length = 0 by omega]
      simp

/-- The bytes that the receiver has yet to make frames of. -/
structure At (receiver : Receiver) (packet : List UInt8) (maxFrameLen : Nat) (s : List UInt8) : Prop where
  ready : receiver.Ready
  inside : receiver.packetPos ≤ packet.length
  max : receiver.maxFrameLen = maxFrameLen
  input : receiver.held ++ packet.drop receiver.packetPos = s

variable {receiver : Receiver} {packet s : List UInt8} {maxFrameLen : Nat}

theorem readFrame_len (hpacket : packet ≠ []) (hstate : receiver.state = .len buf)
    (h : receiver.At packet maxFrameLen s) :
    receiver.readFrame packet =
      let pos := receiver.packetPos + min (packet.length - receiver.packetPos) (4 - buf.length)
      if s.length < 4 then (.incomplete, { receiver with packetPos := 0, state := .len s })
      else if ofBytes (s.take 4) ≤ maxFrameLen then
        match getRange packet pos (ofBytes (s.take 4)) with
        | some frame =>
          (.frame frame, { receiver with packetPos := pos + ofBytes (s.take 4), state := .default })
        | none =>
          let state := .frame ((getFrom packet pos).getD []) (ofBytes (s.take 4))
          (.incomplete, { receiver with packetPos := 0, state := state })
      else (.tooLarge (ofBytes (s.take 4)), { receiver with packetPos := pos, state := .len (s.take 4) }) := by
  have hready : buf.length < 4 := by simpa [Ready, hstate] using h.ready
  have hinput : buf ++ packet.drop receiver.packetPos = s := by simpa [held, hstate] using h.input
  have htake : buf ++ (packet.drop receiver.packetPos).take (4 - buf.length) = s.take 4 := by
    rw [← hinput, take_append, take_of_length_le (l := buf) (by omega)]
  have hshort : (s.take 4).length < 4 ↔ s.length < 4 := by simp
  rw [readFrame, if_neg hpacket, hstate]
  simp only [fillLen_eq, htake, hshort, h.max, length_drop]
  split
  · next hlt => rw [take_of_length_le (by omega)]
  · rfl

theorem readFrame_frame {frameLen : Nat} (hpacket : packet ≠ [])
    (hstate : receiver.state = .frame buf frameLen) (h : receiver.At packet maxFrameLen s) :
    receiver.readFrame packet =
      match getRange packet receiver.packetPos (frameLen - buf.length) with
      | some bytes =>
        let packetPos := receiver.packetPos + (frameLen - buf.length)
        (.frame (buf ++ bytes), { receiver with packetPos := packetPos, state := .default })
      | none =>
        let state := .frame (buf ++ packet.drop receiver.packetPos) frameLen
        (.incomplete, { receiver with packetPos := 0, state := state }) := by
  rw [readFrame, if_neg hpacket, hstate]
  simp [getFrom, h.inside]

theorem At.take_four {frameLen : Nat} (hstate : receiver.state = .frame buf frameLen)
    (h : receiver.At packet maxFrameLen s) :
    ofBytes (s.take 4) = frameLen ∧ s.drop 4 = buf ++ packet.drop receiver.packetPos ∧ 4 ≤ s.length := by
  have hready : frameLen < 2 ^ 32 := by
    have := h.ready
    rw [Ready, hstate] at this
    exact this.2.2
  have hinput : toBytes 4 frameLen ++ (buf ++ packet.drop receiver.packetPos) = s := by
    simpa [held, hstate] using h.input
  rw [← hinput, take_left' (length_toBytes ..)]
  exact ⟨ofBytes_toBytes_of_lt (by omega), rfl, by simp⟩

theorem At.frame {f : List UInt8} (h : receiver.At packet maxFrameLen s)
    (hnext : nextFrame maxFrameLen s = .ok (some (f, rest))) :
    ∃ next, receiver.readFrame packet = (.frame f, next) ∧ next.At packet maxFrameLen rest ∧
      receiver.packetPos < next.packetPos := by
  obtain ⟨hmax, hlength, rfl, rfl⟩ := nextFrame_eq_some.mp hnext
  have hready := h.ready
  have hinput := h.input
  cases hstate : receiver.state with
  | len buf =>
    simp only [Ready, hstate] at hready
    simp only [held, hstate] at hinput
    have hcount : s.length = buf.length + (packet.length - receiver.packetPos) := by simp [← hinput]
    have hpacket : packet ≠ [] := by
      rintro rfl
      simp at hcount
      omega
    have hdrop : packet.drop (receiver.packetPos + (4 - buf.length)) = s.drop 4 := by
      rw [← hinput, drop_append, drop_of_length_le (l := buf) (by omega), nil_append, drop_drop]
    rw [readFrame_len hpacket hstate h, if_neg (by omega), if_pos hmax, min_eq_right (by omega), getRange,
      if_pos (by omega), hdrop]
    refine ⟨_, rfl, ⟨by simp [Ready, State.default], ?_, h.max, ?_⟩, ?_⟩
    · simp only
      omega
    · simp only [held, State.default, nil_append]
      rw [← drop_drop, hdrop, drop_drop]
    · simp only
      omega
  | frame buf frameLen =>
    obtain ⟨hlen, hdrop, hfour⟩ := h.take_four hstate
    simp only [Ready, hstate] at hready
    rw [hlen] at hlength hmax ⊢
    have hcount : s.length = 4 + buf.length + (packet.length - receiver.packetPos) := by
      have := congrArg List.length hdrop
      simp at this
      omega
    have hpacket : packet ≠ [] := by
      rintro rfl
      simp at hcount
      omega
    rw [readFrame_frame hpacket hstate h, getRange, if_pos (by omega)]
    refine ⟨{ receiver with
      packetPos := receiver.packetPos + (frameLen - buf.length), state := .default }, ?_,
      ⟨by simp [Ready, State.default], ?_, h.max, ?_⟩, ?_⟩
    · rw [hdrop, take_append, take_of_length_le (l := buf) (by omega)]
    · simp only
      omega
    · simp only [held, State.default, nil_append]
      rw [← drop_drop, ← drop_drop, hdrop, drop_append,
        drop_of_length_le (l := buf) (by omega), nil_append]
    · simp only
      omega

theorem At.incomplete (h : receiver.At packet maxFrameLen s) (hnext : nextFrame maxFrameLen s = .ok none) :
    ∃ next, receiver.readFrame packet = (.incomplete, next) ∧
      ∀ packet', next.At packet' maxFrameLen (s ++ packet') := by
  have hready := h.ready
  have hinput := h.input
  have hinside := h.inside
  rcases eq_or_ne packet [] with rfl | hpacket
  · refine ⟨receiver, rfl, fun packet' => ?_⟩
    have hpos : receiver.packetPos = 0 := by simpa using hinside
    exact ⟨hready, by omega, h.max, by simpa [hpos] using hinput⟩
  cases hstate : receiver.state with
  | len buf =>
    simp only [Ready, hstate] at hready
    simp only [held, hstate] at hinput
    rw [readFrame_len hpacket hstate h]
    by_cases hshort : s.length < 4
    · rw [if_pos hshort]
      exact ⟨_, rfl, fun packet' => ⟨hshort, Nat.zero_le _, h.max, rfl⟩⟩
    · obtain ⟨hmax, hrest⟩ := (nextFrame_eq_none.mp hnext).resolve_left hshort
      have hcount : s.length = buf.length + (packet.length - receiver.packetPos) := by simp [← hinput]
      have hdrop : packet.drop (receiver.packetPos + (4 - buf.length)) = s.drop 4 := by
        rw [← hinput, drop_append, drop_of_length_le (l := buf) (by omega), nil_append, drop_drop]
      have hfour : (s.take 4).length = 4 := by simp; omega
      have hlen : ofBytes (s.take 4) < 2 ^ 32 := by
        have := ofBytes_lt (s.take 4)
        rwa [hfour] at this
      rw [if_neg hshort, if_pos hmax, min_eq_right (by omega), getRange, if_neg (by omega), getFrom,
        if_pos (by omega), hdrop]
      refine ⟨_, rfl, fun packet' => ⟨⟨?_, by rwa [h.max], hlen⟩, Nat.zero_le _, h.max, ?_⟩⟩
      · simp
        omega
      · have hbytes : toBytes 4 (ofBytes (s.take 4)) = s.take 4 := by
          have := toBytes_ofBytes (s.take 4)
          rwa [hfour] at this
        simp [held, hbytes]
  | frame buf frameLen =>
    obtain ⟨hlen, hdrop, hfour⟩ := h.take_four hstate
    simp only [Ready, hstate] at hready
    obtain ⟨-, hrest⟩ := (nextFrame_eq_none.mp hnext).resolve_left (by omega)
    have hcount : s.length = 4 + buf.length + (packet.length - receiver.packetPos) := by
      have := congrArg List.length hdrop
      simp at this
      omega
    rw [readFrame_frame hpacket hstate h, getRange, if_neg (by omega)]
    refine ⟨_, rfl, fun packet' => ⟨⟨?_, hready.2⟩, Nat.zero_le _, h.max, ?_⟩⟩
    · simp
      omega
    · simp only [held, hstate] at hinput
      simp [held, ← hinput]

theorem At.readPacket {frames : List (List UInt8)} {fuel : Nat}
    (h : receiver.At packet maxFrameLen s) (hall : (framing maxFrameLen).all s = .ok (frames, rest))
    (hfuel : packet.length - receiver.packetPos < fuel) :
    ∃ next, receiver.readPacket packet fuel = some (frames, next) ∧
      ∀ packet', next.At packet' maxFrameLen (rest ++ packet') := by
  induction fuel generalizing receiver s frames with
  | zero => omega
  | succ fuel ih =>
    rw [Receiver.readPacket]
    cases hnext : nextFrame maxFrameLen s with
    | error len =>
      rw [@Framing.all_of_error _ _ _ (framing maxFrameLen) _ _ hnext] at hall
      cases hall
    | ok read =>
      cases read with
      | none =>
        rw [@Framing.all_of_none _ _ _ (framing maxFrameLen) _ hnext] at hall
        cases hall
        obtain ⟨next, hread, hat⟩ := h.incomplete hnext
        exact ⟨next, by rw [hread], hat⟩
      | some read =>
        obtain ⟨f, t⟩ := read
        rw [@Framing.all_of_some _ _ _ (framing maxFrameLen) _ _ _ hnext] at hall
        cases htail : (framing maxFrameLen).all t with
        | error e => simp [htail, Except.map] at hall
        | ok tail =>
          obtain ⟨rfl, rfl⟩ : f :: tail.1 = frames ∧ tail.2 = rest := by
            simpa [htail, Except.map] using hall
          obtain ⟨next, hread, hat, hlt⟩ := h.frame hnext
          have hinside := hat.inside
          obtain ⟨last, hlast, hlastAt⟩ := ih hat htail (by omega)
          exact ⟨last, by simp only [hread, hlast, Option.map_some], hlastAt⟩

theorem readPackets_framing {packets frames : List (List UInt8)}
    (hat : ∀ packet, receiver.At packet maxFrameLen (s ++ packet))
    (hfeed : (framing maxFrameLen).feed s packets = .ok (frames, rest)) :
    readPackets packets receiver = some frames := by
  induction packets generalizing receiver s frames with
  | nil =>
    cases hfeed
    rfl
  | cons packet packets ih =>
    rw [Framing.feed] at hfeed
    cases hall : (framing maxFrameLen).all (s ++ packet) with
    | error e => simp [hall, bind, Except.bind] at hfeed
    | ok first =>
      cases hmore : (framing maxFrameLen).feed first.2 packets with
      | error e => simp [hall, hmore, bind, Except.bind] at hfeed
      | ok more =>
        obtain ⟨rfl, rfl⟩ : first.1 ++ more.1 = frames ∧ more.2 = rest := by
          simpa [hall, hmore, bind, Except.bind, pure, Except.pure] using hfeed
        obtain ⟨next, hread, hnext⟩ := (hat packet).readPacket hall
          (by omega : packet.length - receiver.packetPos < packet.length + 1)
        simp [readPackets, hread, ih hnext hmore]

theorem at_withMaxFrameLen (packet : List UInt8) :
    (withMaxFrameLen maxFrameLen).At packet maxFrameLen ([] ++ packet) :=
  ⟨by simp [Ready, withMaxFrameLen, State.default], Nat.zero_le _, rfl, rfl⟩

end Receiver

/-! ## Serialised commands -/

open Command

variable {commands : List Command} {maxFrameLen : Nat}

theorem next_serialize {command : Command} (hcounted : command.Counted)
    (hmax : command.payload.length ≤ maxFrameLen) (t : List UInt8) :
    (framing maxFrameLen).next (command.serialize ++ t) = .ok (some (command.payload, t)) := by
  obtain ⟨rest, heq, hlength⟩ := command.fronted
  have hpayload : command.payload = rest := by
    rw [payload, heq, drop_left' (length_toBytes ..)]
  have hlen : ofBytes (command.serialize.take 4) = command.payload.length :=
    command.announces_iff.mpr hcounted
  rw [heq, take_left' (length_toBytes ..), hpayload] at hlen
  rw [hpayload] at hmax ⊢
  refine nextFrame_eq_some.mpr ?_
  rw [heq, append_assoc, take_left' (length_toBytes ..), drop_left' (length_toBytes ..),
    ← drop_drop, drop_left' (length_toBytes ..), hlen]
  simp
  omega

theorem all_serialize (hcounted : ∀ command ∈ commands, command.Counted)
    (hmax : ∀ command ∈ commands, command.payload.length ≤ maxFrameLen) :
    (framing maxFrameLen).all (commands.map serialize).flatten = .ok (commands.map payload, []) := by
  induction commands with
  | nil => exact Framing.all_nil
  | cons command commands ih =>
    simp only [forall_mem_cons] at hcounted hmax
    rw [map_cons, flatten_cons, Framing.all_of_some (next_serialize hcounted.1 hmax.1 _),
      ih hcounted.2 hmax.2]
    rfl

/-- The lengths are right and the frames are read back, however the bytes are cut. -/
def Wired (commands : List Command) : Prop :=
  (∀ command ∈ commands, command.Announces) ∧
    ∀ maxFrameLen, (∀ command ∈ commands, command.payload.length ≤ maxFrameLen) →
      ∀ packets : List (List UInt8), packets.flatten = (commands.map serialize).flatten →
        Receiver.readPackets packets (.withMaxFrameLen maxFrameLen) = some (commands.map payload)

theorem wired_iff (commands : List Command) :
    Wired commands ↔ ∀ command ∈ commands, command.Counted := by
  constructor
  · intro h command hmem
    exact command.announces_iff.mp (h.1 command hmem)
  · intro hcounted
    refine ⟨fun command hmem => command.announces_iff.mpr (hcounted command hmem), ?_⟩
    intro maxFrameLen hmax packets hpackets
    have hfeed : (framing maxFrameLen).feed [] packets = .ok (commands.map payload, []) := by
      simp [Framing.feed_flatten (framing maxFrameLen).next_nil, hpackets,
        all_serialize hcounted hmax]
    exact Receiver.readPackets_framing (s := []) Receiver.at_withMaxFrameLen hfeed

/-- A sender with two arguments. -/
theorem not_wired_two_args : ¬ Wired [.mailFrom [60, 62] (some [[65], [66]])] := by
  rintro ⟨hannounces, -⟩
  have h := hannounces _ (mem_singleton.mpr rfl)
  revert h
  unfold Announces
  decide

end Bearmail.Milter
