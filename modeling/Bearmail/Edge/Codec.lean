import Bearmail.Edge.Frame

/-!
# The frame codec

The decoder is a reader of frames that stand one after the other. So it does not matter how the bytes are
cut, every list of frames that can be written is read back, and what is read is what was written.
-/

namespace Bearmail.Edge

open BigEndian
open List

/-! ## Numbers -/

@[simp] theorem length_u16Bytes (n : UInt16) : (u16Bytes n).length = 2 := length_toBytes 2 _

variable (n : UInt64) (t : List UInt8)

@[simp] theorem length_u64Bytes : (u64Bytes n).length = 8 := length_toBytes 8 _

variable {p : List UInt8}

theorem exists_u16 (h : p.length = 2) : ∃ n, p = u16Bytes n := by
  have hlt := ofBytes_lt p
  rw [h] at hlt
  refine ⟨UInt16.ofNat (ofBytes p), ?_⟩
  rw [u16Bytes, UInt16.toNat_ofNat_of_lt' hlt, ← h, toBytes_ofBytes]

theorem exists_u64 (h : p.length = 8) : ∃ n, p = u64Bytes n := by
  have hlt := ofBytes_lt p
  rw [h] at hlt
  refine ⟨UInt64.ofNat (ofBytes p), ?_⟩
  rw [u64Bytes, UInt64.toNat_ofNat_of_lt' hlt, ← h, toBytes_ofBytes]

theorem exists_split {n : Nat} (h : n ≤ p.length) :
    ∃ q r, p = q ++ r ∧ q.length = n ∧ r.length = p.length - n :=
  ⟨p.take n, p.drop n, (take_append_drop n p).symm, length_take_of_le h, length_drop⟩

variable {pre bytes post payload s : List UInt8} {ty : UInt8} {frame : Frame}

theorem slice_append {start stop : Nat} (hstart : pre.length = start)
    (hstop : start + bytes.length = stop) :
    slice (pre ++ (bytes ++ post)) start stop = some bytes := by
  subst hstart hstop
  simp [slice, take_length_add_append]

theorem readU16_append {start : Nat} (n : UInt16) (h : pre.length = start) :
    readU16 (pre ++ (u16Bytes n ++ post)) start = .ok n := by
  have hbytes : ofBytes (u16Bytes n) = n.toNat := ofBytes_toBytes_of_lt n.toNat_lt
  have hslice := @slice_append pre _ post _ _ h (congrArg (start + ·) (length_u16Bytes n))
  simp [readU16, hslice, hbytes]

theorem readU64_append {start : Nat} (n : UInt64) (h : pre.length = start) :
    readU64 (pre ++ (u64Bytes n ++ post)) start = .ok n := by
  have hbytes : ofBytes (u64Bytes n) = n.toNat := ofBytes_toBytes_of_lt n.toNat_lt
  have hslice := @slice_append pre _ post _ _ h (congrArg (start + ·) (length_u64Bytes n))
  simp [readU64, hslice, hbytes]

theorem readU64_first (post : List UInt8) : readU64 (u64Bytes n ++ post) 0 = .ok n :=
  @readU64_append [] post 0 n rfl

theorem readU64_only : readU64 (u64Bytes n) 0 = .ok n := by
  simpa using readU64_first n []

theorem byte_append {i : Nat} (b : UInt8) (h : pre.length = i) : byte (pre ++ b :: post) i = b := by
  subst h
  simp [byte]

theorem OpenFailReason.fromU8_toU8 (reason : OpenFailReason) : fromU8 reason.toU8 = .ok reason := by
  cases reason <;> rfl

theorem OpenFailReason.toU8_of_fromU8 {v : UInt8} {reason : OpenFailReason}
    (h : fromU8 v = .ok reason) : reason.toU8 = v := by
  simp only [fromU8] at h
  split_ifs at h <;> cases h <;> simp [toU8, *]

theorem CloseReason.fromU8_toU8 (reason : CloseReason) : fromU8 reason.toU8 = .ok reason := by
  cases reason <;> rfl

theorem CloseReason.toU8_of_fromU8 {v : UInt8} {reason : CloseReason}
    (h : fromU8 v = .ok reason) : reason.toU8 = v := by
  simp only [fromU8] at h
  split_ifs at h <;> cases h <;> simp [toU8, *]

theorem QuotaState.fromU8_toU8 (state : QuotaState) : fromU8 state.toU8 = .ok state := by
  cases state <;> rfl

theorem QuotaState.toU8_of_fromU8 {v : UInt8} {state : QuotaState}
    (h : fromU8 v = .ok state) : state.toU8 = v := by
  simp only [fromU8] at h
  split_ifs at h <;> cases h <;> simp [toU8, *]

@[simp] theorem length_encodeMapped (addr : Ipv4Addr) : (encodeMapped addr).length = 16 := rfl

theorem encodeMapped_of_decodeMapped {addr : Ipv4Addr} (h : decodeMapped bytes = .ok addr) :
    encodeMapped addr = bytes := by
  unfold decodeMapped at h
  split at h
  · split at h
    · next hmapped =>
      obtain ⟨hzeros, rfl, rfl⟩ := hmapped
      cases h
      simp only [List.replicate, List.cons.injEq] at hzeros
      simp [encodeMapped, List.replicate, hzeros]
    · cases h
  · cases h

/-! ## Headers -/

/-- The lengths that the header check lets through. -/
def LenFor (ty : UInt8) (len : Nat) : Prop :=
  ty = tyHello ∧ len = 24 ∨ ty = tyHelloOk ∧ len = 12 ∨
    (ty = tyPing ∨ ty = tyPong ∨ ty = tyOpenOk) ∧ len = 8 ∨ ty = tyOpen ∧ len = 28 ∨
    (ty = tyOpenFail ∨ ty = tyClose ∨ ty = tyQuota) ∧ len = 9 ∨
    ty = tyData ∧ 8 ≤ len ∧ len - 8 ≤ maxDataPayload

theorem matched_of_ok {len : Nat} {matched : Bool}
    (h : (if matched then .ok () else if ty = tyData ∧ 8 ≤ len then .error .dataTooLong
      else .error .badLength : Except ProtocolError Unit) = .ok ()) : matched = true := by
  cases matched with
  | true => rfl
  | false =>
    rw [if_neg Bool.false_ne_true] at h
    split at h <;> cases h

theorem validateHeader_ok {len : Nat} : validateHeader ty len = .ok () ↔ LenFor ty len := by
  constructor
  · intro h
    unfold validateHeader at h
    by_cases hlong : maxFramePayload < len
    · rw [if_pos hlong] at h
      cases h
    rw [if_neg hlong] at h
    extract_lets outcome at h
    split at h
    · next hty => exact .inl ⟨hty, of_decide_eq_true (matched_of_ok h)⟩
    split at h
    · next hty => exact .inr (.inl ⟨hty, of_decide_eq_true (matched_of_ok h)⟩)
    split at h
    · next hty => exact .inr (.inr (.inl ⟨hty, of_decide_eq_true (matched_of_ok h)⟩))
    split at h
    · next hty => exact .inr (.inr (.inr (.inl ⟨hty, of_decide_eq_true (matched_of_ok h)⟩)))
    split at h
    · next hty => exact .inr (.inr (.inr (.inr (.inl ⟨hty, of_decide_eq_true (matched_of_ok h)⟩))))
    split at h
    · next hty => exact .inr (.inr (.inr (.inr (.inr ⟨hty, of_decide_eq_true (matched_of_ok h)⟩))))
    · cases h
  · rintro (⟨rfl, rfl⟩ | ⟨rfl, rfl⟩ | ⟨rfl | rfl | rfl, rfl⟩ | ⟨rfl, rfl⟩ | ⟨rfl | rfl | rfl, rfl⟩ |
      ⟨rfl, hle, hmax⟩)
    all_goals first | rfl | skip
    have hlong : ¬ maxFramePayload < len := by
      simp only [maxFramePayload, maxDataPayload] at hmax ⊢
      omega
    have houtcome : decide (8 ≤ len ∧ len - 8 ≤ maxDataPayload) = true := decide_eq_true ⟨hle, hmax⟩
    rw [validateHeader, if_neg hlong]
    exact if_pos houtcome
theorem lenFor_of_payload (h : frame.payload = .ok payload) : LenFor frame.ty payload.length := by
  cases frame with
  | hello =>
    cases h
    exact .inl ⟨rfl, rfl⟩
  | helloOk txBytes state year month =>
    simp only [Frame.payload] at h
    split at h
    · cases h
      exact .inr (.inl ⟨rfl, by simp⟩)
    · cases h
  | data connId body =>
    simp only [Frame.payload] at h
    split at h
    · cases h
    · next hbody =>
      cases h
      simp only [LenFor, length_append, length_u64Bytes, Frame.ty]
      exact .inr (.inr (.inr (.inr (.inr ⟨trivial, by omega, by omega⟩))))
  | _ =>
    cases h
    simp [LenFor, Frame.ty]

/-! ## Payloads -/

section Types

variable (p : List UInt8)

theorem decodePayload_helloOk : decodePayload tyHelloOk p =
    if 1 ≤ byte p 11 ∧ byte p 11 ≤ 12 then do
      let txBytes ← readU64 p 0
      let state ← QuotaState.fromU8 (byte p 8)
      let year ← readU16 p 9
      return .helloOk txBytes state year (byte p 11)
    else .error .badMonth := rfl

theorem decodePayload_ping : decodePayload tyPing p = (readU64 p 0).map .ping := rfl

theorem decodePayload_pong : decodePayload tyPong p = (readU64 p 0).map .pong := rfl

theorem decodePayload_open : decodePayload tyOpen p = do
    let connId ← readU64 p 0
    let publicPort ← readU16 p 8
    let srcPort ← readU16 p 10
    let addr ← decodeMapped ((p.take 28).drop 12)
    return .open connId publicPort srcPort addr := rfl

theorem decodePayload_openOk : decodePayload tyOpenOk p = (readU64 p 0).map .openOk := rfl

theorem decodePayload_openFail : decodePayload tyOpenFail p = do
    let connId ← readU64 p 0
    return .openFail connId (← OpenFailReason.fromU8 (byte p 8)) := rfl

theorem decodePayload_data :
    decodePayload tyData p = (readU64 p 0).map fun connId => .data connId (p.drop 8) := rfl

theorem decodePayload_close : decodePayload tyClose p = do
    let connId ← readU64 p 0
    return .close connId (← CloseReason.fromU8 (byte p 8)) := rfl

theorem decodePayload_quota : decodePayload tyQuota p = do
    let txBytes ← readU64 p 0
    return .quota txBytes (← QuotaState.fromU8 (byte p 8)) := rfl

end Types

theorem readU64_byte (b : UInt8) :
    readU64 (u64Bytes n ++ [b]) 0 = .ok n ∧ byte (u64Bytes n ++ [b]) 8 = b :=
  ⟨readU64_first n [b], byte_append b (length_u64Bytes n)⟩

theorem read_helloOk (txBytes : UInt64) (state : UInt8) (year : UInt16) (month : UInt8) :
    let p := u64Bytes txBytes ++ [state] ++ u16Bytes year ++ [month]
    readU64 p 0 = .ok txBytes ∧ byte p 8 = state ∧ readU16 p 9 = .ok year ∧ byte p 11 = month := by
  refine ⟨?_, ?_, ?_, ?_⟩
  · simpa using readU64_first txBytes ([state] ++ u16Bytes year ++ [month])
  · simpa using @byte_append (u64Bytes txBytes) (u16Bytes year ++ [month]) 8 state (by simp)
  · simpa using @readU16_append (u64Bytes txBytes ++ [state]) [month] 9 year (by simp)
  · exact byte_append month (by simp)

theorem read_open (connId : UInt64) (publicPort srcPort : UInt16) {mapped : List UInt8}
    (h : mapped.length = 16) :
    let p := u64Bytes connId ++ u16Bytes publicPort ++ u16Bytes srcPort ++ mapped
    readU64 p 0 = .ok connId ∧ readU16 p 8 = .ok publicPort ∧ readU16 p 10 = .ok srcPort ∧
      (p.take 28).drop 12 = mapped := by
  refine ⟨?_, ?_, ?_, ?_⟩
  · simpa using readU64_first connId (u16Bytes publicPort ++ u16Bytes srcPort ++ mapped)
  · simpa using @readU16_append (u64Bytes connId) (u16Bytes srcPort ++ mapped) 8 publicPort (by simp)
  · simpa using @readU16_append (u64Bytes connId ++ u16Bytes publicPort) mapped 10 srcPort (by simp)
  · rw [take_of_length_le (by simp [h])]
    exact drop_left' (by simp)

theorem decodePayload_payload (h : frame.payload = .ok payload) :
    decodePayload frame.ty payload = .ok frame := by
  cases frame with
  | hello => cases h; rfl
  | helloOk txBytes state year month =>
    simp only [Frame.payload] at h
    split at h
    · next hmonth =>
      cases h
      obtain ⟨htx, hstate, hyear, hbyte⟩ := read_helloOk txBytes state.toU8 year month
      rw [Frame.ty, decodePayload_helloOk, hbyte, if_pos hmonth, htx, hstate, hyear,
        QuotaState.fromU8_toU8]
      rfl
    · cases h
  | ping unixMs =>
    cases h
    rw [Frame.ty, decodePayload_ping, readU64_only]
    rfl
  | pong unixMs =>
    cases h
    rw [Frame.ty, decodePayload_pong, readU64_only]
    rfl
  | «open» connId publicPort srcPort addr =>
    cases h
    obtain ⟨hid, hpublic, hsrc, hmapped⟩ :=
      read_open connId publicPort srcPort (length_encodeMapped addr)
    rw [Frame.ty, decodePayload_open, hid, hpublic, hsrc]
    rfl
  | openOk connId =>
    cases h
    rw [Frame.ty, decodePayload_openOk, readU64_only]
    rfl
  | openFail connId reason =>
    cases h
    obtain ⟨hid, hreason⟩ := readU64_byte connId reason.toU8
    rw [Frame.ty, decodePayload_openFail, hid, hreason, OpenFailReason.fromU8_toU8]
    rfl
  | data connId body =>
    simp only [Frame.payload] at h
    split at h
    · cases h
    · cases h
      rw [Frame.ty, decodePayload_data, readU64_first]
      rfl
  | close connId reason =>
    cases h
    obtain ⟨hid, hreason⟩ := readU64_byte connId reason.toU8
    rw [Frame.ty, decodePayload_close, hid, hreason, CloseReason.fromU8_toU8]
    rfl
  | quota txBytes state =>
    cases h
    obtain ⟨htx, hstate⟩ := readU64_byte txBytes state.toU8
    rw [Frame.ty, decodePayload_quota, htx, hstate, QuotaState.fromU8_toU8]
    rfl

theorem exists_u64_byte (h : p.length = 9) : ∃ n b, p = u64Bytes n ++ [b] := by
  obtain ⟨q, r, rfl, hq, hr⟩ := exists_split (show 8 ≤ p.length by omega)
  obtain ⟨n, rfl⟩ := exists_u64 hq
  obtain ⟨b, rfl⟩ := length_eq_one_iff.mp (show r.length = 1 by omega)
  exact ⟨n, b, rfl⟩

theorem exists_helloOk (h : p.length = 12) :
    ∃ txBytes state year month, p = u64Bytes txBytes ++ [state] ++ u16Bytes year ++ [month] := by
  obtain ⟨q, r, rfl, hq, hr⟩ := exists_split (show 11 ≤ p.length by omega)
  obtain ⟨q', r', rfl, hq', hr'⟩ := exists_split (show 9 ≤ q.length by omega)
  obtain ⟨txBytes, state, rfl⟩ := exists_u64_byte hq'
  obtain ⟨year, rfl⟩ := exists_u16 (show r'.length = 2 by omega)
  obtain ⟨month, rfl⟩ := length_eq_one_iff.mp (show r.length = 1 by omega)
  exact ⟨txBytes, state, year, month, rfl⟩

theorem exists_open (h : p.length = 28) : ∃ connId publicPort srcPort mapped, mapped.length = 16 ∧
      p = u64Bytes connId ++ u16Bytes publicPort ++ u16Bytes srcPort ++ mapped := by
  obtain ⟨q, mapped, rfl, hq, hmapped⟩ := exists_split (show 12 ≤ p.length by omega)
  obtain ⟨q', s, rfl, hq', hs⟩ := exists_split (show 10 ≤ q.length by omega)
  obtain ⟨q'', r, rfl, hq'', hr⟩ := exists_split (show 8 ≤ q'.length by omega)
  obtain ⟨connId, rfl⟩ := exists_u64 hq''
  obtain ⟨publicPort, rfl⟩ := exists_u16 (show r.length = 2 by omega)
  obtain ⟨srcPort, rfl⟩ := exists_u16 (show s.length = 2 by omega)
  exact ⟨connId, publicPort, srcPort, mapped, by omega, rfl⟩

theorem payload_of_decodePayload (hlen : LenFor ty p.length)
    (h : decodePayload ty p = .ok frame) : frame.ty = ty ∧ frame.payload = .ok p := by
  rcases hlen with ⟨rfl, hp⟩ | ⟨rfl, hp⟩ | ⟨hty, hp⟩ | ⟨rfl, hp⟩ | ⟨hty, hp⟩ | ⟨rfl, hle, hmax⟩
  · rw [show decodePayload tyHello p =
        if p = helloPayload then .ok .hello else .error .badHello from rfl] at h
    split at h
    · next hp' => cases h; exact ⟨rfl, hp' ▸ rfl⟩
    · cases h
  · obtain ⟨txBytes, state, year, month, rfl⟩ := exists_helloOk hp
    obtain ⟨htx, hstate, hyear, hbyte⟩ := read_helloOk txBytes state year month
    rw [decodePayload_helloOk, hbyte, htx, hstate, hyear] at h
    split at h
    · next hmonth =>
      cases hread : QuotaState.fromU8 state with
      | error e => rw [hread] at h; cases h
      | ok quotaState =>
        rw [hread] at h
        cases h
        exact ⟨rfl, by simp [Frame.payload, hmonth, QuotaState.toU8_of_fromU8 hread]⟩
    · cases h
  · obtain ⟨n, rfl⟩ := exists_u64 hp
    rcases hty with rfl | rfl | rfl
    · rw [decodePayload_ping, readU64_only] at h
      cases h
      exact ⟨rfl, rfl⟩
    · rw [decodePayload_pong, readU64_only] at h
      cases h
      exact ⟨rfl, rfl⟩
    · rw [decodePayload_openOk, readU64_only] at h
      cases h
      exact ⟨rfl, rfl⟩
  · obtain ⟨connId, publicPort, srcPort, mapped, hmapped, rfl⟩ := exists_open hp
    obtain ⟨hid, hpublic, hsrc, hread⟩ := read_open connId publicPort srcPort hmapped
    rw [decodePayload_open, hid, hpublic, hsrc, hread] at h
    cases haddr : decodeMapped mapped with
    | error e => rw [haddr] at h; cases h
    | ok addr =>
      rw [haddr] at h
      cases h
      exact ⟨rfl, by rw [Frame.payload, encodeMapped_of_decodeMapped haddr]⟩
  · obtain ⟨n, b, rfl⟩ := exists_u64_byte hp
    obtain ⟨hn, hb⟩ := readU64_byte n b
    rcases hty with rfl | rfl | rfl
    · rw [decodePayload_openFail, hn, hb] at h
      cases hread : OpenFailReason.fromU8 b with
      | error e => rw [hread] at h; cases h
      | ok reason =>
        rw [hread] at h
        cases h
        exact ⟨rfl, by rw [Frame.payload, OpenFailReason.toU8_of_fromU8 hread]⟩
    · rw [decodePayload_close, hn, hb] at h
      cases hread : CloseReason.fromU8 b with
      | error e => rw [hread] at h; cases h
      | ok reason =>
        rw [hread] at h
        cases h
        exact ⟨rfl, by rw [Frame.payload, CloseReason.toU8_of_fromU8 hread]⟩
    · rw [decodePayload_quota, hn, hb] at h
      cases hread : QuotaState.fromU8 b with
      | error e => rw [hread] at h; cases h
      | ok state =>
        rw [hread] at h
        cases h
        exact ⟨rfl, by rw [Frame.payload, QuotaState.toU8_of_fromU8 hread]⟩
  · obtain ⟨q, body, rfl, hq, hbody⟩ := exists_split hle
    obtain ⟨connId, rfl⟩ := exists_u64 hq
    rw [decodePayload_data, readU64_first, drop_left' (length_u64Bytes connId)] at h
    cases h
    exact ⟨rfl, if_neg (by omega)⟩

/-! ## Frames -/

/-- The first frame of a string and what follows it. None when the frame is not complete. -/
def nextFrame (s : List UInt8) : Except ProtocolError (Option (Frame × List UInt8)) :=
  if s.length < header then .ok none
  else
    match validateHeader (byte s 0) (headerLen s) with
    | .error e => .error e
    | .ok () =>
      if s.length < header + headerLen s then .ok none
      else
        match decodePayload (byte s 0) ((s.take (header + headerLen s)).drop header) with
        | .error e => .error e
        | .ok frame => .ok (some (frame, s.drop (header + headerLen s)))

theorem byte_zero_append (h : header ≤ s.length) : byte (s ++ t) 0 = byte s 0 := by
  cases s with
  | nil => simp [header] at h
  | cons b s => rfl

theorem headerLen_append (h : header ≤ s.length) : headerLen (s ++ t) = headerLen s := by
  rw [headerLen, headerLen, take_append_of_le_length (show 5 ≤ s.length from h)]

theorem nextFrame_of_invalid {e : ProtocolError} (h : header ≤ s.length)
    (hinvalid : validateHeader (byte s 0) (headerLen s) = .error e) : nextFrame s = .error e := by
  rw [nextFrame, if_neg (by omega)]
  simp [hinvalid]

theorem nextFrame_of_short (h : header ≤ s.length)
    (hvalid : validateHeader (byte s 0) (headerLen s) = .ok ())
    (hshort : s.length < header + headerLen s) : nextFrame s = .ok none := by
  rw [nextFrame, if_neg (by omega)]
  simp [hvalid, if_pos hshort]

theorem nextFrame_of_complete (h : header ≤ s.length)
    (hvalid : validateHeader (byte s 0) (headerLen s) = .ok ())
    (hcomplete : header + headerLen s ≤ s.length) :
    nextFrame s =
      (decodePayload (byte s 0) ((s.take (header + headerLen s)).drop header)).map fun frame =>
        some (frame, s.drop (header + headerLen s)) := by
  rw [nextFrame, if_neg (by omega)]
  simp only [hvalid, if_neg (show ¬ s.length < header + headerLen s by omega)]
  cases decodePayload (byte s 0) ((s.take (header + headerLen s)).drop header) <;> rfl

theorem nextFrame_append (h : nextFrame s ≠ .ok none) : nextFrame (s ++ t) =
      (nextFrame s).map (Option.map fun (frame, rest) => (frame, rest ++ t)) := by
  by_cases hheader : s.length < header
  · exact absurd (by rw [nextFrame, if_pos hheader]) h
  have hle : header ≤ s.length := by omega
  have hle' : header ≤ (s ++ t).length := by rw [length_append]; omega
  have hbyte := byte_zero_append t hle
  have hlen := headerLen_append t hle
  cases hvalid : validateHeader (byte s 0) (headerLen s) with
  | error e =>
    rw [nextFrame_of_invalid hle hvalid, nextFrame_of_invalid hle' (by rw [hbyte, hlen, hvalid])]
    rfl
  | ok _ =>
    by_cases hshort : s.length < header + headerLen s
    · exact absurd (nextFrame_of_short hle hvalid hshort) h
    have hcomplete : header + headerLen s ≤ s.length := by omega
    have hcomplete' : header + headerLen (s ++ t) ≤ (s ++ t).length := by
      rw [length_append]; omega
    rw [nextFrame_of_complete hle hvalid hcomplete,
      nextFrame_of_complete hle' (by rw [hbyte, hlen, hvalid]) hcomplete', hbyte, hlen,
      take_append_of_le_length hcomplete, drop_append_of_le_length hcomplete]
    cases decodePayload (byte s 0) ((s.take (header + headerLen s)).drop header) <;> rfl

theorem nextFrame_some {rest : List UInt8} (h : nextFrame s = .ok (some (frame, rest))) :
    header + headerLen s ≤ s.length ∧ LenFor (byte s 0) (headerLen s) ∧
      decodePayload (byte s 0) ((s.take (header + headerLen s)).drop header) = .ok frame ∧
      rest = s.drop (header + headerLen s) := by
  simp only [nextFrame] at h
  split at h
  · cases h
  split at h
  · cases h
  · next hvalid =>
    split at h
    · cases h
    split at h
    · cases h
    · next hdecode =>
      cases h
      exact ⟨by omega, validateHeader_ok.mp hvalid, hdecode, rfl⟩

def framing : Framing UInt8 Frame ProtocolError where
  next := nextFrame
  shrinks := by
    intro s frame rest h
    obtain ⟨hle, -, -, rfl⟩ := nextFrame_some h
    simp only [header, List.length_drop] at hle ⊢
    omega
  stable := by
    intro s frame rest t h
    rw [nextFrame_append t (by simp [h]), h]
    rfl
  stable_error := by
    intro s e t h
    rw [nextFrame_append t (by simp [h]), h]
    rfl
  next_nil := rfl

/-! ## Writing and reading -/

def rawFrame (ty : UInt8) (payload : List UInt8) : List UInt8 :=
  ty :: toBytes 4 payload.length ++ payload

theorem length_rawFrame (ty : UInt8) (payload : List UInt8) :
    (rawFrame ty payload).length = header + payload.length := by
  simp only [rawFrame, cons_append, length_cons, length_append, length_toBytes, header]
  omega

theorem headerLen_rawFrame {ty : UInt8} {payload : List UInt8} (t : List UInt8)
    (h : payload.length < 256 ^ 4) : headerLen (rawFrame ty payload ++ t) = payload.length := by
  have htake : ((rawFrame ty payload ++ t).take 5).drop 1 = toBytes 4 payload.length := by
    simp [rawFrame]
  rw [headerLen, htake, ofBytes_toBytes_of_lt h]

/-- A string with at least the bytes that its header asks for starts with a header and its payload. -/
theorem exists_rawFrame (h : header + headerLen s ≤ s.length) :
    ∃ ty payload t, s = rawFrame ty payload ++ t ∧ payload.length < 256 ^ 4 := by
  obtain ⟨q, tail, rfl, hq, htail⟩ := exists_split (show 5 ≤ s.length by simp only [header] at h; omega)
  obtain ⟨ty, l, rfl⟩ := exists_cons_of_length_eq_add_one hq
  have hl : l.length = 4 := by simpa using hq
  have htake : ((ty :: l ++ tail).take 5).drop 1 = l := by simp [hl]
  have hheader : headerLen (ty :: l ++ tail) = ofBytes l := by rw [headerLen, htake]
  obtain ⟨payload, t, rfl, hpayload, -⟩ := exists_split (show ofBytes l ≤ tail.length by
    simp only [header, length_append, length_cons] at h htail
    omega)
  refine ⟨ty, payload, t, ?_, ?_⟩
  · have hbytes : toBytes 4 payload.length = l := by rw [hpayload, ← hl, toBytes_ofBytes]
    rw [rawFrame, hbytes]
    simp
  · rw [hpayload, ← hl]
    exact ofBytes_lt l

theorem nextFrame_rawFrame (hlt : payload.length < 256 ^ 4) (hlen : LenFor ty payload.length) :
    nextFrame (rawFrame ty payload ++ t) =
      (decodePayload ty payload).map fun frame => some (frame, t) := by
  have hbyte : byte (rawFrame ty payload ++ t) 0 = ty := rfl
  have hheader := @headerLen_rawFrame ty payload t hlt
  have hlength := length_rawFrame ty payload
  have htake : ((rawFrame ty payload ++ t).take (header + payload.length)).drop header = payload := by
    have hhead : (ty :: toBytes 4 payload.length).length = header := by simp [header]
    rw [take_left' hlength, rawFrame, drop_left' hhead]
  rw [nextFrame_of_complete, hbyte, hheader, htake, drop_left' hlength]
  · simp only [length_append, hlength]; omega
  · rw [hheader]; exact validateHeader_ok.mpr hlen
  · simp only [hheader, length_append, hlength]; omega

theorem encode_eq_ok : frame.encode = .ok bytes ↔
      ∃ payload, frame.payload = .ok payload ∧ rawFrame frame.ty payload = bytes := by
  cases hpayload : frame.payload <;>
    simp [Frame.encode, hpayload, bind, Except.bind, pure, Except.pure, rawFrame]

theorem next_encode (frame : Frame) (bytes t : List UInt8) (h : frame.encode = .ok bytes) :
    framing.next (bytes ++ t) = .ok (some (frame, t)) := by
  obtain ⟨payload, hpayload, rfl⟩ := encode_eq_ok.mp h
  have hlen := lenFor_of_payload hpayload
  have hlt : payload.length < 256 ^ 4 := by
    simp only [LenFor, maxDataPayload] at hlen
    omega
  have hnext := nextFrame_rawFrame t hlt hlen
  rwa [decodePayload_payload hpayload] at hnext

theorem encode_next (s : List UInt8) (frame : Frame) (rest : List UInt8)
    (h : framing.next s = .ok (some (frame, rest))) :
    ∃ bytes, frame.encode = .ok bytes ∧ s = bytes ++ rest := by
  obtain ⟨hle, hlen, -, -⟩ := nextFrame_some h
  obtain ⟨ty, payload, t, rfl, hlt⟩ := exists_rawFrame hle
  replace hlen : LenFor ty payload.length := @headerLen_rawFrame ty payload t hlt ▸ hlen
  have hnext : nextFrame (rawFrame ty payload ++ t) = .ok (some (frame, rest)) := h
  rw [nextFrame_rawFrame t hlt hlen] at hnext
  cases hdecode : decodePayload ty payload with
  | error e => simp [hdecode, Except.map] at hnext
  | ok frame' =>
    obtain ⟨rfl, rfl⟩ : frame' = frame ∧ t = rest := by simpa [hdecode, Except.map] using hnext
    obtain ⟨rfl, hpayload⟩ := payload_of_decodePayload hlen hdecode
    exact ⟨_, encode_eq_ok.mpr ⟨payload, hpayload, rfl⟩, rfl⟩

/-! ## The decoder -/

section Filled

variable {buf input buf' input' : List UInt8} (hfill : fill header buf input = some (buf', input'))
include hfill

theorem filled_header : byte (buf ++ input) 0 = byte buf' 0 ∧ headerLen (buf ++ input) = headerLen buf' ∧
      header ≤ (buf ++ input).length := by
  obtain ⟨happend, hle⟩ := fill_append hfill
  rw [← happend]
  refine ⟨byte_zero_append input' hle, headerLen_append input' hle, ?_⟩
  rw [length_append]
  omega

theorem next_of_invalid {e : ProtocolError}
    (hinvalid : validateHeader (byte buf' 0) (headerLen buf') = .error e) :
    framing.next (buf ++ input) = .error e := by
  obtain ⟨hbyte, hlen, hle⟩ := filled_header hfill
  exact nextFrame_of_invalid hle (by rw [hbyte, hlen, hinvalid])

variable (hvalid : validateHeader (byte buf' 0) (headerLen buf') = .ok ())
include hvalid

theorem next_of_short (hshort : fill (header + headerLen buf') buf' input' = none) :
    framing.next (buf ++ input) = .ok none := by
  obtain ⟨hbyte, hlen, hle⟩ := filled_header hfill
  refine nextFrame_of_short hle (by rw [hbyte, hlen, hvalid]) ?_
  rw [hlen, ← (fill_append hfill).1]
  exact fill_none hshort

theorem next_of_complete {buf'' input'' : List UInt8}
    (hcomplete : fill (header + headerLen buf') buf' input' = some (buf'', input'')) :
    framing.next (buf ++ input) =
      (decodePayload (byte buf'' 0) ((buf''.take (header + headerLen buf')).drop header)).map
        fun frame => some (frame, buf''.drop (header + headerLen buf') ++ input'') := by
  obtain ⟨hbyte, hlen, hle⟩ := filled_header hfill
  obtain ⟨happend, htotal⟩ := fill_append hcomplete
  rw [(fill_append hfill).1] at happend
  have hbyte' : byte (buf ++ input) 0 = byte buf'' 0 := by
    rw [← happend]
    exact byte_zero_append input'' (by omega)
  have hlength : header + headerLen (buf ++ input) ≤ (buf ++ input).length := by
    rw [hlen, ← happend, length_append]
    omega
  rw [show framing.next = nextFrame from rfl,
    nextFrame_of_complete hle (by rw [hbyte, hlen, hvalid]) hlength, hlen, hbyte', ← happend,
    take_append_of_le_length htotal, drop_append_of_le_length htotal]

end Filled

theorem pushLoop_eq (buf input : List UInt8) (out : List Frame) : Decoder.pushLoop buf input out =
      (framing.all (buf ++ input)).map fun (frames, rest) => (out ++ frames, ⟨rest⟩) := by
  fun_induction Decoder.pushLoop buf input out with
  | case1 buf input out hfill =>
    have hnext : framing.next (buf ++ input) = .ok none := if_pos (fill_none hfill)
    simp [Framing.all_of_none hnext, Except.map]
  | case2 buf input out buf' input' hfill e hinvalid =>
    rw [Framing.all_of_error (next_of_invalid hfill hinvalid)]
    rfl
  | case3 buf input out buf' input' hfill hvalid total hshort =>
    rw [Framing.all_of_none (next_of_short hfill hvalid hshort), (fill_append hfill).1]
    simp [Except.map]
  | case4 buf input out buf' input' hfill hvalid total buf'' input'' hcomplete e hdecode =>
    have hnext := next_of_complete hfill hvalid hcomplete
    rw [hdecode] at hnext
    rw [Framing.all_of_error hnext]
    rfl
  | case5 buf input out buf' input' hfill hvalid total buf'' input'' hcomplete frame hdecode hend =>
    have hnext := next_of_complete hfill hvalid hcomplete
    rw [hdecode, hend.2, show buf''.drop (header + headerLen buf') = [] from hend.1] at hnext
    rw [Framing.all_of_some hnext, nil_append, Framing.all_nil, hend.1]
    rfl
  | case6 buf input out buf' input' hfill hvalid total buf'' input'' hcomplete frame hdecode hend ih =>
    have hnext := next_of_complete hfill hvalid hcomplete
    rw [hdecode] at hnext
    rw [Framing.all_of_some hnext, ih]
    cases framing.all (buf''.drop total ++ input'') with
    | error e => rfl
    | ok read => simp [Except.map]

theorem push_eq (decoder : Decoder) (input : List UInt8) : decoder.push input =
      (framing.all (decoder.buf ++ input)).map fun (frames, rest) => (frames, ⟨rest⟩) := by
  rw [Decoder.push, pushLoop_eq]
  rfl

theorem pushAll_eq (decoder : Decoder) (inputs : List (List UInt8)) : decoder.pushAll inputs =
      (framing.feed decoder.buf inputs).map fun (frames, rest) => (frames, ⟨rest⟩) := by
  induction inputs generalizing decoder with
  | nil => rfl
  | cons input inputs ih =>
    rw [Decoder.pushAll, push_eq, Framing.feed]
    cases framing.all (decoder.buf ++ input) with
    | error e => rfl
    | ok read =>
      simp only [Except.map, bind, Except.bind, ih]
      cases framing.feed read.2 inputs <;> rfl

theorem push_eq_ok {input : List UInt8} {frames : List Frame} {decoder : Decoder} :
    Decoder.new.push input = .ok (frames, decoder) ↔ framing.all input = .ok (frames, decoder.buf) := by
  have hpush := push_eq Decoder.new input
  rw [show Decoder.new.buf ++ input = input from rfl] at hpush
  rw [hpush]
  cases framing.all input with
  | error e => simp [Except.map]
  | ok read => simp [Except.map, Prod.ext_iff, Decoder.ext_iff]

/-! ## What is left -/

/-- The header of what is left, when it is there, asks for more bytes than there are. -/
def Incomplete (buf : List UInt8) : Prop :=
  buf.length < header ∨ LenFor (byte buf 0) (headerLen buf) ∧ buf.length < header + headerLen buf

theorem incomplete_of_next {buf : List UInt8} (h : framing.next buf = .ok none) : Incomplete buf := by
  have hnext : nextFrame buf = .ok none := h
  simp only [nextFrame] at hnext
  split at hnext
  · next hshort => exact .inl hshort
  split at hnext
  · cases hnext
  · next hvalid =>
    split at hnext
    · next hshort => exact .inr ⟨validateHeader_ok.mp hvalid, hshort⟩
    split at hnext <;> cases hnext

theorem Incomplete.length_lt {buf : List UInt8} (h : Incomplete buf) :
    buf.length < header + (8 + maxDataPayload) := by
  rcases h with hshort | ⟨hlen, hshort⟩
  · omega
  · simp only [LenFor, maxDataPayload] at hlen ⊢
    omega

/-- The frame codec: cutting, reading back, writing back, and what is left. -/
theorem codec_faithful :
    (∀ bytes inputs, inputs.flatten = bytes → Decoder.new.pushAll inputs = Decoder.new.push bytes) ∧
    (∀ frames encodings, frames.mapM Frame.encode = .ok encodings →
      ∃ decoder, Decoder.new.push encodings.flatten = .ok (frames, decoder) ∧
        decoder.finish = .ok ()) ∧
    (∀ bytes frames decoder, Decoder.new.push bytes = .ok (frames, decoder) →
      ∃ encodings, frames.mapM Frame.encode = .ok encodings ∧
        bytes = encodings.flatten ++ decoder.buf) ∧
    (∀ bytes frames decoder, Decoder.new.push bytes = .ok (frames, decoder) →
      Incomplete decoder.buf ∧
        (∀ frame encoding, Frame.encode frame = .ok encoding → ¬ encoding <+: decoder.buf) ∧
        decoder.buf.length < header + (8 + maxDataPayload)) := by
  refine ⟨?_, ?_, ?_, ?_⟩
  · rintro _ inputs rfl
    have hnew : framing.next Decoder.new.buf = .ok none := framing.next_nil
    rw [pushAll_eq, push_eq, Framing.feed_flatten hnew]
  · intro frames encodings h
    exact ⟨Decoder.new, push_eq_ok.mpr (Framing.all_written next_encode h), rfl⟩
  · intro bytes frames decoder h
    exact Framing.written_of_all encode_next (push_eq_ok.mp h)
  · intro bytes frames decoder h
    have hnext := Framing.next_rest (push_eq_ok.mp h)
    refine ⟨incomplete_of_next hnext, ?_, (incomplete_of_next hnext).length_lt⟩
    rintro frame encoding hencode ⟨t, ht⟩
    rw [← ht, next_encode frame encoding t hencode] at hnext
    cases hnext

theorem codec_faithful_ping :
    ∃ bytes decoder, (Frame.ping 9).encode = .ok bytes ∧
      Decoder.new.pushAll [bytes.take 3, bytes.drop 3] = .ok ([.ping 9], decoder) ∧
      decoder.finish = .ok () ∧ decoder.buf.length < header + (8 + maxDataPayload) ∧
      ∃ encodings, [Frame.ping 9].mapM Frame.encode = .ok encodings ∧
        bytes = encodings.flatten ++ decoder.buf := by
  obtain ⟨hcut, hread, hwrite, hleft⟩ := codec_faithful
  obtain ⟨decoder, hpush, hfinish⟩ := hread [.ping 9] [[3, 0, 0, 0, 8, 0, 0, 0, 0, 0, 0, 0, 9]] rfl
  refine ⟨[3, 0, 0, 0, 8, 0, 0, 0, 0, 0, 0, 0, 9], decoder, rfl, ?_, hfinish,
    (hleft _ _ _ hpush).2.2, hwrite _ _ _ hpush⟩
  rw [hcut [3, 0, 0, 0, 8, 0, 0, 0, 0, 0, 0, 0, 9] _ rfl]
  exact hpush

end Bearmail.Edge
