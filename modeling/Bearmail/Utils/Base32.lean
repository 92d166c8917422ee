import Mathlib.Tactic.IntervalCases

/-!
# Base32

`Base32Writer` and `Base32Reader` of `utils/src/codec/base32_custom.rs`. A character has five bits. Between two
bytes the reader is a character ahead of the writer, unless a group of five bytes has ended.
-/

namespace Bearmail.Utils

open List

def base32Alphabet (i : UInt8) : UInt8 :=
  ((range 26).map fun i => UInt8.ofNat (97 + i)) ++ [55, 57, 50, 48, 49, 51] |>.getD i.toNat 0

def base32Inverse (ch : UInt8) : UInt8 :=
  if 97 ≤ ch ∧ ch ≤ 122 then ch - 97
  else if 75 ≤ ch ∧ ch ≤ 90 then ch - 65
  else if ch = 55 then 26
  else if ch = 57 then 27
  else if ch = 50 then 28
  else if ch = 48 then 29
  else if ch = 49 then 30
  else if ch = 51 then 31
  else 255

structure Base32Writer where
  lastByte : UInt8
  pos : Nat
  result : List UInt8

namespace Base32Writer

def new : Base32Writer := ⟨0, 0, []⟩

/-- The characters that a byte completes, at a place in its group; 255 is none. -/
def chars (lastByte byte : UInt8) : Nat → UInt8 × UInt8
  | 0 => ((byte &&& 0xF8) >>> 3, 255)
  | 1 => (((lastByte &&& 0x07) <<< 2) ||| ((byte &&& 0xC0) >>> 6), (byte &&& 0x3E) >>> 1)
  | 2 => (((lastByte &&& 0x01) <<< 4) ||| ((byte &&& 0xF0) >>> 4), 255)
  | 3 => (((lastByte &&& 0x0F) <<< 1) ||| (byte >>> 7), (byte &&& 0x7C) >>> 2)
  | _ => (((lastByte &&& 0x03) <<< 3) ||| ((byte &&& 0xE0) >>> 5), byte &&& 0x1F)

def pushByte (w : Base32Writer) (byte : UInt8) (isRemainder : Bool) : Base32Writer :=
  let (ch1, ch2) := chars w.lastByte byte (w.pos % 5)
  let result := w.result ++ [base32Alphabet ch1]
  if isRemainder then { w with result := result }
  else ⟨byte, w.pos + 1, if ch2 ≠ 255 then result ++ [base32Alphabet ch2] else result⟩

def write (w : Base32Writer) (bytes : List UInt8) : Base32Writer :=
  bytes.foldl (fun w byte => w.pushByte byte false) w

def finalize (w : Base32Writer) : List UInt8 :=
  (if w.pos % 5 = 0 then w else w.pushByte 0 true).result

end Base32Writer

structure Base32Reader where
  bytes : List UInt8
  lastByte : UInt8
  pos : Nat

namespace Base32Reader

def new (bytes : List UInt8) : Base32Reader := ⟨bytes, 0, 0⟩

def mapByte (r : Base32Reader) : Option UInt8 × Base32Reader :=
  match r.bytes with
  | [] => (none, r)
  | byte :: bytes =>
    if base32Inverse byte ≠ 255 then (some (base32Inverse byte), ⟨bytes, base32Inverse byte, r.pos⟩)
    else (none, { r with bytes := bytes })

def next (r : Base32Reader) : Option UInt8 × Base32Reader :=
  match r.mapByte with
  | (none, r') => (none, r')
  | (some byte, r') =>
    let r' := { r' with pos := r.pos + 1 }
    let second : UInt8 := r'.mapByte.1.getD 0
    match r.pos % 5 with
    | 0 => (some ((byte <<< 3) ||| (second >>> 2)), r'.mapByte.2)
    | 1 => (some ((r.lastByte <<< 6) ||| (byte <<< 1) ||| (second >>> 4)), r'.mapByte.2)
    | 2 => (some ((r.lastByte <<< 4) ||| (byte >>> 1)), r')
    | 3 => (some ((r.lastByte <<< 7) ||| (byte <<< 2) ||| (second >>> 3)), r'.mapByte.2)
    | _ => (some ((r.lastByte <<< 5) ||| byte), r')

def Yields (r : Base32Reader) : List UInt8 → Prop
  | [] => r.next.1 = none
  | byte :: bytes => ∃ r', r.next = (some byte, r') ∧ r'.Yields bytes

end Base32Reader

/-! ## Texts read back -/

open Base32Writer Base32Reader

def text (lastByte : UInt8) (pos : Nat) : List UInt8 → List UInt8
  | [] => if pos % 5 = 0 then [] else [base32Alphabet (chars lastByte 0 (pos % 5)).1]
  | byte :: bytes =>
    base32Alphabet (chars lastByte byte (pos % 5)).1 ::
      (if (chars lastByte byte (pos % 5)).2 ≠ 255 then [base32Alphabet (chars lastByte byte (pos % 5)).2] else []) ++
      text byte (pos + 1) bytes

theorem finalize_write (w : Base32Writer) (bytes : List UInt8) :
    (w.write bytes).finalize = w.result ++ text w.lastByte w.pos bytes := by
  induction bytes generalizing w with
  | nil =>
    rw [write, foldl_nil, finalize, text]
    split <;> simp [pushByte]
  | cons byte bytes ih =>
    rw [write, foldl_cons, ← write, ih, text]
    simp only [pushByte, Bool.false_eq_true, if_false]
    split <;> simp

theorem inverse_alphabet {c : UInt8} (h : c.toNat < 32) : base32Inverse (base32Alphabet c) = c ∧ c ≠ 255 := by
  have hall : ∀ i < 32, base32Inverse (base32Alphabet (UInt8.ofNat i)) = UInt8.ofNat i ∧ UInt8.ofNat i ≠ 255 := by
    decide
  simpa using hall c.toNat h

theorem toNat_lt {c : UInt8} (h : c &&& 0x1F = c) : c.toNat < 32 := by
  have hand := congrArg UInt8.toNat h
  have hle : c.toNat &&& 31 ≤ 31 := Nat.and_le_right
  rw [UInt8.toNat_and] at hand
  exact Nat.lt_succ_of_le (hand ▸ hle)

theorem chars_fst (lastByte byte : UInt8) (place : Nat) :
    (chars lastByte byte place).1 &&& 0x1F = (chars lastByte byte place).1 := by
  simp only [chars]
  split <;> apply UInt8.toBitVec_inj.mp <;> ext i hi <;> interval_cases i <;> simp

theorem chars_snd (lastByte byte : UInt8) {place : Nat} (hzero : place ≠ 0) (htwo : place ≠ 2) :
    (chars lastByte byte place).2 &&& 0x1F = (chars lastByte byte place).2 := by
  unfold chars
  split
  · exact absurd rfl hzero
  · apply UInt8.toBitVec_inj.mp
    ext i hi
    interval_cases i <;> simp
  · exact absurd rfl htwo
  all_goals
    apply UInt8.toBitVec_inj.mp
    ext i hi
    interval_cases i <;> simp

/-- The bits of a byte are those of its characters and of the first one of the next byte. -/
theorem joined (lastByte byte more : UInt8) :
    (chars lastByte byte 0).1 <<< 3 ||| (chars byte more 1).1 >>> 2 = byte ∧
      (chars lastByte byte 1).1 <<< 6 ||| (chars lastByte byte 1).2 <<< 1 ||| (chars byte more 2).1 >>> 4 = byte ∧
      (chars lastByte byte 2).1 <<< 4 ||| (chars byte more 3).1 >>> 1 = byte ∧
      (chars lastByte byte 3).1 <<< 7 ||| (chars lastByte byte 3).2 <<< 2 ||| (chars byte more 4).1 >>> 3 = byte ∧
      (chars lastByte byte 4).1 <<< 5 ||| (chars lastByte byte 4).2 = byte := by
  simp only [chars]
  refine ⟨?_, ?_, ?_, ?_, ?_⟩ <;> apply UInt8.toBitVec_inj.mp <;> ext i hi <;> interval_cases i <;> simp

theorem mapByte_alphabet {c : UInt8} (h : c &&& 0x1F = c) (bytes : List UInt8) (lastByte : UInt8) (pos : Nat) :
    mapByte ⟨base32Alphabet c :: bytes, lastByte, pos⟩ = (some c, ⟨bytes, c, pos⟩) := by
  obtain ⟨hinverse, hne⟩ := inverse_alphabet (toNat_lt h)
  simp [mapByte, hinverse, hne]

/-- A text in the middle of a group starts with a character for the next byte, if there is one. -/
theorem exists_text {pos : Nat} (h : pos % 5 ≠ 0) (lastByte : UInt8) (bytes : List UInt8) :
    ∃ rest, text lastByte pos bytes =
      base32Alphabet (chars lastByte (bytes.head?.getD 0) (pos % 5)).1 :: rest := by
  cases bytes with
  | nil => exact ⟨[], by simp [text, h]⟩
  | cons byte bytes => exact ⟨_, rfl⟩

/-- The reader stands where a writer goes on, or a character behind it within a group. -/
def Ahead (r : Base32Reader) (lastByte : UInt8) (bytes : List UInt8) : Prop :=
  if r.pos % 5 = 0 then r.bytes = text lastByte r.pos bytes
  else text lastByte r.pos bytes = base32Alphabet r.lastByte :: r.bytes ∧
    r.lastByte = (chars lastByte (bytes.head?.getD 0) (r.pos % 5)).1

theorem Ahead.next {r : Base32Reader} {lastByte byte : UInt8} {bytes : List UInt8}
    (h : Ahead r lastByte (byte :: bytes)) : ∃ r', r.next = (some byte, r') ∧ Ahead r' byte bytes := by
  obtain ⟨chs, last, pos⟩ := r
  obtain ⟨hzero, hone, htwo, hthree, hfour⟩ := joined lastByte byte (bytes.head?.getD 0)
  have hnext : (pos + 1) % 5 = (pos % 5 + 1) % 5 := by omega
  have hrest : pos % 5 ≠ 4 → ∃ rest, text byte (pos + 1) bytes =
      base32Alphabet (chars byte (bytes.head?.getD 0) ((pos % 5 + 1) % 5)).1 :: rest := fun hne =>
    hnext ▸ exists_text (show (pos + 1) % 5 ≠ 0 by omega) byte bytes
  have hsnd {place : Nat} (hplace : place ≠ 0) (hother : place ≠ 2) :=
    inverse_alphabet (toNat_lt (chars_snd lastByte byte hplace hother))
  obtain hpos | hpos | hpos | hpos | hpos :
      pos % 5 = 0 ∨ pos % 5 = 1 ∨ pos % 5 = 2 ∨ pos % 5 = 3 ∨ pos % 5 = 4 := by omega
  all_goals
    rw [hpos] at hnext hrest
    simp only [Ahead, text, hpos] at h
  · obtain ⟨rest, hrest⟩ := hrest (by decide)
    rw [hrest] at h
    obtain rfl : chs = base32Alphabet (chars lastByte byte 0).1 :: base32Alphabet _ :: rest := h
    refine ⟨⟨rest, (chars byte (bytes.head?.getD 0) 1).1, pos + 1⟩, ?_, ?_⟩
    · simpa [Base32Reader.next, mapByte_alphabet, chars_fst, hpos] using hzero
    · simp [Ahead, hnext, hrest]
  · obtain ⟨rest, hrest⟩ := hrest (by decide)
    obtain ⟨⟨-, rfl⟩, rfl⟩ := by simpa [hrest, hsnd] using h
    refine ⟨⟨rest, (chars byte (bytes.head?.getD 0) 2).1, pos + 1⟩, ?_, ?_⟩
    · simpa [Base32Reader.next, mapByte_alphabet, chars_fst, chars_snd, hpos] using hone
    · simp [Ahead, hnext, hrest]
  · obtain ⟨rest, hrest⟩ := hrest (by decide)
    have hnone : (chars lastByte byte 2).2 = 255 := rfl
    obtain ⟨⟨-, rfl⟩, rfl⟩ := by simpa [hrest, hnone] using h
    refine ⟨⟨rest, (chars byte (bytes.head?.getD 0) 3).1, pos + 1⟩, ?_, ?_⟩
    · simpa [Base32Reader.next, mapByte_alphabet, chars_fst, hpos] using htwo
    · simp [Ahead, hnext, hrest]
  · obtain ⟨rest, hrest⟩ := hrest (by decide)
    obtain ⟨⟨-, rfl⟩, rfl⟩ := by simpa [hrest, hsnd] using h
    refine ⟨⟨rest, (chars byte (bytes.head?.getD 0) 4).1, pos + 1⟩, ?_, ?_⟩
    · simpa [Base32Reader.next, mapByte_alphabet, chars_fst, chars_snd, hpos] using hthree
    · simp [Ahead, hnext, hrest]
  · obtain ⟨⟨-, rfl⟩, rfl⟩ := by simpa [hsnd] using h
    refine ⟨⟨text byte (pos + 1) bytes, (chars lastByte byte 4).2, pos + 1⟩, ?_, ?_⟩
    · simpa [Base32Reader.next, mapByte_alphabet, chars_snd, hpos] using hfour
    · simp [Ahead, hnext]

theorem yields_of_ahead {r : Base32Reader} {lastByte : UInt8} {bytes : List UInt8} (h : Ahead r lastByte bytes) :
    r.Yields bytes := by
  induction bytes generalizing r lastByte with
  | nil =>
    have hend : r.bytes = [] := by
      rw [Ahead] at h
      split at h
      · simp [text, *]
      · simpa [text, *] using h.1
    simp [Yields, Base32Reader.next, mapByte, hend]
  | cons byte bytes ih =>
    obtain ⟨r', hnext, h'⟩ := h.next
    exact ⟨r', hnext, ih h'⟩

theorem foldl_write (w : Base32Writer) (chunks : List (List UInt8)) :
    chunks.foldl write w = w.write chunks.flatten := by
  induction chunks generalizing w with
  | nil => rfl
  | cons chunk chunks ih => rw [foldl_cons, ih, flatten_cons, write, write, write, foldl_append]

/-- The bytes that a reader gives, from a number of characters. -/
def collect : Nat → Base32Reader → List UInt8
  | 0, _ => []
  | count + 1, r =>
    match r.next with
    | (none, _) => []
    | (some byte, r') => byte :: collect count r'

def base32 (bytes : List UInt8) : List UInt8 := (Base32Writer.new.write bytes).finalize

def unbase32 (chs : List UInt8) : List UInt8 := collect chs.length (.new chs)

theorem length_text (lastByte : UInt8) (pos : Nat) (bytes : List UInt8) : bytes.length ≤ (text lastByte pos bytes).length := by
  induction bytes generalizing lastByte pos with
  | nil => exact Nat.zero_le _
  | cons byte bytes ih =>
    have hle := ih byte (pos + 1)
    simp only [text, length_cons, length_append]
    omega

theorem collect_of_yields {r : Base32Reader} {bytes : List UInt8} {count : Nat} (h : r.Yields bytes)
    (hcount : bytes.length ≤ count) : collect count r = bytes := by
  induction bytes generalizing r count with
  | nil =>
    cases count with
    | zero => rfl
    | succ count => rw [collect, show r.next = (none, r.next.2) from Prod.ext h rfl]
  | cons byte bytes ih =>
    obtain ⟨r', hnext, h'⟩ := h
    cases count with
    | zero => simp at hcount
    | succ count =>
      rw [collect, hnext]
      exact congrArg (cons byte) (ih h' (Nat.le_of_succ_le_succ hcount))

theorem yields_base32 (bytes : List UInt8) : (Base32Reader.new (base32 bytes)).Yields bytes :=
  yields_of_ahead (finalize_write .new bytes)

theorem unbase32_base32 (bytes : List UInt8) : unbase32 (base32 bytes) = bytes := by
  refine collect_of_yields (yields_base32 bytes) ?_
  rw [base32, finalize_write]
  exact length_text _ _ bytes

theorem base32_exact (chunks : List (List UInt8)) :
    (chunks.foldl write .new).finalize = base32 chunks.flatten ∧
      (Base32Reader.new (chunks.foldl write .new).finalize).Yields chunks.flatten := by
  rw [foldl_write]
  exact ⟨rfl, yields_base32 chunks.flatten⟩

end Bearmail.Utils
