import Bearmail.Lib.BigEndian
import Bearmail.Utils.Leb128

/-!
# Packed lists

`store/src/write/bitpack.rs`: sorted numbers in blocks of 256, 128 and 32, and the rest of them one by one. How a
block is packed is left open.
-/

namespace Bearmail.Store

open List Leb128
open Utils.Leb128Int (u32)

/-- `num_bits_strictly_sorted` and the functions beside it, for a length of blocks. -/
structure BitBlockPacker where
  numBits : Nat → Option UInt32 → List UInt32 → UInt8
  compress : Nat → Option UInt32 → List UInt32 → UInt8 → List UInt8
  decompress : Nat → Option UInt32 → List UInt8 → UInt8 → List UInt32

structure BitpackIterator where
  bytes : List UInt8
  bytesOffset : Nat
  chunk : List UInt32
  chunkOffset : Nat
  itemsLeft : Nat

def blockLen (left : Nat) : Nat := if left < 128 then 32 else if left < 256 then 128 else 256

theorem le_blockLen (left : Nat) : 32 ≤ blockLen left ∧ (32 ≤ left → blockLen left ≤ left) := by
  unfold blockLen
  grind

theorem blockLen_mem (left : Nat) : blockLen left ∈ [32, 128, 256] := by
  unfold blockLen
  grind

namespace BitBlockPacker

variable (packer : BitBlockPacker)

def bitpackBlocks (initialValue : Option UInt32) (items : List UInt32) : List UInt8 :=
  if items.length < 32 then items.flatMap fun val => encode val.toNat
  else
    let len := blockLen items.length
    let chunk := items.take len
    let numBits := packer.numBits len initialValue chunk
    numBits :: packer.compress len initialValue chunk numBits ++
      bitpackBlocks chunk.getLast? (items.drop len)
termination_by items.length
decreasing_by
  have hle := le_blockLen items.length
  simp only [length_drop]
  omega

def bitpackSorted (items : List UInt32) : List UInt8 :=
  encode (items.length % 2 ^ 32) ++ packer.bitpackBlocks none items

def next (it : BitpackIterator) : Option UInt32 × BitpackIterator :=
  match it.chunk[it.chunkOffset]? with
  | some item => (some item, { it with chunkOffset := it.chunkOffset + 1 })
  | none =>
    if it.itemsLeft = 0 then (none, it)
    else if it.itemsLeft < 32 then
      let it := { it with itemsLeft := it.itemsLeft - 1 }
      match u32.fromLeb128BytesPos (it.bytes.drop it.bytesOffset) with
      | none => (none, it)
      | some (item, bytesRead) => (some (.ofNat item), { it with bytesOffset := it.bytesOffset + bytesRead })
    else
      let len := blockLen it.itemsLeft
      match it.bytes[it.bytesOffset]? with
      | none => (none, it)
      | some numBits =>
        let bytesRead := numBits.toNat * len / 8 + 1
        if it.bytes.length < it.bytesOffset + bytesRead then
          (none, { it with chunk := replicate len 0, chunkOffset := 1 })
        else
          let chunk := packer.decompress len it.chunk.getLast?
            ((it.bytes.drop (it.bytesOffset + 1)).take (bytesRead - 1)) numBits
          (chunk.head?, ⟨it.bytes, it.bytesOffset + bytesRead, chunk, 1, it.itemsLeft - len⟩)

def Yields (stop : Nat) (it : BitpackIterator) : List UInt32 → Prop
  | [] => packer.next it = (none, it) ∧ it.bytesOffset = stop
  | item :: items => ∃ it', packer.next it = (some item, it') ∧ Yields stop it' items

/-- An iterator behind the number of items, which stands at an offset. -/
def openAt (bytes : List UInt8) (offset : Nat) : Option BitpackIterator :=
  (u32.fromLeb128BytesPos (bytes.drop offset)).map fun (itemsLeft, bytesRead) =>
    ⟨bytes, offset + bytesRead, [], 0, itemsLeft⟩

def Reads (items : List UInt32) (before after : List UInt8) : Prop :=
  ∃ it, openAt (before ++ packer.bitpackSorted items ++ after) before.length = some it ∧
    packer.Yields (before ++ packer.bitpackSorted items).length it items

/-- A block in order is unpacked again from that many bits for an item. -/
def Exact : Prop :=
  ∀ initial chunk, chunk.length ∈ [32, 128, 256] → (initial.toList ++ chunk).Pairwise (· < ·) →
    let numBits := packer.numBits chunk.length initial chunk
    let compressed := packer.compress chunk.length initial chunk numBits
    compressed.length = numBits.toNat * chunk.length / 8 ∧
      packer.decompress chunk.length initial compressed numBits = chunk

def Inv (stop : Nat) (after : List UInt8) (it : BitpackIterator) (items : List UInt32) : Prop :=
  ∃ rest, items = it.chunk.drop it.chunkOffset ++ rest ∧ it.itemsLeft = rest.length ∧
    (it.chunk.getLast?.toList ++ rest).Pairwise (· < ·) ∧
    it.bytes.drop it.bytesOffset = packer.bitpackBlocks it.chunk.getLast? rest ++ after ∧
    it.bytesOffset + (packer.bitpackBlocks it.chunk.getLast? rest).length = stop

variable {packer} {stop : Nat} {after : List UInt8} {it : BitpackIterator} {item : UInt32} {items : List UInt32}

theorem getLast?_sublist {α : Type} (l : List α) : l.getLast?.toList <+ l := by
  cases h : l.getLast? with
  | none => exact nil_sublist l
  | some a => exact singleton_sublist.mpr (mem_of_getLast? h)

theorem read_item (item : UInt32) (rest : List UInt8) :
    u32.fromLeb128BytesPos (encode item.toNat ++ rest) = some (item.toNat, (encode item.toNat).length) :=
  ((u32.roundTrips_iff item.toNat_lt rest).mpr nofun).2.1

theorem inv_next (hexact : packer.Exact) (h : packer.Inv stop after it (item :: items)) :
    ∃ it', packer.next it = (some item, it') ∧ packer.Inv stop after it' items := by
  obtain ⟨rest, hitems, hleft, hsorted, hbytes, hstop⟩ := h
  cases hchunk : it.chunk.drop it.chunkOffset with
  | cons first more =>
    rw [hchunk, cons_append, cons.injEq] at hitems
    obtain ⟨rfl, rfl⟩ := hitems
    have hget : it.chunk[it.chunkOffset]? = some item := by rw [← head?_drop, hchunk, head?_cons]
    have hmore : it.chunk.drop (it.chunkOffset + 1) = more := by rw [← tail_drop, hchunk, tail_cons]
    refine ⟨{ it with chunkOffset := it.chunkOffset + 1 }, by rw [next, hget], rest, ?_, hleft, hsorted, hbytes, hstop⟩
    rw [hmore]
  | nil =>
    have hget : it.chunk[it.chunkOffset]? = none := by rw [← head?_drop, hchunk, head?_nil]
    obtain rfl : rest = item :: items := by rw [hitems, hchunk, nil_append]
    have hne : it.itemsLeft ≠ 0 := by simp [hleft]
    by_cases hfew : it.itemsLeft < 32
    · have hblocks (items' : List UInt32) (hlt : items'.length < 32) :
          packer.bitpackBlocks it.chunk.getLast? items' = items'.flatMap fun val => encode val.toNat := by
        rw [bitpackBlocks, if_pos hlt]
      have hlt : (item :: items).length < 32 := by rwa [hleft] at hfew
      have hrest : items.length < 32 := Nat.lt_of_succ_lt hlt
      rw [hblocks _ hlt, flatMap_cons, ← hblocks _ hrest] at hbytes hstop
      rw [append_assoc] at hbytes
      refine ⟨⟨it.bytes, it.bytesOffset + (encode item.toNat).length, it.chunk, it.chunkOffset, it.itemsLeft - 1⟩,
        by simp [next, hget, hne, hfew, hbytes, read_item], items, ?_, ?_, ?_, ?_, ?_⟩
      · simp [hchunk]
      · simp [hleft]
      · exact hsorted.sublist (by simp)
      · rw [← drop_drop, hbytes, drop_left]
      · rw [← hstop, length_append, Nat.add_assoc]
    · have hlen : 32 ≤ (item :: items).length := by omega
      obtain ⟨hblock, hle⟩ := le_blockLen (item :: items).length
      have hmem := blockLen_mem (item :: items).length
      have hlength := length_take_of_le (hle hlen)
      rw [bitpackBlocks, if_neg (Nat.not_lt_of_ge hlen)] at hbytes hstop
      obtain ⟨n, hn⟩ : ∃ n, blockLen (item :: items).length = n + 1 := ⟨_, (Nat.sub_add_cancel (by omega)).symm⟩
      rw [hn] at hmem
      simp only [hn, take_succ_cons, drop_succ_cons] at hlength hbytes hstop
      obtain ⟨hcompressed, hdecompress⟩ := hexact it.chunk.getLast? (item :: items.take n) (hlength ▸ hmem)
        (hsorted.sublist (.append_left (.cons_cons _ (take_sublist n items)) _))
      rw [hlength] at hcompressed hdecompress
      generalize packer.numBits (n + 1) it.chunk.getLast? (item :: items.take n) = numBits at *
      generalize packer.compress (n + 1) it.chunk.getLast? (item :: items.take n) numBits = compressed at *
      have hbits : it.bytes[it.bytesOffset]? = some numBits := by rw [← head?_drop, hbytes]; rfl
      have hcut := congrArg length hbytes
      simp only [length_drop, length_append, length_cons] at hcut hstop
      have hslice : (it.bytes.drop (it.bytesOffset + 1)).take (numBits.toNat * (n + 1) / 8) = compressed := by
        rw [← tail_drop, hbytes, ← hcompressed]
        simp
      refine ⟨⟨it.bytes, it.bytesOffset + (numBits.toNat * (n + 1) / 8 + 1), item :: items.take n, 1,
        it.itemsLeft - (n + 1)⟩, ?_, items.drop n, ?_, ?_, ?_, ?_, ?_⟩
      · rw [← hleft] at hn
        simp [next, hget, hne, hfew, hn, hbits, hslice, hdecompress]
        omega
      · simp
      · simp [hleft]
      · refine Pairwise.sublist ?_ (pairwise_append.mp hsorted).2.1
        have hlast := (getLast?_sublist (item :: items.take n)).append_right (items.drop n)
        rwa [cons_append, take_append_drop] at hlast
      · rw [← hcompressed, ← drop_drop, hbytes]
        simp
      · dsimp only
        omega

theorem yields_of_inv (hexact : packer.Exact) (h : packer.Inv stop after it items) : packer.Yields stop it items := by
  induction items generalizing it with
  | nil =>
    obtain ⟨rest, hitems, hleft, -, -, hstop⟩ := h
    obtain ⟨hchunk, rfl⟩ := append_eq_nil_iff.mp hitems.symm
    have hget : it.chunk[it.chunkOffset]? = none := by rw [← head?_drop, hchunk, head?_nil]
    rw [bitpackBlocks, if_pos (by decide)] at hstop
    exact ⟨by simp [next, hget, hleft], hstop⟩
  | cons item items ih =>
    obtain ⟨it', hnext, hinv⟩ := inv_next hexact h
    exact ⟨it', hnext, ih hinv⟩

theorem length_le_of_sorted {bound : Nat} (hsorted : items.Pairwise (· < ·)) (hbound : bound ≤ 2 ^ 32)
    (hall : ∀ item ∈ items, bound ≤ item.toNat) : bound + items.length ≤ 2 ^ 32 := by
  induction items generalizing bound with
  | nil => exact hbound
  | cons item items ih =>
    obtain ⟨hless, hsorted⟩ := pairwise_cons.mp hsorted
    have hle := hall item mem_cons_self
    have hlt := item.toNat_lt
    have := ih hsorted (show bound + 1 ≤ 2 ^ 32 by omega) fun next hnext =>
      Nat.lt_of_le_of_lt hle (UInt32.lt_iff_toNat_lt.mp (hless next hnext))
    rw [length_cons]
    omega

def opened (items : List UInt32) (before after : List UInt8) : BitpackIterator :=
  ⟨before ++ packer.bitpackSorted items ++ after, before.length + (encode (items.length % 2 ^ 32)).length, [], 0,
    items.length % 2 ^ 32⟩

theorem openAt_eq (items : List UInt32) (before after : List UInt8) :
    openAt (before ++ packer.bitpackSorted items ++ after) before.length = some (packer.opened items before after) := by
  have hlt : items.length % 2 ^ 32 < 2 ^ u32.bits := Nat.mod_lt _ (by decide)
  have hread := ((u32.roundTrips_iff hlt (packer.bitpackBlocks none items ++ after)).mpr nofun).2.1
  rw [openAt, append_assoc, drop_left, bitpackSorted, append_assoc, hread]
  simp [opened, bitpackSorted]

theorem inv_opened (hsorted : items.Pairwise (· < ·)) (hlt : items.length < 2 ^ 32) (before after : List UInt8) :
    packer.Inv (before ++ packer.bitpackSorted items).length after (packer.opened items before after) items := by
  refine ⟨items, rfl, Nat.mod_eq_of_lt hlt, hsorted, ?_, ?_⟩
  · rw [opened, bitpackSorted, ← drop_drop, append_assoc, drop_left, append_assoc, drop_left]
    rfl
  · rw [opened, bitpackSorted, length_append, length_append, Nat.add_assoc]
    rfl

theorem length_lt_of_reads {before after : List UInt8} (hle : items.length ≤ 2 ^ 32)
    (h : packer.Reads items before after) : items.length < 2 ^ 32 := by
  obtain ⟨it, hopen, hyields⟩ := h
  by_contra hall
  have hlength : items.length = 2 ^ 32 := by omega
  rw [openAt_eq, Option.some.injEq] at hopen
  subst hopen
  cases items with
  | nil => simp at hlength
  | cons item items =>
    obtain ⟨it', hnext, -⟩ := hyields
    simp [next, opened, hlength] at hnext

theorem reads_iff (hexact : packer.Exact) (hsorted : items.Pairwise (· < ·)) (before after : List UInt8) :
    packer.Reads items before after ↔ items.length < 2 ^ 32 := by
  constructor
  · have hle := length_le_of_sorted hsorted (Nat.zero_le _) fun item _ => Nat.zero_le _
    exact length_lt_of_reads (by omega)
  · intro hlt
    exact ⟨_, openAt_eq items before after, yields_of_inv hexact (inv_opened hsorted hlt before after)⟩

def readWords : List UInt8 → List UInt32
  | a :: b :: c :: d :: rest => .ofNat (BigEndian.ofBytes [a, b, c, d]) :: readWords rest
  | _ => []

def words : BitBlockPacker where
  numBits _ _ _ := 32
  compress _ _ chunk _ := chunk.flatMap fun item => BigEndian.toBytes 4 item.toNat
  decompress _ _ compressed _ := readWords compressed

theorem exact_words : words.Exact := by
  rintro initial chunk - -
  show (chunk.flatMap fun item => BigEndian.toBytes 4 item.toNat).length = 32 * chunk.length / 8 ∧
    readWords (chunk.flatMap fun item => BigEndian.toBytes 4 item.toNat) = chunk
  induction chunk with
  | nil => exact ⟨rfl, rfl⟩
  | cons item chunk ih =>
    have hitem := BigEndian.ofBytes_toBytes_of_lt (show item.toNat < 256 ^ 4 from item.toNat_lt)
    constructor
    · rw [flatMap_cons, length_append, BigEndian.length_toBytes, ih.1, length_cons]
      omega
    · refine congrArg₂ cons ?_ ih.2
      exact (congrArg UInt32.ofNat hitem).trans (UInt32.ofNat_toNat)

theorem reads_iff_words : words.Reads [3, 5] [1] [2] ↔ [3, 5].length < 2 ^ 32 :=
  reads_iff exact_words (by decide) _ _

/-- The list of all numbers is read as an empty one. -/
theorem not_reads_all :
    ¬∃ packer : BitBlockPacker, packer.Reads ((range (2 ^ 32)).map fun i => .ofNat i) [] [] := by
  rintro ⟨packer, h⟩
  simpa using length_lt_of_reads (by simp) h

end BitBlockPacker

end Bearmail.Store
