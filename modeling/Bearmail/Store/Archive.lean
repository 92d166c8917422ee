import Bearmail.Store.Transaction

/-!
# Archives

`Archiver::serialize` and `Archive::deserialize` of `store/src/write/serialize.rs`
and the change id that `ObjectIndexBuilder::build` fills in. A payload is followed
by its hash, its change id and a marker, each there or not as the flags of the
marker say; three readers find them from the end. The hash and the compression are
parameters.
-/

namespace Bearmail.Store

open List Option

/-! ## Black boxes -/

/-- What is used of `lz4_flex` and `xxhash_rust`. -/
structure Codec where
  xxh3 : List UInt8 → UInt64
  maximumOutputSize : Nat → Nat
  compress : List UInt8 → List UInt8
  uncompressedSize : List UInt8 → Option (Nat × List UInt8)
  decompress : List UInt8 → Nat → Option (List UInt8)

def le32 (n : UInt32) : List UInt8 := (be32 n).reverse

structure Codec.Lawful (codec : Codec) : Prop where
  length_compress (bytes : List UInt8) :
    (codec.compress bytes).length ≤ codec.maximumOutputSize bytes.length
  uncompressedSize_le32 (n : UInt32) (bytes : List UInt8) :
    codec.uncompressedSize (le32 n ++ bytes) = some (n.toNat, bytes)
  decompress_compress (bytes : List UInt8) :
    codec.decompress (codec.compress bytes) bytes.length = some bytes

def Codec.hash (codec : Codec) (bytes : List UInt8) : UInt32 := (codec.xxh3 bytes).toUInt32

/-! ## Writing -/

def magicMarker : UInt8 := (1 : UInt8) <<< 7

def versionedFlag : UInt8 := (1 : UInt8) <<< 6

def hashedFlag : UInt8 := (1 : UInt8) <<< 5

def lz4Compressed : UInt8 := (1 : UInt8) <<< 4

def compressWatermark : Nat := 8192

/-- The value as `rkyv` gives it, with the flags of the marker. -/
structure Archiver where
  inner : List UInt8
  flags : UInt8

namespace Archiver

def new (inner : List UInt8) : Archiver := ⟨inner, magicMarker ||| hashedFlag⟩

def withVersion (archiver : Archiver) : Archiver :=
  { archiver with flags := archiver.flags ||| versionedFlag }

def untrusted (archiver : Archiver) : Archiver := { archiver with flags := magicMarker }

end Archiver

/-- `copy_from_slice` into a part of the bytes. -/
def overwrite (bytes : List UInt8) (at_ : Nat) (value : List UInt8) : List UInt8 :=
  bytes.take at_ ++ value ++ bytes.drop (at_ + value.length)

namespace Archiver

def versionOffset (archiver : Archiver) : Nat :=
  if archiver.flags &&& versionedFlag ≠ 0 then 8 else 0

def serializePlain (codec : Codec) (archiver : Archiver) : List UInt8 :=
  let bytes := archiver.inner
  let bytes := if archiver.flags &&& hashedFlag ≠ 0 then
      bytes ++ be32 (codec.hash archiver.inner) else bytes
  let bytes := if archiver.versionOffset ≠ 0 then bytes ++ be64 0 else bytes
  bytes ++ [archiver.flags]

/-- A buffer of markers that the compressed payload, its length and the hash are written to. -/
def serializeCompressed (codec : Codec) (archiver : Archiver) : List UInt8 :=
  let compressed := codec.compress archiver.inner
  let bytes := List.replicate
    (codec.maximumOutputSize archiver.inner.length + 4 * 2 + archiver.versionOffset + 1)
    (archiver.flags ||| lz4Compressed)
  let bytes := overwrite bytes 4 compressed
  let bytes := overwrite bytes 0 (le32 (UInt32.ofNat archiver.inner.length))
  if archiver.flags &&& hashedFlag ≠ 0 then
    let hash := codec.hash (bytes.take (compressed.length + 4))
    let bytes := overwrite bytes (compressed.length + 4) (be32 hash)
    bytes.take (compressed.length + 4 * 2 + archiver.versionOffset + 1)
  else bytes.take (compressed.length + 4 + 1)

def serialize (codec : Codec) (archiver : Archiver) : List UInt8 :=
  if compressWatermark < archiver.inner.length then
    if (codec.compress archiver.inner).length < archiver.inner.length then
      archiver.serializeCompressed codec
    else archiver.serializePlain codec
  else archiver.serializePlain codec

def serializeVersioned (codec : Codec) (archiver : Archiver) : Nat × List UInt8 :=
  let bytes := archiver.withVersion.serialize codec
  (bytes.length - 8 - 1, bytes)

end Archiver

/-- The function of `build` that fills in the change id when the batch is written. -/
def setChangeId (changeId : UInt64) (offset : Nat) (archive : List UInt8) : List UInt8 :=
  archive.take offset ++ be64 changeId ++ [archive.getLastD 0]

/-! ## Reading -/

structure Archive where
  inner : List UInt8
  version : ArchiveVersion
  deriving DecidableEq

def splitEnd (bytes : List UInt8) (count : Nat) : Option (List UInt8 × List UInt8) :=
  if count ≤ bytes.length then
    some (bytes.take (bytes.length - count), bytes.drop (bytes.length - count))
  else none

def Codec.checkHash (codec : Codec) (bytes : List UInt8) : Option (List UInt8 × UInt32) := do
  let (contents, archiveHash) ← splitEnd bytes 4
  let hash := codec.hash contents
  if be32 hash = archiveHash then some (contents, hash) else none

def Codec.validate (codec : Codec) (bytes : List UInt8) :
    Option (Bool × List UInt8 × ArchiveVersion) := do
  let marker ← bytes.getLast?
  let contents := bytes.dropLast
  if marker &&& magicMarker ≠ 0 then
    let isUncompressed := decide (marker &&& lz4Compressed = 0)
    if marker &&& versionedFlag ≠ 0 then
      let (contents, changeId) ← splitEnd contents 8
      let (contents, hash) ← codec.checkHash contents
      some (isUncompressed, contents, .versioned (UInt64.ofNat (BigEndian.ofBytes changeId)) hash)
    else if marker &&& hashedFlag ≠ 0 then
      let (contents, hash) ← codec.checkHash contents
      some (isUncompressed, contents, .hashed hash)
    else some (isUncompressed, contents, .unversioned)
  else none

inductive ArchiveError where
  | dataCorruption (details : String) (value : List UInt8)
  | decompressError (value : List UInt8)
  deriving DecidableEq

def Codec.deflate (codec : Codec) (archive : List UInt8) : Except ArchiveError (List UInt8) :=
  match codec.uncompressedSize archive with
  | some (size, compressed) =>
    match codec.decompress compressed size with
    | some bytes => .ok bytes
    | none => .error (.decompressError archive)
  | none => .error (.decompressError archive)

def Archive.deserialize (codec : Codec) (bytes : List UInt8) : Except ArchiveError Archive :=
  match codec.validate bytes with
  | none => .error (.dataCorruption "Archive integrity compromised" bytes)
  | some (isUncompressed, contents, version) =>
    if isUncompressed then .ok ⟨contents, version⟩
    else do
      let inner ← codec.deflate contents
      return ⟨inner, version⟩

/-! ## What is written -/

namespace Codec

variable (codec : Codec)

def Compresses (payload : List UInt8) : Prop :=
  compressWatermark < payload.length ∧ (codec.compress payload).length < payload.length

instance (payload : List UInt8) : Decidable (codec.Compresses payload) :=
  inferInstanceAs (Decidable (_ ∧ _))

def contents (payload : List UInt8) : List UInt8 :=
  if codec.Compresses payload then
    le32 (UInt32.ofNat payload.length) ++ codec.compress payload
  else payload

def marker (flags : UInt8) (payload : List UInt8) : UInt8 :=
  if codec.Compresses payload then flags ||| lz4Compressed else flags

end Codec

theorem length_le32 (n : UInt32) : (le32 n).length = 4 := by
  rw [le32, length_reverse, length_be32]

theorem overwrite_append {before old value after : List UInt8} {at_ : Nat}
    (hat : before.length = at_) (hold : old.length = value.length) :
    overwrite (before ++ (old ++ after)) at_ value = before ++ (value ++ after) := by
  have hdrop : (before ++ (old ++ after)).drop (at_ + value.length) = after := by
    simp [← append_assoc, ← hold, ← hat, ← length_append]
  rw [overwrite, ← hat, take_left, hat, hdrop, append_assoc]

variable {codec : Codec}

theorem Archiver.serializeCompressed_eq (hcodec : codec.Lawful)
    (archiver : Archiver) (hflags : archiver.versionOffset ≠ 0 → archiver.flags &&& hashedFlag ≠ 0) :
    archiver.serializeCompressed codec =
      let contents := le32 (UInt32.ofNat archiver.inner.length) ++ codec.compress archiver.inner
      contents ++ ((if archiver.flags &&& hashedFlag ≠ 0 then be32 (codec.hash contents) else []) ++
        (List.replicate archiver.versionOffset (archiver.flags ||| lz4Compressed) ++
          [archiver.flags ||| lz4Compressed])) := by
  have hfits := hcodec.length_compress archiver.inner
  generalize hc : codec.compress archiver.inner = c at hfits
  generalize hsize : le32 (UInt32.ofNat archiver.inner.length) = size
  have hsize4 : size.length = 4 := hsize ▸ length_le32 _
  generalize hf : archiver.flags ||| lz4Compressed = f
  obtain ⟨spare, hspare⟩ := Nat.exists_eq_add_of_le hfits
  have hbuffer : List.replicate
      (codec.maximumOutputSize archiver.inner.length + 4 * 2 + archiver.versionOffset + 1) f =
      List.replicate 4 f ++ (List.replicate c.length f ++ (List.replicate 4 f ++
        (List.replicate archiver.versionOffset f ++ ([f] ++ List.replicate spare f)))) := by
    have hone : [f] = List.replicate 1 f := rfl
    rw [hone]
    simp only [← replicate_add]
    congr 1
    omega
  let rest := List.replicate 4 f ++
    (List.replicate archiver.versionOffset f ++ ([f] ++ List.replicate spare f))
  have hpayload : overwrite (List.replicate 4 f ++ (List.replicate c.length f ++ rest)) 4 c =
      List.replicate 4 f ++ (c ++ rest) :=
    overwrite_append length_replicate length_replicate
  have hlength : overwrite ([] ++ (List.replicate 4 f ++ (c ++ rest))) 0 size =
      [] ++ (size ++ (c ++ rest)) :=
    overwrite_append rfl (length_replicate.trans hsize4.symm)
  have hbefore : (size ++ c).length = c.length + 4 := by
    simp [hsize4, Nat.add_comm]
  have hbytes : overwrite (overwrite (List.replicate
      (codec.maximumOutputSize archiver.inner.length + 4 * 2 + archiver.versionOffset + 1) f) 4 c)
      0 size = size ++ c ++ rest := by
    rw [hbuffer, hpayload]
    exact hlength.trans (by simp)
  rw [serializeCompressed]
  dsimp only
  rw [hc, hsize, hf, hbytes]
  by_cases hhashed : archiver.flags &&& hashedFlag ≠ 0
  · rw [if_pos hhashed, if_pos hhashed, ← hbefore, take_left]
    have hhash : overwrite (size ++ c ++ rest) (size ++ c).length (be32 (codec.hash (size ++ c))) =
        size ++ c ++ (be32 (codec.hash (size ++ c)) ++
          (List.replicate archiver.versionOffset f ++ ([f] ++ List.replicate spare f))) :=
      overwrite_append rfl (length_replicate.trans (length_be32 _).symm)
    have hend : size ++ c ++ (be32 (codec.hash (size ++ c)) ++
        (List.replicate archiver.versionOffset f ++ ([f] ++ List.replicate spare f))) =
        size ++ c ++ (be32 (codec.hash (size ++ c)) ++
          (List.replicate archiver.versionOffset f ++ [f])) ++ List.replicate spare f := by
      simp
    rw [hhash, hend, take_left']
    simp only [length_append, length_be32, length_replicate, length_singleton, hsize4]
    omega
  · have hversion : archiver.versionOffset = 0 := by
      by_contra hne
      exact hhashed (hflags hne)
    rw [if_neg hhashed, if_neg hhashed, hversion, ← hbefore]
    have hrest : rest = [f] ++ (List.replicate 3 f ++
        (List.replicate archiver.versionOffset f ++ ([f] ++ List.replicate spare f))) := rfl
    rw [hrest, ← append_assoc (size ++ c), take_left' (by rw [length_append]; rfl)]
    rfl

theorem Archiver.serializePlain_eq (codec : Codec) (archiver : Archiver) :
    archiver.serializePlain codec = archiver.inner ++
      ((if archiver.flags &&& hashedFlag ≠ 0 then be32 (codec.hash archiver.inner) else []) ++
        ((if archiver.versionOffset ≠ 0 then be64 0 else []) ++ [archiver.flags])) := by
  rw [serializePlain]
  split <;> split <;> simp

/-- The contents with what the flags put after them; the change id is still to come. -/
theorem Archiver.serialize_eq (hcodec : codec.Lawful) (archiver : Archiver)
    (hflags : archiver.versionOffset ≠ 0 → archiver.flags &&& hashedFlag ≠ 0) :
    ∃ gap : List UInt8, gap.length = archiver.versionOffset ∧
      archiver.serialize codec = codec.contents archiver.inner ++
        ((if archiver.flags &&& hashedFlag ≠ 0 then
          be32 (codec.hash (codec.contents archiver.inner)) else []) ++
          (gap ++ [codec.marker archiver.flags archiver.inner])) := by
  by_cases hcompresses : codec.Compresses archiver.inner
  · refine ⟨List.replicate archiver.versionOffset (archiver.flags ||| lz4Compressed),
      length_replicate, ?_⟩
    rw [serialize, if_pos hcompresses.1, if_pos hcompresses.2, Codec.contents,
      if_pos hcompresses, Codec.marker, if_pos hcompresses]
    exact archiver.serializeCompressed_eq hcodec hflags
  · have hplain : archiver.serialize codec = archiver.serializePlain codec := by
      rw [serialize]
      split
      · rename_i hlong
        exact if_neg fun hshort => hcompresses ⟨hlong, hshort⟩
      · rfl
    refine ⟨if archiver.versionOffset ≠ 0 then be64 0 else [], ?_, ?_⟩
    · unfold versionOffset
      split <;> rfl
    · simp [hplain, serializePlain_eq, Codec.contents, Codec.marker, hcompresses]

theorem Archiver.serialize_hashed (hcodec : codec.Lawful) (archiver : Archiver)
    (hflags : archiver.flags &&& hashedFlag ≠ 0) :
    ∃ gap : List UInt8, gap.length = archiver.versionOffset ∧
      archiver.serialize codec = codec.contents archiver.inner ++
        be32 (codec.hash (codec.contents archiver.inner)) ++
          (gap ++ [codec.marker archiver.flags archiver.inner]) := by
  obtain ⟨gap, hgap, hbytes⟩ := archiver.serialize_eq hcodec fun _ => hflags
  rw [if_pos hflags, ← append_assoc] at hbytes
  exact ⟨gap, hgap, hbytes⟩

theorem Archiver.serialize_bare (hcodec : codec.Lawful) (archiver : Archiver)
    (hflags : ¬ archiver.flags &&& hashedFlag ≠ 0) (hversion : archiver.versionOffset = 0) :
    archiver.serialize codec =
      codec.contents archiver.inner ++ [codec.marker archiver.flags archiver.inner] := by
  obtain ⟨gap, hgap, hbytes⟩ := archiver.serialize_eq hcodec (absurd hversion)
  obtain rfl := length_eq_zero_iff.mp (hgap.trans hversion)
  rwa [if_neg hflags] at hbytes

/-! ## What is stored -/

inductive ArchiveKind where
  | hashed
  | versioned (changeId : UInt64)
  | untrusted
  deriving DecidableEq

namespace Codec

variable (codec : Codec)

def stored (payload : List UInt8) : ArchiveKind → List UInt8
  | .hashed => (Archiver.new payload).serialize codec
  | .versioned changeId =>
    let (offset, bytes) := (Archiver.new payload).serializeVersioned codec
    setChangeId changeId offset bytes
  | .untrusted => (Archiver.new payload).untrusted.serialize codec

def version (payload : List UInt8) : ArchiveKind → ArchiveVersion
  | .hashed => .hashed (codec.hash (codec.contents payload))
  | .versioned changeId => .versioned changeId (codec.hash (codec.contents payload))
  | .untrusted => .unversioned

def flags : ArchiveKind → UInt8
  | .hashed => magicMarker ||| hashedFlag
  | .versioned _ => magicMarker ||| hashedFlag ||| versionedFlag
  | .untrusted => magicMarker

def trailer (payload : List UInt8) : ArchiveKind → List UInt8
  | .hashed => be32 (codec.hash (codec.contents payload))
  | .versioned changeId => be32 (codec.hash (codec.contents payload)) ++ be64 changeId
  | .untrusted => []

end Codec

theorem stored_eq (hcodec : codec.Lawful) (payload : List UInt8)
    (kind : ArchiveKind) : codec.stored payload kind = codec.contents payload ++
      codec.trailer payload kind ++ [codec.marker (Codec.flags kind) payload] := by
  cases kind with
  | hashed =>
    have hversion : (Archiver.new payload).versionOffset = 0 :=
      if_neg (show ¬ (magicMarker ||| hashedFlag) &&& versionedFlag ≠ 0 by decide)
    obtain ⟨gap, hgap, hbytes⟩ := (Archiver.new payload).serialize_hashed hcodec
      (show (magicMarker ||| hashedFlag) &&& hashedFlag ≠ 0 by decide)
    obtain rfl := length_eq_zero_iff.mp (hgap.trans hversion)
    exact hbytes
  | untrusted =>
    rw [Codec.trailer, List.append_nil]
    exact (Archiver.new payload).untrusted.serialize_bare hcodec
      (show ¬ magicMarker &&& hashedFlag ≠ 0 by decide)
      (if_neg (show ¬ magicMarker &&& versionedFlag ≠ 0 by decide))
  | versioned changeId =>
    have hversion : (Archiver.new payload).withVersion.versionOffset = 8 :=
      if_pos (show (magicMarker ||| hashedFlag ||| versionedFlag) &&& versionedFlag ≠ 0 by decide)
    obtain ⟨gap, hgap, hbytes⟩ := (Archiver.new payload).withVersion.serialize_hashed hcodec
      (show (magicMarker ||| hashedFlag ||| versionedFlag) &&& hashedFlag ≠ 0 by decide)
    have hgap8 : gap.length = 8 := hgap.trans hversion
    have hserialized : (Archiver.new payload).withVersion.serialize codec =
        codec.contents payload ++ be32 (codec.hash (codec.contents payload)) ++
          (gap ++ [codec.marker (Codec.flags (.versioned changeId)) payload]) := hbytes
    have hoffset : ((Archiver.new payload).withVersion.serialize codec).length - 8 - 1 =
        (codec.contents payload ++ be32 (codec.hash (codec.contents payload))).length := by
      rw [hserialized]
      simp only [length_append, length_singleton, hgap8]
      omega
    show setChangeId changeId (((Archiver.new payload).withVersion.serialize codec).length - 8 - 1)
      ((Archiver.new payload).withVersion.serialize codec) = _
    rw [hoffset, hserialized, setChangeId, take_left, ← append_assoc _ gap,
      getLastD_concat, Codec.trailer]
    simp

/-! ## What is read -/

theorem splitEnd_append (bytes value : List UInt8) :
    splitEnd (bytes ++ value) value.length = some (bytes, value) := by
  have hlength : (bytes ++ value).length - value.length = bytes.length := by
    simp
  rw [splitEnd, if_pos (by rw [length_append]; exact Nat.le_add_left _ _), hlength, take_left, drop_left]

theorem Codec.checkHash_append (codec : Codec) (contents : List UInt8) :
    codec.checkHash (contents ++ be32 (codec.hash contents)) = some (contents, codec.hash contents) := by
  have hsplit := splitEnd_append contents (be32 (codec.hash contents))
  rw [length_be32] at hsplit
  rw [checkHash, hsplit]
  exact if_pos rfl

theorem Codec.marker_magic (codec : Codec) (payload : List UInt8) (kind : ArchiveKind) :
    codec.marker (flags kind) payload &&& magicMarker ≠ 0 := by
  cases kind <;> simp only [marker, flags] <;> split <;> decide

theorem Codec.marker_lz4 (codec : Codec) (payload : List UInt8) (kind : ArchiveKind) :
    codec.marker (flags kind) payload &&& lz4Compressed = 0 ↔ ¬ codec.Compresses payload := by
  unfold marker
  split
  · rename_i hcompresses
    refine iff_of_false ?_ (not_not_intro hcompresses)
    cases kind <;> simp only [flags] <;> decide
  · rename_i hplain
    refine iff_of_true ?_ hplain
    cases kind <;> simp only [flags] <;> decide

theorem Codec.validate_stored (hcodec : codec.Lawful) (payload : List UInt8)
    (kind : ArchiveKind) : codec.validate (codec.stored payload kind) =
      some (!decide (codec.Compresses payload), codec.contents payload, codec.version payload kind) := by
  have hlz4 : decide (codec.marker (flags kind) payload &&& lz4Compressed = 0) =
      !decide (codec.Compresses payload) := by
    rw [decide_eq_decide.mpr (codec.marker_lz4 payload kind), decide_not]
  rw [stored_eq hcodec, validate, List.getLast?_concat, dropLast_concat]
  dsimp
  rw [if_pos (codec.marker_magic payload kind), hlz4]
  cases kind with
  | hashed =>
    have hversioned : ¬ codec.marker (flags .hashed) payload &&& versionedFlag ≠ 0 := by
      simp only [marker, flags]
      split <;> decide
    have hhashed : codec.marker (flags .hashed) payload &&& hashedFlag ≠ 0 := by
      simp only [marker, flags]
      split <;> decide
    rw [if_neg hversioned, if_pos hhashed, trailer, codec.checkHash_append]
    rfl
  | versioned changeId =>
    have hversioned : codec.marker (flags (.versioned changeId)) payload &&& versionedFlag ≠ 0 := by
      simp only [marker, flags]
      split <;> decide
    have hsplit := splitEnd_append (codec.contents payload ++
      be32 (codec.hash (codec.contents payload))) (be64 changeId)
    rw [length_be64] at hsplit
    rw [if_pos hversioned, trailer, ← append_assoc, hsplit]
    dsimp
    rw [codec.checkHash_append]
    simp [ofBytes_be64, version]
  | untrusted =>
    have hversioned : ¬ codec.marker (flags .untrusted) payload &&& versionedFlag ≠ 0 := by
      simp only [marker, flags]
      split <;> decide
    have hhashed : ¬ codec.marker (flags .untrusted) payload &&& hashedFlag ≠ 0 := by
      simp only [marker, flags]
      split <;> decide
    simp [hversioned, hhashed, trailer, version]

theorem Archive.deserialize_compressed (hcodec : codec.Lawful)
    {payload : List UInt8} (hcompresses : codec.Compresses payload) (kind : ArchiveKind) :
    deserialize codec (codec.stored payload kind) =
      match codec.decompress (codec.compress payload) (payload.length % 2 ^ 32) with
      | some inner => .ok ⟨inner, codec.version payload kind⟩
      | none => .error (.decompressError (codec.contents payload)) := by
  have hsize : (UInt32.ofNat payload.length).toNat = payload.length % 2 ^ 32 :=
    UInt32.toNat_ofNat'
  have hcontents : codec.uncompressedSize (codec.contents payload) =
      some (payload.length % 2 ^ 32, codec.compress payload) := by
    simp [Codec.contents, hcompresses, hcodec.uncompressedSize_le32, hsize]
  rw [deserialize, codec.validate_stored hcodec, decide_eq_true hcompresses]
  show codec.deflate (codec.contents payload) >>= _ = _
  rw [Codec.deflate, hcontents]
  dsimp only
  cases codec.decompress (codec.compress payload) (payload.length % 2 ^ 32) <;> rfl

theorem Archive.deserialize_stored (hcodec : codec.Lawful) {payload : List UInt8}
    (hlength : codec.Compresses payload → payload.length < 2 ^ 32) (kind : ArchiveKind) :
    deserialize codec (codec.stored payload kind) = .ok ⟨payload, codec.version payload kind⟩ := by
  by_cases hcompresses : codec.Compresses payload
  · rw [deserialize_compressed hcodec hcompresses, Nat.mod_eq_of_lt (hlength hcompresses),
      hcodec.decompress_compress]
  · rw [deserialize, codec.validate_stored hcodec, decide_eq_false hcompresses, Codec.contents,
      if_neg hcompresses]
    rfl

/-! ## What is asserted -/

theorem lastBytes_append (before value after : List UInt8) :
    lastBytes (before ++ value ++ after) value.length after.length = some value := by
  have hdrop : (before ++ value ++ after).length - after.length - value.length = before.length := by
    simp only [length_append]
    omega
  have hle : value.length + after.length ≤ (before ++ value ++ after).length := by
    simp only [length_append]
    omega
  rw [lastBytes, if_pos hle, hdrop, append_assoc, drop_left, take_left]

theorem matchesBytes_hashed (hcodec : codec.Lawful) (payload : List UInt8)
    (hash : UInt32) : (AssertValue.archive (.hashed hash)).matchesBytes codec.xxh3
      (codec.stored payload .hashed) = true ↔ hash = codec.hash (codec.contents payload) := by
  have hlast := lastBytes_append (codec.contents payload)
    (be32 (codec.hash (codec.contents payload))) [codec.marker (Codec.flags .hashed) payload]
  rw [length_be32, length_singleton] at hlast
  rw [AssertValue.matchesBytes, stored_eq hcodec, Codec.trailer, hlast, decide_eq_true_iff,
    some_inj, be32_inj]
  exact eq_comm

theorem matchesBytes_versioned (hcodec : codec.Lawful) (payload : List UInt8)
    (changeId changeId' : UInt64) (hash : UInt32) :
    (AssertValue.archive (.versioned changeId hash)).matchesBytes codec.xxh3
      (codec.stored payload (.versioned changeId')) = true ↔
        hash = codec.hash (codec.contents payload) := by
  have hlast := lastBytes_append (codec.contents payload) (be32 (codec.hash (codec.contents payload)))
    (be64 changeId' ++ [codec.marker (Codec.flags (.versioned changeId')) payload])
  rw [length_be32, length_append, length_be64, length_singleton] at hlast
  rw [AssertValue.matchesBytes, stored_eq hcodec, Codec.trailer,
    append_assoc (codec.contents payload), append_assoc (be32 _),
    ← append_assoc (codec.contents payload), hlast, decide_eq_true_iff, some_inj, be32_inj]
  exact eq_comm

theorem matchesBytes_stored (hcodec : codec.Lawful) (payload : List UInt8) (kind : ArchiveKind) :
    (AssertValue.archive (codec.version payload kind)).matchesBytes codec.xxh3
      (codec.stored payload kind) = true ↔ kind ≠ .untrusted := by
  cases kind with
  | hashed => exact iff_of_true ((matchesBytes_hashed hcodec _ _).mpr rfl) nofun
  | versioned changeId =>
    exact iff_of_true ((matchesBytes_versioned hcodec _ _ _ _).mpr rfl) nofun
  | untrusted => exact iff_of_false nofun (not_not_intro rfl)

/-- Every payload is read as it was stored and with the version it was stored with. The
version is matched by what was stored with a hash, and a version with a change id by
whatever has the hash of its contents. -/
theorem archive_stored {codec : Codec} (hcodec : codec.Lawful) (payload : List UInt8)
    (hlength : codec.Compresses payload → payload.length < 2 ^ 32) (kind : ArchiveKind) :
    Archive.deserialize codec (codec.stored payload kind) =
        .ok ⟨payload, codec.version payload kind⟩ ∧
      ((AssertValue.archive (codec.version payload kind)).matchesBytes codec.xxh3
        (codec.stored payload kind) = true ↔ kind ≠ .untrusted) ∧
      ∀ (payload' : List UInt8) (changeId changeId' : UInt64),
        (AssertValue.archive (codec.version payload (.versioned changeId))).matchesBytes codec.xxh3
            (codec.stored payload' (.versioned changeId')) = true ↔
          codec.hash (codec.contents payload) = codec.hash (codec.contents payload') :=
  ⟨Archive.deserialize_stored hcodec hlength kind, matchesBytes_stored hcodec payload kind,
    fun payload' changeId changeId' => matchesBytes_versioned hcodec payload' changeId changeId' _⟩

/-! ## Runs of zeros -/

def zeroRuns : Codec where
  xxh3 _ := 0x2d06800538d394c2
  maximumOutputSize size := size + 2
  compress bytes :=
    if bytes = List.replicate bytes.length 0 then
      0 :: UInt8.ofNat (bytes.length % 2) :: List.replicate (bytes.length / 2) 0
    else 1 :: bytes
  uncompressedSize bytes :=
    if 4 ≤ bytes.length then
      some (BigEndian.ofBytes (bytes.take 4).reverse, bytes.drop 4) else none
  decompress
    | 0 :: odd :: run, size =>
      if size = 2 * run.length + odd.toNat then some (List.replicate size 0) else none
    | 1 :: bytes, size => if size = bytes.length then some bytes else none
    | _, _ => none

theorem zeroRuns_compress (count : Nat) : zeroRuns.compress (List.replicate count 0) =
    0 :: UInt8.ofNat (count % 2) :: List.replicate (count / 2) 0 := by
  simp [zeroRuns]

theorem zeroRuns_decompress (count size : Nat) :
    zeroRuns.decompress (0 :: UInt8.ofNat (count % 2) :: List.replicate (count / 2) 0) size =
      if size = count then some (List.replicate size 0) else none := by
  have hodd : (UInt8.ofNat (count % 2)).toNat = count % 2 :=
    UInt8.toNat_ofNat_of_lt' (by simp [UInt8.size]; omega)
  have hcount : 2 * (count / 2) + count % 2 = count := by omega
  simp [zeroRuns, hodd, hcount]

theorem zeroRuns_lawful : zeroRuns.Lawful where
  length_compress bytes := by
    simp only [zeroRuns]
    split <;> simp only [length_cons, length_replicate] <;> omega
  uncompressedSize_le32 n bytes := by
    have hnumber : BigEndian.ofBytes (be32 n) = n.toNat :=
      BigEndian.ofBytes_toBytes_of_lt n.toNat_lt
    show (if 4 ≤ (le32 n ++ bytes).length then
      some (BigEndian.ofBytes (List.reverse (List.take 4 _)), List.drop 4 _) else none) = _
    simp [le32, reverse_reverse, hnumber]
  decompress_compress bytes := by
    by_cases hzeros : bytes = List.replicate bytes.length 0
    · rw [hzeros, zeroRuns_compress, zeroRuns_decompress, length_replicate, if_pos rfl]
    · simp [zeroRuns, if_neg hzeros]

theorem archive_stored_empty : Archive.deserialize zeroRuns (zeroRuns.stored [] .hashed) =
    .ok ⟨[], .hashed 0x38d394c2⟩ :=
  (archive_stored zeroRuns_lawful [] (fun _ => by decide) .hashed).1

theorem zeroRuns_long {count : Nat} (hcount : 2 ^ 32 ≤ count) (kind : ArchiveKind) :
    Archive.deserialize zeroRuns (zeroRuns.stored (List.replicate count 0) kind) =
      .error (.decompressError (zeroRuns.contents (List.replicate count 0))) := by
  have hcompresses : zeroRuns.Compresses (List.replicate count 0) := by
    refine ⟨?_, ?_⟩
    · rw [length_replicate, compressWatermark]
      omega
    · rw [zeroRuns_compress]
      simp only [length_cons, length_replicate]
      omega
  rw [Archive.deserialize_compressed zeroRuns_lawful hcompresses, zeroRuns_compress,
    zeroRuns_decompress, if_neg]
  omega

/-- The same payload under another change id is matched, what has no hash is not matched,
and a payload of four gigabytes is not read. -/
theorem not_archive_stored : zeroRuns.Lawful ∧
    (AssertValue.archive (zeroRuns.version [] (.versioned 1))).matchesBytes zeroRuns.xxh3
      (zeroRuns.stored [] (.versioned 2)) = true ∧
    (AssertValue.archive (zeroRuns.version [] .untrusted)).matchesBytes zeroRuns.xxh3
      (zeroRuns.stored [] .untrusted) = false ∧
    Archive.deserialize zeroRuns (zeroRuns.stored (List.replicate (2 ^ 32) 0) .hashed) =
      .error (.decompressError (zeroRuns.contents (List.replicate (2 ^ 32) 0))) :=
  ⟨zeroRuns_lawful, (matchesBytes_versioned zeroRuns_lawful [] 1 2 _).mpr rfl, rfl,
    zeroRuns_long (Nat.le_refl _) .hashed⟩

end Bearmail.Store
