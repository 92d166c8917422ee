import Bearmail.Store.Archive

/-!
# Archives turned back into bytes

`Archive::into_inner` puts a marker behind the payload again. It does not compress, but keeps the
hash of the compressed payload, and it puts the change id before the hash, where the readers look
for the hash first.
-/

namespace Bearmail.Store

open List Option

def Archive.intoInner (archive : Archive) : List UInt8 :=
  match archive.version with
  | .versioned changeId hash =>
    archive.inner ++ be64 changeId ++ be32 hash ++ [magicMarker ||| versionedFlag ||| hashedFlag]
  | .hashed hash => archive.inner ++ be32 hash ++ [magicMarker ||| hashedFlag]
  | .unversioned => archive.inner ++ [magicMarker]

/-- The bytes are read as the same payload with the same version. -/
def Archive.Rereads (codec : Codec) (archive : Archive) : Prop :=
  Archive.deserialize codec archive.intoInner = .ok archive

def Archive.Kept (codec : Codec) (archive : Archive) : Prop :=
  match archive.version with
  | .versioned changeId hash =>
    codec.hash archive.inner = hash ∧ be64 changeId = be32 hash ++ be32 hash
  | .hashed hash => codec.hash archive.inner = hash
  | .unversioned => True

variable {codec : Codec} {inner : List UInt8}

theorem be64_ofBytes {bytes : List UInt8} (h : bytes.length = 8) :
    be64 (UInt64.ofNat (BigEndian.ofBytes bytes)) = bytes := by
  have hlt := BigEndian.ofBytes_lt bytes
  rw [h] at hlt
  have hread : (UInt64.ofNat (BigEndian.ofBytes bytes)).toNat = BigEndian.ofBytes bytes :=
    UInt64.toNat_ofNat_of_lt' hlt
  have hwrite := BigEndian.toBytes_ofBytes bytes
  rwa [h, ← hread] at hwrite

theorem checkHash_of_length (contents : List UInt8) {archiveHash : List UInt8}
    (h : archiveHash.length = 4) : codec.checkHash (contents ++ archiveHash) =
      if be32 (codec.hash contents) = archiveHash then some (contents, codec.hash contents)
      else none := by
  have hsplit := splitEnd_append contents archiveHash
  rw [h] at hsplit
  rw [Codec.checkHash, hsplit]
  rfl

theorem deserialize_of_validate {bytes : List UInt8} {version : ArchiveVersion}
    (h : codec.validate bytes = some (true, inner, version)) :
    Archive.deserialize codec bytes = .ok ⟨inner, version⟩ := by
  rw [Archive.deserialize, h]
  rfl

theorem not_rereads {archive : Archive} (h : codec.validate archive.intoInner = none) :
    ¬ archive.Rereads codec := by
  intro hread
  rw [Archive.Rereads, Archive.deserialize, h] at hread
  cases hread

theorem validate_hashed (hash : UInt32) : codec.validate (Archive.intoInner ⟨inner, .hashed hash⟩) =
      if codec.hash inner = hash then some (true, inner, .hashed hash) else none := by
  have hmagic : (magicMarker ||| hashedFlag) &&& magicMarker ≠ 0 := by decide
  have hversioned : ¬ (magicMarker ||| hashedFlag) &&& versionedFlag ≠ 0 := by decide
  have hhashed : (magicMarker ||| hashedFlag) &&& hashedFlag ≠ 0 := by decide
  rw [Archive.intoInner, Codec.validate, List.getLast?_concat, dropLast_concat]
  dsimp
  rw [checkHash_of_length _ (length_be32 hash)]
  by_cases hsame : codec.hash inner = hash
  · rw [if_pos (be32_inj.mpr hsame), if_pos hsame, ← hsame]
    rfl
  · rw [if_neg fun h => hsame (be32_inj.mp h), if_neg hsame]
    rfl

theorem validate_versioned (changeId : UInt64) (hash : UInt32) :
    codec.validate (Archive.intoInner ⟨inner, .versioned changeId hash⟩) =
      if be32 (codec.hash inner) = (be64 changeId).take 4 then
        some (true, inner, .versioned
          (UInt64.ofNat (BigEndian.ofBytes ((be64 changeId).drop 4 ++ be32 hash)))
          (codec.hash inner))
      else none := by
  have hmagic : (magicMarker ||| versionedFlag ||| hashedFlag) &&& magicMarker ≠ 0 := by decide
  have hversioned : (magicMarker ||| versionedFlag ||| hashedFlag) &&& versionedFlag ≠ 0 := by
    decide
  have htake : ((be64 changeId).take 4).length = 4 := by simp
  have hdrop : ((be64 changeId).drop 4 ++ be32 hash).length = 8 := by simp
  have hbytes : inner ++ be64 changeId ++ be32 hash =
      inner ++ (be64 changeId).take 4 ++ ((be64 changeId).drop 4 ++ be32 hash) := by
    rw [← append_assoc, append_assoc inner (List.take 4 _), take_append_drop]
  have hsplit := splitEnd_append (inner ++ (be64 changeId).take 4) ((be64 changeId).drop 4 ++ be32 hash)
  rw [hdrop] at hsplit
  rw [Archive.intoInner, Codec.validate, List.getLast?_concat, dropLast_concat, hbytes]
  dsimp
  rw [if_pos hmagic, if_pos hversioned, hsplit]
  dsimp
  rw [checkHash_of_length _ htake]
  split <;> rfl

theorem rereads_versioned (changeId : UInt64) (hash : UInt32) :
    Archive.Rereads codec ⟨inner, .versioned changeId hash⟩ ↔
      codec.hash inner = hash ∧ be64 changeId = be32 hash ++ be32 hash := by
  have hvalidate := @validate_versioned codec inner changeId hash
  have hdrop : ((be64 changeId).drop 4 ++ be32 hash).length = 8 := by simp
  constructor
  · intro hread
    by_cases hfirst : be32 (codec.hash inner) = (be64 changeId).take 4
    · rw [if_pos hfirst] at hvalidate
      rw [Archive.Rereads, deserialize_of_validate hvalidate] at hread
      obtain ⟨hchange, hsame⟩ := ArchiveVersion.versioned.inj (Archive.mk.inj (Except.ok.inj hread)).2
      rw [← be64_inj, be64_ofBytes hdrop] at hchange
      rw [hsame] at hfirst
      -- the second half of the change id is read where the first half was
      have hsecond : (be64 changeId).drop 4 = be32 hash := by
        have htake := congrArg (List.take 4) hchange
        rwa [take_left' (by simp), ← hfirst] at htake
      refine ⟨hsame, ?_⟩
      rw [← take_append_drop 4 (be64 changeId), hsecond, ← hfirst]
    · rw [if_neg hfirst] at hvalidate
      exact absurd hread (not_rereads hvalidate)
  · rintro ⟨hsame, htwice⟩
    have hlength : (be32 hash).length = 4 := length_be32 hash
    rw [htwice, take_left' hlength, drop_left' hlength, if_pos (by rw [hsame]),
      ← htwice, ofBytes_be64, UInt64.ofNat_toNat, hsame] at hvalidate
    exact deserialize_of_validate hvalidate

/-- Every archive is read back from the bytes it is turned into exactly when its payload has the
hash of its version and, with a change id, the change id is that hash twice. -/
theorem rereads_iff (codec : Codec) (archive : Archive) :
    archive.Rereads codec ↔ archive.Kept codec := by
  obtain ⟨inner, version⟩ := archive
  cases version with
  | versioned changeId hash => exact rereads_versioned changeId hash
  | hashed hash =>
    have hvalidate := @validate_hashed codec inner hash
    by_cases hsame : codec.hash inner = hash
    · rw [if_pos hsame] at hvalidate
      exact iff_of_true (deserialize_of_validate hvalidate) hsame
    · rw [if_neg hsame] at hvalidate
      exact iff_of_false (not_rereads hvalidate) hsame
  | unversioned =>
    refine iff_of_true (deserialize_of_validate ?_) trivial
    rw [Archive.intoInner, Codec.validate, List.getLast?_concat, dropLast_concat]
    rfl

/-- An empty payload, stored with change id 5. -/
theorem not_rereads_versioned :
    ¬ ∀ bytes archive, Archive.deserialize zeroRuns bytes = .ok archive →
      archive.Rereads zeroRuns := by
  intro h
  have hread := h (zeroRuns.stored [] (.versioned 5)) ⟨[], .versioned 5 0x38d394c2⟩ (by decide)
  revert hread
  show ¬ Archive.deserialize _ _ = _
  decide

end Bearmail.Store
