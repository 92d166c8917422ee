/-!
# Texts in UTF-8

The bytes of a text, and what follows from bytes that begin with those of a text.
-/

namespace Utf8

def encode (s : String) : List UInt8 := s.toByteArray.data.toList

@[simp] theorem encode_empty : encode "" = [] := by simp [encode]

@[simp] theorem encode_append (s t : String) : encode (s ++ t) = encode s ++ encode t := by
  simp [encode, String.toByteArray_append]

theorem encode_injective {s t : String} (h : encode s = encode t) : s = t := by
  apply String.toByteArray_inj.mp
  apply ByteArray.ext
  exact Array.ext' h

@[simp] theorem encode_inj {s t : String} : encode s = encode t ↔ s = t :=
  ⟨encode_injective, fun h => by rw [h]⟩

theorem isValidUTF8_of_append (cs : List Char) {b : ByteArray}
    (h : (cs.utf8Encode ++ b).IsValidUTF8) : b.IsValidUTF8 := by
  induction cs with
  | nil => simpa using h
  | cons c cs ih =>
    rw [List.utf8Encode_cons, ByteArray.append_assoc,
      ByteArray.isValidUTF8_utf8Encode_singleton_append_iff] at h
    exact ih h

theorem exists_append_of_encode {s t : String} {rest : List UInt8}
    (h : encode t = encode s ++ rest) : ∃ u, rest = encode u ∧ t = s ++ u := by
  have hbytes : t.toByteArray = s.toByteArray ++ ⟨rest.toArray⟩ := by
    apply ByteArray.ext
    apply Array.ext'
    simpa [encode] using h
  have hvalid : ByteArray.IsValidUTF8 ⟨rest.toArray⟩ := by
    apply isValidUTF8_of_append s.toList
    have hs : s.toList.utf8Encode = s.toByteArray := by simp
    rw [hs, ← hbytes]
    exact t.isValidUTF8
  refine ⟨String.ofByteArray _ hvalid, by simp [encode], ?_⟩
  apply String.toByteArray_inj.mp
  rw [hbytes, String.toByteArray_append]

end Utf8
