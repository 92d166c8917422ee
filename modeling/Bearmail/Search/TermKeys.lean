import Bearmail.Search.KeyOrder
import Bearmail.Store.KeyLayout

/-!
# Keys of terms

A term is looked up by a scan between two keys that differ in the document, over keys of the same
length. A short term is in its key itself and a long one by two hashes, which are parameters.
-/

namespace Bearmail.Store

open Search (Bitmap IndexKeys apart)

/-! ## Hashes -/

variable (index : SearchIndex) (accountId : UInt32) (hash : CheekyHash)

section Hashes

variable (xxh3 fingerprint : List UInt8 → UInt64)

def CheekyHash.new (bytes : List UInt8) : CheekyHash :=
  if bytes.length ≤ 15 then ofBytes (UInt8.ofNat bytes.length :: bytes)
  else ofBytes (UInt8.ofNat (min bytes.length 255) ::
    (be64 (xxh3 bytes) ++ (be64 (fingerprint bytes)).take 7))

def CheekyHash.deserialize : List UInt8 → Option CheekyHash
  | [] => none
  | len :: rest =>
    if min len.toNat 15 ≤ rest.length then some (ofBytes (len :: rest.take (min len.toNat 15)))
    else none

def CheekyHash.len (hash : CheekyHash) : Nat := min hash.first.toNat 15 + 1

theorem CheekyHash.length_asBytes : hash.asBytes.length = hash.len := by
  have hlength : hash.toList.length = 16 := Vector.length_toList
  rw [asBytes, List.length_take, len, first]
  omega

theorem CheekyHash.length_payload : hash.payload.length + 1 = hash.len := by
  rw [← length_asBytes, asBytes_eq, List.length_cons]

theorem CheekyHash.deserialize_asBytes {hash : CheekyHash} (h : hash.Padded) :
    deserialize hash.asBytes = some hash := by
  have hlength := hash.length_payload
  have hmin : min hash.first.toNat 15 = hash.payload.length := by
    exact (Nat.succ_inj.mp hlength).symm
  have hbytes := ofBytes_asBytes h
  rw [asBytes_eq] at hbytes ⊢
  simp [deserialize, hmin, List.take_length, hbytes]

theorem CheekyHash.getElem_ofBytes {bytes : List UInt8} {i : Nat} (h : i < 16) :
    (ofBytes bytes)[i] = bytes.getD i 0 := Vector.getElem_ofFn h

/-- The bytes of a hash are those it is made of when the first one says how many follow. -/
theorem CheekyHash.asBytes_ofBytes {first : UInt8} {rest : List UInt8}
    (h : min first.toNat 15 = rest.length) : (ofBytes (first :: rest)).asBytes = first :: rest := by
  have hfirst : (ofBytes (first :: rest))[0] = first := getElem_ofBytes (by decide)
  have hlength : (ofBytes (first :: rest)).toList.length = 16 := Vector.length_toList
  refine List.ext_getElem? fun i => ?_
  rw [getElem?_asBytes, CheekyHash.first, hfirst, h]
  split
  · rename_i hi
    have hi' : i < 16 := by omega
    rw [List.getElem?_eq_getElem (by omega), Vector.getElem_toList, getElem_ofBytes hi',
      List.getD_eq_getElem?_getD, List.getElem?_eq_getElem (by simpa using hi), Option.getD_some]
  · rename_i hi
    exact (List.getElem?_eq_none (by simpa using hi)).symm

theorem CheekyHash.padded_ofBytes {first : UInt8} {rest : List UInt8}
    (h : min first.toNat 15 = rest.length) : (ofBytes (first :: rest)).Padded := by
  have hfirst : (ofBytes (first :: rest))[0] = first := getElem_ofBytes (by decide)
  intro i hi hle
  rw [hfirst, h] at hle
  have hnone : (first :: rest)[i]? = none := List.getElem?_eq_none hle
  exact (getElem_ofBytes hi).trans (by rw [List.getD_eq_getElem?_getD, hnone, Option.getD_none])

variable {bytes bytes' : List UInt8}

theorem CheekyHash.new_eq (bytes : List UInt8) : ∃ first rest, new xxh3 fingerprint bytes =
      ofBytes (first :: rest) ∧ min first.toNat 15 = rest.length ∧
    (first.toNat ≤ 15 ↔ bytes.length ≤ 15) ∧ (bytes.length ≤ 15 → rest = bytes) := by
  by_cases hshort : bytes.length ≤ 15
  · have hfirst : (UInt8.ofNat bytes.length).toNat = bytes.length :=
      UInt8.toNat_ofNat_of_lt' (Nat.lt_of_le_of_lt hshort (by decide))
    refine ⟨_, bytes, if_pos hshort, ?_, ?_, fun _ => rfl⟩
    · omega
    · rw [hfirst]
  · have hfirst : (UInt8.ofNat (min bytes.length 255)).toNat = min bytes.length 255 :=
      UInt8.toNat_ofNat_of_lt' (Nat.lt_of_le_of_lt (Nat.min_le_right ..) (by decide))
    refine ⟨_, _, if_neg hshort, ?_, ?_, fun h => absurd h hshort⟩
    · rw [List.length_append, List.length_take, length_be64, length_be64]
      omega
    · omega

theorem CheekyHash.padded_new (bytes : List UInt8) : (new xxh3 fingerprint bytes).Padded := by
  obtain ⟨first, rest, heq, hlength, -⟩ := new_eq xxh3 fingerprint bytes
  rw [heq]
  exact padded_ofBytes hlength

theorem CheekyHash.new_inj (h : new xxh3 fingerprint bytes = new xxh3 fingerprint bytes')
    (hlong : 15 < bytes.length → 15 < bytes'.length → bytes = bytes') : bytes = bytes' := by
  obtain ⟨first, rest, heq, hlength, hfirst, hrest⟩ := new_eq xxh3 fingerprint bytes
  obtain ⟨first', rest', heq', hlength', hfirst', hrest'⟩ := new_eq xxh3 fingerprint bytes'
  have hbytes : first :: rest = first' :: rest' := by
    rw [← asBytes_ofBytes hlength, ← asBytes_ofBytes hlength', ← heq, ← heq', h]
  obtain ⟨rfl, rfl⟩ := List.cons_eq_cons.mp hbytes
  by_cases hshort : bytes.length ≤ 15
  · rw [← hrest hshort, hrest' (hfirst'.mp (hfirst.mpr hshort))]
  · exact hlong (Nat.lt_of_not_le hshort) (Nat.lt_of_not_le fun h' =>
      hshort (hfirst.mp (hfirst'.mpr h')))

end Hashes

/-! ## Keys -/

def termKey (index : SearchIndex) (accountId : UInt32) (field : UInt8) (hash : CheekyHash)
    (documentId : UInt32) : List UInt8 :=
  SearchIndexClass.serialize ⟨index, .account accountId documentId, .term field hash⟩

/-- What `merge_bitmaps` reads for a term that is not in its cache. -/
def termDocuments (keys : List (List UInt8)) (index : SearchIndex) (accountId : UInt32)
    (hash : CheekyHash) (field : UInt8) : Bitmap :=
  let keyLen := 4 * 2 + hash.len + 2
  ((keys.filter fun key => termKey index accountId field hash 0 ≤ key ∧
      key ≤ termKey index accountId field hash 0xffffffff ∧ key.length = keyLen).map
    fun key => (back32 key).2.toNat).toFinset

/-- What a key of a term has before the document. -/
def termPrefix (index : SearchIndex) (accountId : UInt32) (field : UInt8) (hash : CheekyHash) :
    List UInt8 :=
  index.asU8 :: (be32 accountId ++ (hash.payload ++ [hash.first, field]))

theorem termKey_eq (field : UInt8) (hash : CheekyHash) (documentId : UInt32) : termKey index accountId field hash documentId =
      termPrefix index accountId field hash ++ be32 documentId := by
  simp [termKey, SearchIndexClass.serialize, termPrefix, CheekyHash.first]

theorem length_termPrefix (field : UInt8) (hash : CheekyHash) : (termPrefix index accountId field hash).length + 4 =
      4 * 2 + hash.len + 2 := by
  have hlength := hash.length_payload
  simp only [termPrefix, List.length_cons, List.length_append, length_be32, List.length_nil]
  omega

theorem asU8_inj {index index' : SearchIndex} (h : index.asU8 = index'.asU8) : index = index' := by
  revert h
  cases index <;> cases index' <;> decide

theorem termPrefix_inj {index index' : SearchIndex} {accountId accountId' : UInt32}
    {field field' : UInt8} {hash hash' : CheekyHash} (h : hash.Padded) (h' : hash'.Padded)
    (heq : termPrefix index accountId field hash = termPrefix index' accountId' field' hash') :
    index = index' ∧ accountId = accountId' ∧ field = field' ∧ hash = hash' := by
  obtain ⟨hindex, hrest⟩ := List.cons_eq_cons.mp heq
  obtain ⟨haccount, hrest⟩ := List.append_inj hrest (by rw [length_be32, length_be32])
  obtain ⟨hpayload, hends⟩ := List.append_inj' hrest rfl
  obtain ⟨hfirst, hfield⟩ := List.cons_eq_cons.mp hends
  have hbytes : hash.asBytes = hash'.asBytes := by
    rw [CheekyHash.asBytes_eq, CheekyHash.asBytes_eq, hpayload, hfirst]
  refine ⟨asU8_inj hindex, be32_inj.mp haccount, (List.cons_eq_cons.mp hfield).1, ?_⟩
  rw [← CheekyHash.ofBytes_asBytes h, hbytes, CheekyHash.ofBytes_asBytes h']

/-- A key of the right length is between two that begin alike only if it begins so too. -/
theorem eq_of_between {front front' lo mid hi : List UInt8} (hlength : front.length = front'.length)
    (hlo : front ++ lo ≤ front' ++ mid) (hhi : front' ++ mid ≤ front ++ hi) : front = front' := by
  rcases apart front front' with ⟨rest, rfl⟩ | ⟨rest, rfl⟩ | hbelow | hbelow
  · rw [List.length_append] at hlength
    simp [List.eq_nil_of_length_eq_zero (by omega : rest.length = 0)]
  · rw [List.length_append] at hlength
    simp [List.eq_nil_of_length_eq_zero (by omega : rest.length = 0)]
  · exact absurd (hbelow hi mid) (List.not_lt.mpr hhi)
  · exact absurd (hbelow lo mid) (List.not_lt.mpr hlo)

/-! ## Exactness -/

structure Posting where
  index : SearchIndex
  accountId : UInt32
  documentId : UInt32
  field : UInt8
  term : List UInt8

section Exact

variable (xxh3 fingerprint : List UInt8 → UInt64)

def Posting.key (posting : Posting) : List UInt8 :=
  termKey posting.index posting.accountId posting.field (.new xxh3 fingerprint posting.term)
    posting.documentId

theorem mem_termDocuments (postings : List Posting) (index : SearchIndex) (accountId : UInt32)
    {hash : CheekyHash} (h : hash.Padded) (field : UInt8) (d : Nat) :
    d ∈ termDocuments (postings.map (·.key xxh3 fingerprint)) index accountId hash field ↔
      ∃ p ∈ postings, p.index = index ∧ p.accountId = accountId ∧ p.field = field ∧
        .new xxh3 fingerprint p.term = hash ∧ p.documentId.toNat = d := by
  simp only [termDocuments, List.mem_toFinset, List.mem_map, List.mem_filter, decide_eq_true_eq]
  constructor
  · rintro ⟨_, ⟨⟨p, hp, rfl⟩, hlo, hhi, hlength⟩, rfl⟩
    rw [Posting.key, termKey_eq] at hlo hhi hlength ⊢
    rw [termKey_eq] at hlo hhi
    have hlength' := length_termPrefix index accountId field hash
    rw [List.length_append, ← hlength'] at hlength
    have heq := eq_of_between (Nat.add_right_cancel hlength).symm hlo hhi
    obtain ⟨rfl, rfl, rfl, rfl⟩ := termPrefix_inj h (CheekyHash.padded_new xxh3 fingerprint _) heq
    exact ⟨p, hp, rfl, rfl, rfl, rfl, by rw [back32_append]⟩
  · rintro ⟨p, hp, rfl, rfl, rfl, rfl, rfl⟩
    refine ⟨_, ⟨⟨p, hp, rfl⟩, ?_, ?_, ?_⟩, ?_⟩
    all_goals rw [Posting.key, termKey_eq]
    · rw [termKey_eq]
      exact List.append_left_le (Search.replicate_zero_le _ 4 (length_be32 _).ge)
    · rw [termKey_eq]
      exact List.append_left_le (Search.le_replicate_max _ 4 (length_be32 _).le)
    · rw [List.length_append]
      exact length_termPrefix ..
    · rw [back32_append]

/-- The keys of an index of one account, as an evaluation of filters takes them. -/
def accountKeys (postings : List Posting) (index : SearchIndex) (accountId : UInt32) :
    IndexKeys CheekyHash where
  terms := (postings.filter fun p => p.index = index ∧ p.accountId = accountId).map fun p =>
    ⟨.new xxh3 fingerprint p.term, p.field.toNat, p.documentId.toNat⟩
  fields := []

theorem documents_accountKeys (postings : List Posting) (index : SearchIndex) (accountId : UInt32)
    {hash : CheekyHash} (h : hash.Padded) (field : UInt8) :
    (accountKeys xxh3 fingerprint postings index accountId).documents hash field.toNat =
      termDocuments (postings.map (·.key xxh3 fingerprint)) index accountId hash field := by
  ext d
  rw [mem_termDocuments xxh3 fingerprint postings index accountId h, IndexKeys.mem_documents]
  rw [IndexKeys.hasTerm, decide_eq_true_iff]
  simp only [accountKeys, decide_eq_true_eq, List.mem_map, List.mem_filter,
    Search.TermKey.mk.injEq, UInt8.toNat_inj]
  constructor
  · rintro ⟨p, ⟨hp, hindex, haccount⟩, hhash, hfield, hid⟩
    exact ⟨p, hp, hindex, haccount, hfield, hhash, hid⟩
  · rintro ⟨p, hp, hindex, haccount, hfield, hhash, hid⟩
    exact ⟨p, ⟨hp, hindex, haccount⟩, hhash, hfield, hid⟩

/-- The scan finds a document exactly when its key of the term and the field has been written, and
no document for another term, of whatever length; the hash of a term is read back from its bytes. -/
theorem termDocuments_exact (postings : List Posting) (index : SearchIndex) (accountId : UInt32)
    (term : List UInt8) (field : UInt8)
    (hlong : ∀ p ∈ postings, 15 < p.term.length → 15 < term.length →
      CheekyHash.new xxh3 fingerprint p.term = .new xxh3 fingerprint term → p.term = term) :
    (∀ documentId : UInt32, documentId.toNat ∈ termDocuments
        (postings.map (·.key xxh3 fingerprint)) index accountId (.new xxh3 fingerprint term) field ↔
      termKey index accountId field (.new xxh3 fingerprint term) documentId ∈
        postings.map (·.key xxh3 fingerprint)) ∧
    (∀ d, d ∈ termDocuments
        (postings.map (·.key xxh3 fingerprint)) index accountId (.new xxh3 fingerprint term) field ↔
      ∃ p ∈ postings, p.index = index ∧ p.accountId = accountId ∧ p.field = field ∧
        p.term = term ∧ p.documentId.toNat = d) ∧
    ∀ bytes, CheekyHash.deserialize (CheekyHash.new xxh3 fingerprint bytes).asBytes =
      some (.new xxh3 fingerprint bytes) := by
  refine ⟨fun documentId => ?_, fun d => ?_, fun bytes =>
    CheekyHash.deserialize_asBytes (CheekyHash.padded_new xxh3 fingerprint _)⟩
  · rw [mem_termDocuments xxh3 fingerprint postings index accountId (CheekyHash.padded_new xxh3 fingerprint _),
      List.mem_map]
    constructor
    · rintro ⟨p, hp, rfl, rfl, rfl, hhash, hid⟩
      refine ⟨p, hp, ?_⟩
      rw [Posting.key, hhash, UInt32.toNat_inj.mp hid]
    · rintro ⟨p, hp, hkey⟩
      rw [Posting.key, termKey_eq] at hkey
      obtain ⟨hfront, hid⟩ := List.append_inj' hkey (by rw [length_be32, length_be32])
      obtain ⟨hindex, haccount, hfield, hhash⟩ :=
        termPrefix_inj (CheekyHash.padded_new xxh3 fingerprint _) (CheekyHash.padded_new xxh3 fingerprint _) hfront
      exact ⟨p, hp, hindex, haccount, hfield, hhash, congrArg UInt32.toNat (be32_inj.mp hid)⟩
  · rw [mem_termDocuments xxh3 fingerprint postings index accountId (CheekyHash.padded_new xxh3 fingerprint _)]
    refine exists_congr fun p => and_congr_right fun hp => ?_
    have hterm : CheekyHash.new xxh3 fingerprint p.term = .new xxh3 fingerprint term ↔
        p.term = term :=
      ⟨fun heq => CheekyHash.new_inj xxh3 fingerprint heq fun h h' => hlong p hp h h' heq,
        fun heq => heq ▸ rfl⟩
    rw [hterm]

/-- A term that another begins with. -/
theorem termDocuments_exact_prefix :
    7 ∉ termDocuments (([⟨.email, 1, 7, 2, [97, 98]⟩, ⟨.email, 1, 9, 2, [97]⟩] : List Posting).map
      (·.key (fun _ => 0) fun _ => 0)) .email 1 (.new (fun _ => 0) (fun _ => 0) [97]) 2 := by
  intro h
  obtain ⟨p, hp, -, -, -, hterm, hid⟩ := ((termDocuments_exact (fun _ => 0) (fun _ => 0)
    [⟨.email, 1, 7, 2, [97, 98]⟩, ⟨.email, 1, 9, 2, [97]⟩] .email 1 [97] 2
    (fun _ _ _ hlong => absurd hlong (by decide))).2.1 7).mp h
  revert hterm hid
  simp only [List.mem_cons, List.not_mem_nil, or_false] at hp
  rcases hp with rfl | rfl <;> decide

end Exact

end Bearmail.Store
