import Bearmail.Imap.SequenceSet

/-!
# The numbers of a sequence set

`Sequence::expand` of `imap-proto/src/protocol/mod.rs`, which lists what
`contains` decides, and the text `serialize_sequence` writes.
-/

namespace Bearmail.Imap

open List Option Bool

namespace Sequence

/-- The numbers of a range; a missing end stands for the largest number. -/
def expandRange (start last : Option Nat) (maxValue : Nat) : List Nat :=
  let start := start.getD maxValue
  let last := last.getD maxValue
  match compare start last with
  | .eq => [start]
  | .lt => List.range' start (last + 1 - start)
  | .gt => List.range' last (start + 1 - last)

/-- `expand`, with the set it collects as a list. Only numbers and ranges of a
list are expanded. -/
def expand : Sequence → Nat → List Nat
  | .number value, _ => [value]
  | .list items, maxValue => items.flatMap fun
    | .number value => [value]
    | .range start last => expandRange start last maxValue
    | _ => []
  | .range start last, maxValue => expandRange start last maxValue
  | .savedSearch, _ => []

def items : Sequence → List Sequence
  | .list items => items
  | item => [item]

def Single : Sequence → Prop
  | .list _ => False
  | _ => True

def Flat (set : Sequence) : Prop := ∀ item ∈ set.items, item.Single

example : (Sequence.range (some 7) none).expand 4 = [4, 5, 6, 7] := by decide

theorem mem_expandRange (start last : Option Nat) (value maxValue : Nat) :
    value ∈ expandRange start last maxValue ↔
      between value (start.getD maxValue) (last.getD maxValue) = true := by
  simp only [expandRange, between, or_eq_true, and_eq_true, decide_eq_true_eq]
  generalize start.getD maxValue = a
  generalize last.getD maxValue = b
  cases h : compare a b with
  | eq =>
    have hab := Nat.compare_eq_eq.mp h
    simp only [mem_singleton]
    omega
  | lt =>
    have hab := Nat.compare_eq_lt.mp h
    simp only [mem_range'_1]
    omega
  | gt =>
    have hab := Nat.compare_eq_gt.mp h
    simp only [mem_range'_1]
    omega

/-- `contains` tells a range with a missing end from one without, `expand` does not. -/
theorem contains_range (start last : Option Nat) (value maxValue : Nat) :
    (Sequence.range start last).contains value maxValue =
      between value (start.getD maxValue) (last.getD maxValue) := by
  cases start with
  | none =>
    cases last with
    | none =>
      rw [Bool.eq_iff_iff]
      simp only [contains, between, getD_none, or_eq_true, and_eq_true, decide_eq_true_eq]
      omega
    | some b =>
      rw [Bool.eq_iff_iff]
      simp only [contains, between, getD_none, getD_some, or_eq_true, and_eq_true, decide_eq_true_eq]
      omega
  | some a => cases last <;> rfl

theorem containsAny_eq_true (items : List Sequence) (value maxValue : Nat) :
    containsAny items value maxValue = true ↔ ∃ item ∈ items, item.contains value maxValue = true := by
  induction items with
  | nil => simp [containsAny]
  | cons item items ih => simp [containsAny, ih]

theorem contains_iff_mem_expand {item : Sequence} (h : item.Single) (value maxValue : Nat) :
    item.contains value maxValue = true ↔ value ∈ item.expand maxValue := by
  cases item with
  | number n =>
    simp only [contains, expand, decide_eq_true_eq, mem_singleton]
    exact eq_comm
  | range start last => rw [contains_range, expand, mem_expandRange]
  | savedSearch => simp [contains, expand]
  | list items => exact h.elim

theorem mem_expand_list (items : List Sequence) (h : ∀ item ∈ items, item.Single)
    (value maxValue : Nat) :
    value ∈ (Sequence.list items).expand maxValue ↔ ∃ item ∈ items, value ∈ item.expand maxValue := by
  simp only [expand, mem_flatMap]
  constructor
  · rintro ⟨item, hitem, hv⟩
    refine ⟨item, hitem, ?_⟩
    cases item with
    | list inner | savedSearch => cases hv
    | number n | range start last => exact hv
  · rintro ⟨item, hitem, hv⟩
    refine ⟨item, hitem, ?_⟩
    cases item with
    | list inner => exact (h _ hitem).elim
    | savedSearch | number n | range start last => exact hv

theorem Flat.contains_iff {set : Sequence} (h : set.Flat) (value maxValue : Nat) :
    set.contains value maxValue = true ↔ value ∈ set.expand maxValue := by
  cases set with
  | number n | range start last | savedSearch =>
    exact contains_iff_mem_expand (h _ mem_cons_self) value maxValue
  | list items =>
    rw [contains, containsAny_eq_true, mem_expand_list items h]
    exact exists_congr fun item =>
      and_congr_right fun hi => contains_iff_mem_expand (h item hi) value maxValue

end Sequence

/-! ## What is read is flat -/

variable {value : Bytes} {s' : SetScan} {r : Nat × Nat} {list : List Nat}

theorem scanByte_sequenceSet {pos : Nat} {ch : UInt8} {s : SetScan} {b : Bool}
    (h : scanByte value pos ch s = .ok (b, s')) : s'.sequenceSet = s.sequenceSet := by
  unfold scanByte at h
  split at h
  · cases h
    rfl
  · split at h
    · split at h
      · cases h
      · split at h
        · obtain ⟨n, -, h⟩ := ok_of_bind h
          cases h
          rfl
        · split at h
          · cases h
            rfl
          · cases h
    · split at h
      · split at h
        · cases h
        · split at h <;> cases h
          rfl
      · split at h
        · split at h <;> cases h
          rfl
        · split at h
          · split at h <;> cases h
            rfl
          · cases h

theorem pushItem_single {pos : Nat} {s : SetScan} (h : pushItem value pos s = .ok s')
    (hs : ∀ item ∈ s.sequenceSet, item.Single) : ∀ item ∈ s'.sequenceSet, item.Single := by
  have hsnoc : ∀ new : Sequence, new.Single → ∀ item ∈ s.sequenceSet ++ [new], item.Single := by
    intro new hnew item hitem
    rcases mem_append.mp hitem with hold | hlast
    · exact hs item hold
    · rw [mem_singleton.mp hlast]
      exact hnew
  unfold pushItem at h
  split at h
  · split at h
    · cases h
      exact hsnoc (.range _ _) trivial
    · obtain ⟨n, -, h⟩ := ok_of_bind h
      cases h
      exact hsnoc (.range _ _) trivial
  · split at h
    · cases h
      exact hsnoc (.range _ _) trivial
    · split at h
      · cases h
        exact hsnoc .savedSearch trivial
      · obtain ⟨n, -, h⟩ := ok_of_bind h
        cases h
        exact hsnoc (.number _) trivial

theorem scanFrom_single (rest : Bytes) {pos : Nat} {s : SetScan}
    (h : scanFrom value pos rest s = .ok s') (hs : ∀ item ∈ s.sequenceSet, item.Single) :
    ∀ item ∈ s'.sequenceSet, item.Single := by
  induction rest generalizing pos s with
  | nil =>
    cases h
    exact hs
  | cons ch rest ih =>
    obtain ⟨⟨addToken, t⟩, hbyte, h⟩ := ok_of_bind h
    have ht : ∀ item ∈ t.sequenceSet, item.Single := by
      rw [scanByte_sequenceSet hbyte]
      exact hs
    dsimp only at h
    split at h
    · obtain ⟨u, hpush, h⟩ := ok_of_bind h
      exact ih h (pushItem_single hpush ht)
    · split at h
      · obtain ⟨u, hpush, h⟩ := ok_of_bind h
        exact ih h (pushItem_single hpush ht)
      · exact ih h ht

theorem parseSequenceSet_flat {set : Sequence} (h : parseSequenceSet value = .ok set) :
    set.Flat := by
  have hone : ∀ {item : Sequence}, item.Single → item.Flat := by
    intro item hitem
    cases item with
    | list items => exact hitem.elim
    | number n | range a b | savedSearch => simp [Sequence.Flat, Sequence.items, Sequence.Single]
  unfold parseSequenceSet at h
  split at h
  · cases h
    exact hone trivial
  · split at h
    · cases h
    · rename_i s hscan
      have hall := scanFrom_single value hscan (by simp [SetScan.between])
      split at h
      · cases h
      · rename_i item hs
        cases h
        exact hone (hall set (by simp [hs]))
      · cases h
        exact hall

/-! ## What is written is read back -/

def rangeItem (r : Nat × Nat) : Sequence :=
  if r.1 ≠ r.2 then .range (some r.1) (some r.2) else .number r.1

def writtenSet (list : List Nat) : Sequence :=
  match (compress list).map rangeItem with
  | [item] => item
  | items => .list items

theorem utf8_append (s t : String) : utf8 (s ++ t) = utf8 s ++ utf8 t := by
  simp [utf8]

theorem utf8_rangeText (r : Nat × Nat) : utf8 (rangeText r) = (rangeItem r).itemText := by
  unfold rangeText rangeItem
  split
  · rw [utf8_append, utf8_append, append_assoc]
    rfl
  · rfl

theorem utf8_intercalate (ranges : List (Nat × Nat)) : utf8 (",".intercalate (ranges.map rangeText)) =
      Sequence.itemsText (ranges.map rangeItem) := by
  induction ranges with
  | nil => rfl
  | cons r ranges ih =>
    cases ranges with
    | nil => exact utf8_rangeText r
    | cons next ranges =>
      rw [map_cons, map_cons, String.intercalate_cons_cons, utf8_append, utf8_append,
        utf8_rangeText, ← map_cons, ih, append_assoc]
      rfl

theorem utf8_serializeSequence (list : List Nat) :
    utf8 (serializeSequence list) = (writtenSet list).text := by
  rw [serializeSequence, utf8_intercalate, writtenSet]
  split
  · rename_i item hitems
    rw [hitems]
    have hsingle : item.Single := by
      obtain ⟨r, -, hr⟩ := List.mem_map.mp
        (show item ∈ (compress list).map rangeItem by rw [hitems]; exact mem_singleton_self _)
      rw [← hr, rangeItem]
      split <;> trivial
    cases item with
    | list items => exact hsingle.elim
    | number n | range a b | savedSearch => rfl
  · rfl

theorem mem_compressFrom {id rangeId : Nat} (h : id ≤ rangeId) (ids : List Nat)
    (hr : r ∈ compressFrom id rangeId ids) :
    r.1 ≤ r.2 ∧ r.1 ∈ id :: ids ∧ r.2 ∈ rangeId :: ids := by
  induction ids generalizing id rangeId with
  | nil =>
    rw [mem_singleton.mp hr]
    exact ⟨h, mem_singleton_self _, mem_singleton_self _⟩
  | cons nextId ids ih =>
    unfold compressFrom at hr
    split at hr
    · rename_i hnext
      obtain ⟨hle, hfirst, hlast⟩ := ih (by omega) hr
      refine ⟨hle, ?_, ?_⟩
      · rcases mem_cons.mp hfirst with hid | hmem
        · simp [hid]
        · simp [hmem]
      · rw [hnext]
        exact mem_cons_of_mem _ hlast
    · rcases mem_cons.mp hr with heq | hmem
      · rw [heq]
        exact ⟨h, mem_cons_self, mem_cons_self⟩
      · obtain ⟨hle, hfirst, hlast⟩ := ih (Nat.le_refl nextId) hmem
        exact ⟨hle, mem_cons_of_mem _ hfirst, mem_cons_of_mem _ hlast⟩

theorem mem_compress (hr : r ∈ compress list) : r.1 ≤ r.2 ∧ r.1 ∈ list ∧ r.2 ∈ list := by
  cases list with
  | nil => cases hr
  | cons id ids => exact mem_compressFrom (Nat.le_refl id) ids hr

theorem compress_ne_nil (h : list ≠ []) : compress list ≠ [] := by
  intro hnil
  have hexp := expand_compress list
  rw [hnil] at hexp
  exact h hexp.symm

theorem itemFits_rangeItem (h1 : r.1 < 2 ^ 32) (h2 : r.2 < 2 ^ 32) : (rangeItem r).ItemFits := by
  unfold rangeItem
  split
  · exact ⟨fun n hn => Option.some.inj hn ▸ h1, fun n hn => Option.some.inj hn ▸ h2⟩
  · exact h1

theorem writtenSet_fits (hne : list ≠ []) (h : ∀ n ∈ list, n < 2 ^ 32) : (writtenSet list).Fits := by
  have hall : ∀ item ∈ (compress list).map rangeItem, item.ItemFits := by
    intro item hitem
    obtain ⟨r, hr, rfl⟩ := List.mem_map.mp hitem
    obtain ⟨-, hfirst, hlast⟩ := mem_compress hr
    exact itemFits_rangeItem (h _ hfirst) (h _ hlast)
  have hlen : 0 < ((compress list).map rangeItem).length := by
    rw [length_map]
    exact length_pos_iff.mpr (compress_ne_nil hne)
  unfold writtenSet
  split
  · rename_i item hitems
    have hfit := hall item (by simp [hitems])
    cases item with
    | list items => exact hfit.elim
    | number n | range a b | savedSearch => exact hfit
  · rename_i items hnot
    refine ⟨?_, hall⟩
    match hm : (compress list).map rangeItem, hlen, hnot with
    | [item], _, hnot => exact absurd rfl (hnot item)
    | _ :: _ :: _, _, _ => simp

theorem expand_rangeItem (h : r.1 ≤ r.2) (maxValue : Nat) :
    (rangeItem r).expand maxValue = List.range' r.1 (r.2 + 1 - r.1) := by
  unfold rangeItem
  split
  · rename_i hne
    have hlt : r.1 < r.2 := by omega
    simp [Sequence.expand, Sequence.expandRange, Nat.compare_eq_lt.mpr hlt]
  · rename_i heq
    have hone : r.2 + 1 - r.1 = 1 := by omega
    rw [hone]
    rfl

theorem items_writtenSet (list : List Nat) :
    (writtenSet list).items = (compress list).map rangeItem := by
  unfold writtenSet
  split
  · rename_i item hitems
    rw [hitems]
    obtain ⟨r, -, hr⟩ := List.mem_map.mp
      (show item ∈ (compress list).map rangeItem by rw [hitems]; exact mem_singleton_self _)
    rw [← hr, rangeItem]
    split <;> rfl
  · rfl

theorem expand_writtenSet (list : List Nat) (maxValue : Nat) :
    (writtenSet list).items.flatMap (fun item => item.expand maxValue) = list := by
  have hitem : ∀ r ∈ compress list, (rangeItem r).expand maxValue =
      List.range' r.1 (r.2 + 1 - r.1) :=
    fun r hr => expand_rangeItem (mem_compress hr).1 maxValue
  rw [items_writtenSet, flatMap_map, flatMap_congr hitem]
  exact expand_compress list

/-- What `contains` and `expand` say of a set read without a saved search, and
what becomes of a list of numbers that is written and read. -/
theorem sequence_expand :
    (∀ value set, parseSequenceSet value = .ok set → set.isSavedSearch = false →
      ∀ v maxValue, set.contains v maxValue = true ↔ v ∈ set.expand maxValue) ∧
    ∀ list : List Nat, list ≠ [] → (∀ n ∈ list, n ≠ 0 ∧ n < 2 ^ 32) →
      ∃ set, parseSequenceSet (utf8 (serializeSequence list)) = .ok set ∧
        ∀ maxValue, set.items.flatMap (fun item => item.expand maxValue) = list := by
  constructor
  · intro value set h _ v maxValue
    exact (parseSequenceSet_flat h).contains_iff v maxValue
  · intro list hne hall
    refine ⟨writtenSet list, ?_, expand_writtenSet list⟩
    rw [utf8_serializeSequence]
    exact parseSequenceSet_text (writtenSet_fits hne fun n hn => (hall n hn).2)

theorem sequence_expand_example :
    (parseSequenceSet (utf8 "7:3,12") = .ok (.list [.range (some 7) (some 3), .number 12]) ∧
      ((Sequence.list [.range (some 7) (some 3), .number 12]).contains 5 20 = true ↔
        5 ∈ (Sequence.list [.range (some 7) (some 3), .number 12]).expand 20)) ∧
    ∃ set, parseSequenceSet (utf8 (serializeSequence [3, 4, 5, 9])) = .ok set ∧
      ∀ maxValue, set.items.flatMap (fun item => item.expand maxValue) = [3, 4, 5, 9] := by
  have hparse : parseSequenceSet (utf8 "7:3,12") =
      .ok (.list [.range (some 7) (some 3), .number 12]) := by rfl
  exact ⟨⟨hparse, sequence_expand.1 _ _ hparse rfl 5 20⟩,
    sequence_expand.2 [3, 4, 5, 9] (by decide) (by decide)⟩

/-- The text of no numbers is empty, and is refused. -/
theorem not_sequence_expand_empty :
    ¬ ∀ list : List Nat, (∀ n ∈ list, n ≠ 0 ∧ n < 2 ^ 32) →
      ∃ set, parseSequenceSet (utf8 (serializeSequence list)) = .ok set ∧
        ∀ maxValue, set.items.flatMap (fun item => item.expand maxValue) = list := by
  intro h
  obtain ⟨set, hset, -⟩ := h [] (by simp)
  cases hset

end Bearmail.Imap
