import Mathlib.Data.Finset.Union
import Bearmail.Search.Evaluate

/-!
# The search index

The keys a search reads (`term.rs`, `write/key.rs`), and the three lookups over
them: `merge_bitmaps` with its cache, `range_to_bitmap` and `sort_order`
(`bm_u32.rs`). `bm_u64.rs` has the same lookups with 64-bit ids.
-/

namespace Bearmail.Search

open Nested
open List

abbrev Bytes := List UInt8

def beBytes : Nat → Nat → Bytes
  | 0, _ => []
  | width + 1, n => UInt8.ofNat (n / 256 ^ width) :: beBytes width n

theorem length_beBytes (width n : Nat) : (beBytes width n).length = width := by
  induction width with
  | zero => rfl
  | succ width ih => simp [beBytes, ih]

/-- The text processing of the `nlp` crate and the term hash. Words are cut at
`MAX_TOKEN_LENGTH` by the tokenizers. -/
structure Nlp (H : Type) where
  tokenizeText : Language → String → List String
  stemmer : Language → String → List (String × Option String)
  spaceTokenizer : String → List String
  cheekyHash : String → H

/-- `SearchIndexType::Term`: the document has the term in the field. -/
structure TermKey (H : Type) where
  hash : H
  field : Nat
  id : Nat
  deriving DecidableEq

/-- `SearchIndexType::Index`: the value of an indexed field of a document. -/
structure FieldKey where
  field : Nat
  data : Bytes
  id : Nat
  deriving DecidableEq

def FieldKey.suffix (idLen : Nat) (k : FieldKey) : Bytes := k.data ++ beBytes idLen k.id

/-- The keys under one index and one account (or under one global index). Ids
are serialised to `idLen` bytes. -/
structure IndexKeys (H : Type) where
  terms : List (TermKey H)
  fields : List FieldKey

inductive IndexScope where
  | account (accountId : Nat)
  | global
  deriving DecidableEq

abbrev SearchStore (H : Type) := SearchIndex → IndexScope → IndexKeys H

variable {H : Type} [DecidableEq H]

def someNonempty (bm : Bitmap) : Option Bitmap := if bm = ∅ then none else some bm

/-! ## Terms -/

namespace IndexKeys

/-- The scan for one term: its keys share the prefix and the length, so that only
the document id differs between them. -/
def documents (keys : IndexKeys H) (hash : H) (field : Nat) : Bitmap :=
  ((keys.terms.filter fun k => k.hash = hash ∧ k.field = field).map TermKey.id).toFinset

def hasTerm (keys : IndexKeys H) (hash : H) (field id : Nat) : Bool :=
  decide (⟨hash, field, id⟩ ∈ keys.terms)

theorem mem_documents (keys : IndexKeys H) (hash : H) (field id : Nat) :
    id ∈ keys.documents hash field ↔ keys.hasTerm hash field id = true := by
  simp only [documents, hasTerm, mem_toFinset, mem_map, mem_filter, decide_eq_true_eq]
  constructor
  · rintro ⟨⟨h, f, i⟩, ⟨hk, rfl, rfl⟩, rfl⟩
    exact hk
  · intro hk
    exact ⟨⟨hash, field, id⟩, ⟨hk, rfl, rfl⟩, rfl⟩

end IndexKeys

/-- `BitmapCache`: the documents of a term, once they were read; `none` inside
for a term without documents. -/
abbrev BitmapCache (H : Type) := H × Nat → Option (Option Bitmap)

def BitmapCache.insert (cache : BitmapCache H) (key : H × Nat) (bm : Option Bitmap) :
    BitmapCache H :=
  Function.update cache key (some bm)

def mergeFrom (keys : IndexKeys H) (field : Nat) (isUnion : Bool) :
    List H → Bool → Bitmap → BitmapCache H → Option Bitmap × BitmapCache H
  | [], _, result, cache => (someNonempty result, cache)
  | hash :: hashes, first, result, cache =>
    match cache (hash, field) with
    | some (some bm) =>
      if isUnion then mergeFrom keys field isUnion hashes false (result ∪ bm) cache
      else if first then mergeFrom keys field isUnion hashes false bm cache
      else if result ∩ bm = ∅ then (none, cache)
      else mergeFrom keys field isUnion hashes false (result ∩ bm) cache
    | some none =>
      if isUnion then mergeFrom keys field isUnion hashes false result cache else (none, cache)
    | none =>
      let documents := keys.documents hash field
      if documents ≠ ∅ then
        let cache := cache.insert (hash, field) (some documents)
        if isUnion then mergeFrom keys field isUnion hashes false (result ∪ documents) cache
        else if first then mergeFrom keys field isUnion hashes false documents cache
        else if result ∩ documents = ∅ then (none, cache)
        else mergeFrom keys field isUnion hashes false (result ∩ documents) cache
      -- a term without documents is remembered only when intersecting
      else if isUnion then mergeFrom keys field isUnion hashes false result cache
      else (none, cache.insert (hash, field) none)

def mergeBitmaps (keys : IndexKeys H) (hashes : List H) (field : Nat) (isUnion : Bool)
    (cache : BitmapCache H) : Option Bitmap × BitmapCache H :=
  mergeFrom keys field isUnion hashes true ∅ cache

def CacheOk (keys : IndexKeys H) (cache : BitmapCache H) : Prop :=
  ∀ hash field bm, cache (hash, field) = some bm → bm = someNonempty (keys.documents hash field)

variable {keys : IndexKeys H} {cache : BitmapCache H} {op : SearchOperator} {idLen : Nat}
  {matchValue : Bytes}

theorem CacheOk.insert (h : CacheOk keys cache) (hash : H) (field : Nat) :
    CacheOk keys (cache.insert (hash, field) (someNonempty (keys.documents hash field))) := by
  intro hash' field' bm hbm
  by_cases he : (hash', field') = (hash, field)
  · obtain ⟨rfl, rfl⟩ := Prod.mk.inj he
    simpa [BitmapCache.insert] using hbm.symm
  · rw [BitmapCache.insert, Function.update_of_ne he] at hbm
    exact h hash' field' bm hbm

/-- The step of the loop, with the cache resolved: what is in the cache is what
the store would return. -/
theorem mergeFrom_cons (hc : CacheOk keys cache) (field : Nat) (isUnion : Bool) (hash : H)
    (hashes : List H) (first : Bool) (result : Bitmap) :
    ∃ cache', CacheOk keys cache' ∧ mergeFrom keys field isUnion (hash :: hashes) first result cache =
        if isUnion then
          mergeFrom keys field isUnion hashes false (result ∪ keys.documents hash field) cache'
        else if keys.documents hash field = ∅ then (none, cache')
        else if first then
          mergeFrom keys field isUnion hashes false (keys.documents hash field) cache'
        else if result ∩ keys.documents hash field = ∅ then (none, cache')
        else mergeFrom keys field isUnion hashes false (result ∩ keys.documents hash field)
          cache' := by
  cases hk : cache (hash, field) with
  | none =>
    by_cases hd : keys.documents hash field = ∅
    · cases isUnion with
      | true => exact ⟨cache, hc, by simp [mergeFrom, hk, hd]⟩
      | false =>
        have hi := hc.insert hash field
        simp only [someNonempty, hd, if_true] at hi
        exact ⟨_, hi, by simp [mergeFrom, hk, hd]⟩
    · have hi := hc.insert hash field
      simp only [someNonempty, hd, if_false] at hi
      exact ⟨_, hi, by cases isUnion <;> simp [mergeFrom, hk, hd]⟩
  | some bm =>
    have hbm := hc hash field bm hk
    subst hbm
    refine ⟨cache, hc, ?_⟩
    by_cases hd : keys.documents hash field = ∅
    all_goals cases isUnion <;> simp [mergeFrom, hk, someNonempty, hd]

def allTerms (keys : IndexKeys H) (field : Nat) : List H → Bitmap
  | [] => ∅
  | hash :: hashes => hashes.foldl (fun bm h => bm ∩ keys.documents h field) (keys.documents hash field)

def someTerm (keys : IndexKeys H) (field : Nat) (hashes : List H) : Bitmap :=
  hashes.foldl (fun bm h => bm ∪ keys.documents h field) ∅

theorem foldl_inter_empty (keys : IndexKeys H) (field : Nat) (hashes : List H) :
    hashes.foldl (fun bm h => bm ∩ keys.documents h field) ∅ = ∅ := by
  induction hashes with
  | nil => rfl
  | cons hash hashes ih => simpa using ih

theorem mergeFrom_union (field : Nat) (hashes : List H) (first : Bool) (result : Bitmap)
    (hc : CacheOk keys cache) :
    ∃ cache', CacheOk keys cache' ∧ mergeFrom keys field true hashes first result cache =
      (someNonempty (hashes.foldl (fun bm h => bm ∪ keys.documents h field) result), cache') := by
  induction hashes generalizing first result cache with
  | nil => exact ⟨cache, hc, rfl⟩
  | cons hash hashes ih =>
    obtain ⟨cache1, hc1, hstep⟩ := mergeFrom_cons hc field true hash hashes first result
    obtain ⟨cache', hc', hrun⟩ := ih false (result ∪ keys.documents hash field) hc1
    exact ⟨cache', hc', by rw [hstep]; simpa using hrun⟩

theorem mergeFrom_inter (field : Nat) (hashes : List H) (result : Bitmap) (hr : result ≠ ∅)
    (hc : CacheOk keys cache) :
    ∃ cache', CacheOk keys cache' ∧ mergeFrom keys field false hashes false result cache =
      (someNonempty (hashes.foldl (fun bm h => bm ∩ keys.documents h field) result), cache') := by
  induction hashes generalizing result cache with
  | nil => exact ⟨cache, hc, rfl⟩
  | cons hash hashes ih =>
    obtain ⟨cache1, hc1, hstep⟩ := mergeFrom_cons hc field false hash hashes false result
    rw [hstep, foldl_cons]
    by_cases hi : result ∩ keys.documents hash field = ∅
    · refine ⟨cache1, hc1, ?_⟩
      rw [hi, foldl_inter_empty]
      by_cases hd : keys.documents hash field = ∅ <;> simp [hd, someNonempty]
    · have hd : keys.documents hash field ≠ ∅ := fun h => hi (by simp [h])
      obtain ⟨cache', hc', hrun⟩ := ih _ hi hc1
      exact ⟨cache', hc', by simpa [hd, hi] using hrun⟩

theorem mergeBitmaps_spec (hashes : List H) (field : Nat) (isUnion : Bool) (hc : CacheOk keys cache) :
    ∃ cache', CacheOk keys cache' ∧ mergeBitmaps keys hashes field isUnion cache =
      (someNonempty (if isUnion then someTerm keys field hashes else allTerms keys field hashes),
        cache') := by
  cases isUnion with
  | true => exact mergeFrom_union field hashes true ∅ hc
  | false =>
    cases hashes with
    | nil => exact ⟨cache, hc, rfl⟩
    | cons hash hashes =>
      obtain ⟨cache1, hc1, hstep⟩ := mergeFrom_cons hc field false hash hashes true ∅
      rw [mergeBitmaps, hstep]
      by_cases hd : keys.documents hash field = ∅
      · refine ⟨cache1, hc1, ?_⟩
        simp [allTerms, hd, foldl_inter_empty, someNonempty]
      · obtain ⟨cache', hc', hrun⟩ := mergeFrom_inter field hashes _ hd hc1
        exact ⟨cache', hc', by simpa [hd, allTerms] using hrun⟩

theorem mem_someTerm (keys : IndexKeys H) (field : Nat) (hashes : List H) (d : Nat) :
    d ∈ someTerm keys field hashes ↔ ∃ h ∈ hashes, keys.hasTerm h field d = true := by
  have h (acc : Bitmap) : d ∈ hashes.foldl (fun bm h => bm ∪ keys.documents h field) acc ↔
      d ∈ acc ∨ ∃ h ∈ hashes, keys.hasTerm h field d = true := by
    induction hashes generalizing acc with
    | nil => simp
    | cons hash hashes ih => simp [ih, keys.mem_documents, or_assoc]
  simpa [someTerm] using h ∅

theorem mem_allTerms (keys : IndexKeys H) (field : Nat) (hashes : List H) (d : Nat) :
    d ∈ allTerms keys field hashes ↔ hashes ≠ [] ∧ ∀ h ∈ hashes, keys.hasTerm h field d = true := by
  have h (acc : Bitmap) (hashes : List H) :
      d ∈ hashes.foldl (fun bm h => bm ∩ keys.documents h field) acc ↔
        d ∈ acc ∧ ∀ h ∈ hashes, keys.hasTerm h field d = true := by
    induction hashes generalizing acc with
    | nil => simp
    | cons hash hashes ih => simp [ih, keys.mem_documents, and_assoc]
  cases hashes with
  | nil => simp [allTerms]
  | cons hash hashes => simp [allTerms, h, keys.mem_documents]

/-! ## Field values -/

def SearchOperator.compares : SearchOperator → Bytes → Bytes → Bool
  | .lowerThan, value, matchValue => decide (value < matchValue)
  | .lowerEqualThan, value, matchValue => decide (value ≤ matchValue)
  | .greaterThan, value, matchValue => decide (matchValue < value)
  | .greaterEqualThan, value, matchValue => decide (matchValue ≤ value)
  | .equal, value, matchValue => decide (value = matchValue)
  | .contains, value, matchValue => decide (value = matchValue)

/-- The bounds of the scan, on what follows the field byte. Without an upper
bound the scan runs to the first key of another field. -/
def SearchOperator.scanBounds (idLen : Nat) (matchValue : Bytes) : SearchOperator → Bytes × Option Bytes
  | .lowerThan => (List.replicate idLen 0, some (matchValue ++ List.replicate idLen 0))
  | .lowerEqualThan => (List.replicate idLen 0, some (matchValue ++ List.replicate idLen 255))
  | .greaterThan => (matchValue ++ List.replicate idLen 255, none)
  | .greaterEqualThan => (matchValue ++ List.replicate idLen 0, none)
  | .equal | .contains =>
    (matchValue ++ List.replicate idLen 0, some (matchValue ++ List.replicate idLen 255))

/-- Whether the store's iteration visits a key; both ends are included. -/
def SearchOperator.visits (idLen : Nat) (matchValue : Bytes) (op : SearchOperator)
    (key : Bytes) : Bool :=
  let bounds := op.scanBounds idLen matchValue
  decide (bounds.1 ≤ key) && bounds.2.all fun last => decide (key ≤ last)

theorem visits_iff {key : Bytes} : op.visits idLen matchValue key = true ↔
      (op.scanBounds idLen matchValue).1 ≤ key ∧
        ∀ last ∈ (op.scanBounds idLen matchValue).2, key ≤ last := by
  simp only [SearchOperator.visits]
  cases (op.scanBounds idLen matchValue).2 <;> simp

def rangeToBitmap (keys : IndexKeys H) (idLen field : Nat) (matchValue : Bytes)
    (op : SearchOperator) : Option Bitmap :=
  someNonempty ((keys.fields.filter fun k => k.field = field ∧
    op.visits idLen matchValue (k.suffix idLen) ∧ op.compares k.data matchValue).map
      FieldKey.id).toFinset

def rangeDocuments (keys : IndexKeys H) (field : Nat) (matchValue : Bytes)
    (op : SearchOperator) : Bitmap :=
  ((keys.fields.filter fun k => k.field = field ∧ op.compares k.data matchValue).map
    FieldKey.id).toFinset

def scanCovers (keys : IndexKeys H) (idLen field : Nat) (matchValue : Bytes)
    (op : SearchOperator) : Bool :=
  keys.fields.all fun k => decide (k.field = field → op.compares k.data matchValue = true →
    op.visits idLen matchValue (k.suffix idLen) = true)

omit [DecidableEq H] in
theorem rangeToBitmap_eq {field : Nat} (h : scanCovers keys idLen field matchValue op = true) :
    rangeToBitmap keys idLen field matchValue op =
      someNonempty (rangeDocuments keys field matchValue op) := by
  have hf : (keys.fields.filter fun k => k.field = field ∧
        op.visits idLen matchValue (k.suffix idLen) ∧ op.compares k.data matchValue) =
      keys.fields.filter fun k => k.field = field ∧ op.compares k.data matchValue := by
    apply filter_congr
    intro k hk
    have hc := (all_eq_true.mp h) k hk
    simp only [decide_eq_true_eq] at hc
    by_cases hfield : k.field = field
    · by_cases hcmp : op.compares k.data matchValue = true
      · simp [hfield, hcmp, hc hfield hcmp]
      · simp [hcmp]
    · simp [hfield]
  rw [rangeToBitmap, rangeDocuments, hf]

theorem replicate_zero_le (a : Bytes) (idLen : Nat) (h : idLen ≤ a.length) :
    List.replicate idLen 0 ≤ a := by
  induction idLen generalizing a with
  | zero => exact nil_le a
  | succ idLen ih =>
    cases a with
    | nil => simp at h
    | cons b a =>
      rw [replicate_succ, cons_le_cons_iff]
      by_cases hb : b = 0
      · exact Or.inr ⟨hb.symm, ih a (by simpa using h)⟩
      · exact Or.inl (UInt8.pos_iff_ne_zero.mpr hb)

theorem le_replicate_max (a : Bytes) (idLen : Nat) (h : a.length ≤ idLen) :
    a ≤ List.replicate idLen 255 := by
  induction idLen generalizing a with
  | zero =>
    obtain rfl : a = [] := length_eq_zero_iff.mp (Nat.le_zero.mp h)
    exact List.le_refl []
  | succ idLen ih =>
    cases a with
    | nil => exact nil_le _
    | cons b a =>
      rw [replicate_succ, cons_le_cons_iff]
      by_cases hb : b = 255
      · exact Or.inr ⟨hb, ih a (by simpa using h)⟩
      · refine Or.inl ?_
        have h1 := b.toNat_lt
        have h2 : b.toNat ≠ 255 := fun he => hb (UInt8.toNat_inj.mp he)
        exact UInt8.lt_iff_toNat_lt.mpr (by show b.toNat < 255; omega)

/-! ## Sort order -/

def searchIndexMaxFieldLen : Nat := 128

/-- One key of the scan of `sort_order`: the position grows with every new value. -/
def rankKey (acc : Bytes × Nat × (Nat → Option Nat)) (k : FieldKey) :
    Bytes × Nat × (Nat → Option Nat) :=
  let (lastValue, pos, results) := acc
  let pos := if k.data = lastValue then pos else pos + 1
  (k.data, pos, Function.update results k.id (some pos))

/-- `sort_order`: the rank of every document that has a value of the field. -/
def sortOrder (keys : IndexKeys H) (idLen field : Nat) : Nat → Option Nat :=
  let visited := keys.fields.filter fun k => k.field = field ∧
    0 :: List.replicate idLen 0 ≤ k.suffix idLen ∧
      k.suffix idLen ≤ List.replicate searchIndexMaxFieldLen 255 ++ List.replicate idLen 255
  let ordered := visited.mergeSort fun a b => decide (a.suffix idLen ≤ b.suffix idLen)
  (ordered.foldl rankKey ([], 0, fun _ => none)).2.2

end Bearmail.Search
