import Bearmail.Search.KeyOrder

/-!
# Positions

`sort_order` counts the values as the scan comes to them, in the order of the keys. `into_sorted`
then sorts by the positions.
-/

namespace Bearmail.Search

open List

variable {H : Type}

/-! ## What is to hold -/

/-- The range that `sort_order` scans: from the value zero to the longest value of `u8::MAX`. -/
def FieldKey.scanned (idLen : Nat) (k : FieldKey) : Prop :=
  0 :: List.replicate idLen 0 ≤ k.suffix idLen ∧
    k.suffix idLen ≤ List.replicate searchIndexMaxFieldLen 255 ++ List.replicate idLen 255

structure IndexKeys.Single (keys : IndexKeys H) (field : Nat) (k : FieldKey) : Prop where
  mem : k ∈ keys.fields
  field_eq : k.field = field
  only : ∀ k' ∈ keys.fields, k'.field = field → k'.id = k.id → k'.data = k.data

/-- Every document has a position, and the positions compare as the values do. -/
structure IndexKeys.Ranks (keys : IndexKeys H) (idLen field : Nat) : Prop where
  all : ∀ k ∈ keys.fields, k.field = field → (sortOrder keys idLen field k.id).isSome
  compare : ∀ a b, keys.Single field a → keys.Single field b →
    ∀ p ∈ sortOrder keys idLen field a.id, ∀ q ∈ sortOrder keys idLen field b.id,
      (p < q ↔ a.data < b.data) ∧ (p = q ↔ a.data = b.data)

/-- The keys of single values are in the order of the values, and no other value is between two
keys of one. -/
structure IndexKeys.Sortable (keys : IndexKeys H) (idLen field : Nat) : Prop where
  scanned : ∀ k ∈ keys.fields, k.field = field →
    ∃ k' ∈ keys.fields, k'.field = field ∧ k'.id = k.id ∧ k'.scanned idLen
  below : ∀ a b, keys.Single field a → keys.Single field b → a.data < b.data →
    a.suffix idLen < b.suffix idLen
  beside : ∀ a b, keys.Single field a → keys.Single field b → a.data = b.data →
    ∀ k ∈ keys.fields, k.field = field → a.suffix idLen ≤ k.suffix idLen →
      k.suffix idLen ≤ b.suffix idLen → k.data = a.data

variable {idLen : Nat}

theorem data_of_suffix {a b : FieldKey} (h : a.suffix idLen = b.suffix idLen) :
    a.data = b.data :=
  (append_inj' h (by rw [length_beBytes, length_beBytes])).1

theorem lt_of_le_of_data_ne {a b : FieldKey} (h : a.suffix idLen ≤ b.suffix idLen)
    (hne : a.data ≠ b.data) : a.suffix idLen < b.suffix idLen :=
  (List.le_iff_lt_or_eq.mp h).resolve_right fun heq => hne (data_of_suffix heq)

/-! ## The positions of a scan -/

def ranksFrom : Bytes → Nat → List FieldKey → List (FieldKey × Nat)
  | _, _, [] => []
  | lastValue, pos, k :: ks =>
    let pos := if k.data = lastValue then pos else pos + 1
    (k, pos) :: ranksFrom k.data pos ks

variable (lastValue : Bytes) (cs : List SearchComparator)

theorem map_fst_ranksFrom (pos : Nat) (ks : List FieldKey) :
    (ranksFrom lastValue pos ks).map Prod.fst = ks := by
  induction ks generalizing lastValue pos with
  | nil => rfl
  | cons k ks ih => simp [ranksFrom, ih]

theorem foldl_rankKey (ks : List FieldKey) (lastValue : Bytes) (pos : Nat)
    (results : Nat → Option Nat) (id : Nat) :
    (∃ e ∈ ranksFrom lastValue pos ks, e.1.id = id ∧
      (ks.foldl rankKey (lastValue, pos, results)).2.2 id = some e.2) ∨
    (∀ k ∈ ks, k.id ≠ id) ∧ (ks.foldl rankKey (lastValue, pos, results)).2.2 id = results id := by
  induction ks generalizing lastValue pos results with
  | nil => exact .inr ⟨by simp, rfl⟩
  | cons k ks ih =>
    rw [foldl_cons, rankKey]
    rcases ih k.data (if k.data = lastValue then pos else pos + 1)
      (Function.update results k.id (some (if k.data = lastValue then pos else pos + 1))) with
      ⟨e, he, hid, hresult⟩ | ⟨hnone, hresult⟩
    · exact .inl ⟨e, mem_cons_of_mem _ he, hid, hresult⟩
    · rw [hresult]
      by_cases hid : k.id = id
      · exact .inl ⟨_, mem_cons_self, hid, by rw [← hid, Function.update_self]⟩
      · exact .inr ⟨forall_mem_cons.mpr ⟨hid, hnone⟩, Function.update_of_ne (Ne.symm hid) ..⟩

variable {ks : List FieldKey}

theorem le_of_mem_ranksFrom {lastValue : Bytes} {pos : Nat}
    {e : FieldKey × Nat} (h : e ∈ ranksFrom lastValue pos ks) :
    pos ≤ e.2 ∧ (e.2 = pos → e.1.data = lastValue) := by
  induction ks generalizing lastValue pos with
  | nil => cases h
  | cons k ks ih =>
    rcases mem_cons.mp h with rfl | h
    · dsimp only
      split
      · rename_i hsame
        exact ⟨Nat.le_refl pos, fun _ => hsame⟩
      · exact ⟨Nat.le_succ pos, fun heq => absurd heq (Nat.succ_ne_self pos)⟩
    · obtain ⟨hle, hdata⟩ := ih h
      split at hle
      · rename_i hsame
        rw [if_pos hsame] at hdata
        exact ⟨hle, fun heq => (hdata heq).trans hsame⟩
      · exact ⟨Nat.le_of_succ_le hle, fun heq => absurd (heq ▸ hle) (Nat.not_succ_le_self pos)⟩

theorem rank_of_same {lastValue : Bytes} {pos : Nat}
    {e : FieldKey × Nat} (hsorted : ks.Pairwise fun a b => a.suffix idLen ≤ b.suffix idLen)
    (h : e ∈ ranksFrom lastValue pos ks)
    (hsame : ∀ k ∈ ks, k.suffix idLen ≤ e.1.suffix idLen → k.data = lastValue) : e.2 = pos := by
  induction ks generalizing lastValue pos with
  | nil => cases h
  | cons k ks ih =>
    obtain ⟨hfirst, hsorted⟩ := pairwise_cons.mp hsorted
    rcases mem_cons.mp h with rfl | h
    · exact if_pos (hsame k mem_cons_self (List.le_refl _))
    · have hmem := mem_map_of_mem (f := Prod.fst) h
      rw [map_fst_ranksFrom] at hmem
      have hk := hsame k mem_cons_self (hfirst _ hmem)
      rw [if_pos hk] at h
      exact ih hsorted h fun k' hk' hle => (hsame k' (mem_cons_of_mem _ hk') hle).trans hk.symm

/-- What is said of two keys of which the first comes earlier. -/
structure Steps (idLen : Nat) (ks : List FieldKey) (e e' : FieldKey × Nat) : Prop where
  suffix : e.1.suffix idLen ≤ e'.1.suffix idLen
  le : e.2 ≤ e'.2
  data : e'.2 = e.2 → e'.1.data = e.1.data
  same : (∀ k ∈ ks, e.1.suffix idLen ≤ k.suffix idLen → k.suffix idLen ≤ e'.1.suffix idLen →
    k.data = e.1.data) → e'.2 = e.2

theorem pairwise_ranksFrom (pos : Nat)
    (hsorted : ks.Pairwise fun a b => a.suffix idLen ≤ b.suffix idLen) :
    (ranksFrom lastValue pos ks).Pairwise (Steps idLen ks) := by
  induction ks generalizing lastValue pos with
  | nil => exact List.Pairwise.nil
  | cons k ks ih =>
    obtain ⟨hfirst, hsorted⟩ := pairwise_cons.mp hsorted
    refine pairwise_cons.mpr ⟨fun e he => ?_, (ih _ _ hsorted).imp fun hsteps => ?_⟩
    · have hmem := mem_map_of_mem (f := Prod.fst) he
      rw [map_fst_ranksFrom] at hmem
      obtain ⟨hle, hdata⟩ := le_of_mem_ranksFrom he
      exact ⟨hfirst _ hmem, hle, hdata, fun hsame => rank_of_same hsorted he fun k' hk' hle =>
        hsame k' (mem_cons_of_mem _ hk') (hfirst k' hk') hle⟩
    · exact { hsteps with
        same := fun hsame => hsteps.same fun k' hk' => hsame k' (mem_cons_of_mem _ hk') }

theorem Steps.of_mem {ranks : List (FieldKey × Nat)}
    (h : ranks.Pairwise (Steps idLen ks)) {e e' : FieldKey × Nat} (he : e ∈ ranks)
    (he' : e' ∈ ranks) : e = e' ∨ Steps idLen ks e e' ∨ Steps idLen ks e' e := by
  induction h with
  | nil => cases he
  | cons hfirst _ ih =>
    rcases mem_cons.mp he with rfl | hin
    · rcases mem_cons.mp he' with rfl | hin'
      · exact .inl rfl
      · exact .inr (.inl (hfirst _ hin'))
    · rcases mem_cons.mp he' with rfl | hin'
      · exact .inr (.inr (hfirst _ hin))
      · exact ih hin hin'

/-! ## The order of the positions -/

section Order

variable {keys : IndexKeys H} {idLen field : Nat} {a b : FieldKey} {p q : Nat}

def IndexKeys.ordered (keys : IndexKeys H) (idLen field : Nat) : List FieldKey :=
  (keys.fields.filter fun k => k.field = field ∧ 0 :: List.replicate idLen 0 ≤ k.suffix idLen ∧
      k.suffix idLen ≤ List.replicate searchIndexMaxFieldLen 255 ++ List.replicate idLen 255).mergeSort
    fun a b => decide (a.suffix idLen ≤ b.suffix idLen)

theorem mem_ordered {k : FieldKey} :
    k ∈ keys.ordered idLen field ↔ k ∈ keys.fields ∧ k.field = field ∧ k.scanned idLen := by
  rw [IndexKeys.ordered, mem_mergeSort, mem_filter, decide_eq_true_eq]
  rfl

theorem ordered_sorted (keys : IndexKeys H) (idLen field : Nat) :
    (keys.ordered idLen field).Pairwise fun a b => a.suffix idLen ≤ b.suffix idLen := by
  refine (pairwise_mergeSort (fun a b c hab hbc => ?_) (fun a b => ?_) _).imp
    fun hle => of_decide_eq_true hle
  · exact decide_eq_true (List.le_trans (of_decide_eq_true hab) (of_decide_eq_true hbc))
  · rw [Bool.or_eq_true, decide_eq_true_eq, decide_eq_true_eq]
    exact List.le_total _ _

theorem isSome_sortOrder {id : Nat} : (sortOrder keys idLen field id).isSome ↔
    ∃ k ∈ keys.fields, k.field = field ∧ k.id = id ∧ k.scanned idLen := by
  have hresult := foldl_rankKey (keys.ordered idLen field) [] 0 (fun _ => none) id
  constructor
  · intro hsome
    rcases hresult with ⟨e, he, hid, -⟩ | ⟨-, hnone⟩
    · have hmem := mem_map_of_mem (f := Prod.fst) he
      rw [map_fst_ranksFrom] at hmem
      obtain ⟨hmem, hfield, hscanned⟩ := mem_ordered.mp hmem
      exact ⟨e.1, hmem, hfield, hid, hscanned⟩
    · have hnone' : sortOrder keys idLen field id = none := hnone
      rw [hnone'] at hsome
      cases hsome
  · rintro ⟨k, hk, hfield, hid, hscanned⟩
    rcases hresult with ⟨e, -, -, hsome⟩ | ⟨hnone, -⟩
    · exact Option.isSome_iff_exists.mpr ⟨e.2, hsome⟩
    · exact absurd hid (hnone k (mem_ordered.mpr ⟨hk, hfield, hscanned⟩))

theorem rank_of_single (ha : keys.Single field a) (hp : p ∈ sortOrder keys idLen field a.id) :
    ∃ e ∈ ranksFrom [] 0 (keys.ordered idLen field),
      e.1.data = a.data ∧ e.1.suffix idLen = a.suffix idLen ∧ e.2 = p ∧ a.scanned idLen := by
  rcases foldl_rankKey (keys.ordered idLen field) [] 0 (fun _ => none) a.id with
    ⟨e, he, hid, hresult⟩ | ⟨-, hresult⟩
  · have hmem := mem_map_of_mem (f := Prod.fst) he
    rw [map_fst_ranksFrom] at hmem
    obtain ⟨hmem, hfield, hscanned⟩ := mem_ordered.mp hmem
    have hdata := ha.only e.1 hmem hfield hid
    have hsuffix : e.1.suffix idLen = a.suffix idLen := by
      rw [FieldKey.suffix, FieldKey.suffix, hdata, hid]
    refine ⟨e, he, hdata, hsuffix, Option.some.inj (hresult.symm.trans hp), ?_⟩
    rwa [FieldKey.scanned, hsuffix] at hscanned
  · cases hresult.symm.trans hp

theorem steps_of_ranks (keys : IndexKeys H) (idLen field : Nat) {e e' : FieldKey × Nat}
    (he : e ∈ ranksFrom [] 0 (keys.ordered idLen field))
    (he' : e' ∈ ranksFrom [] 0 (keys.ordered idLen field)) :
    e = e' ∨ Steps idLen (keys.ordered idLen field) e e' ∨
      Steps idLen (keys.ordered idLen field) e' e :=
  Steps.of_mem (pairwise_ranksFrom [] 0 (ordered_sorted keys idLen field)) he he'

theorem rank_lt_iff {e e' : FieldKey × Nat} (he : e ∈ ranksFrom [] 0 (keys.ordered idLen field))
    (he' : e' ∈ ranksFrom [] 0 (keys.ordered idLen field)) (hne : e.1.data ≠ e'.1.data) :
    e.2 < e'.2 ↔ e.1.suffix idLen < e'.1.suffix idLen := by
  rcases steps_of_ranks keys idLen field he he' with rfl | hsteps | hsteps
  · exact absurd rfl hne
  · refine iff_of_true ?_ (lt_of_le_of_data_ne hsteps.suffix hne)
    exact Nat.lt_of_le_of_ne hsteps.le fun heq => hne (hsteps.data heq.symm).symm
  · exact iff_of_false (Nat.not_lt.mpr hsteps.le) (List.not_lt.mpr hsteps.suffix)

variable (h : keys.Sortable idLen field)
include h

theorem IndexKeys.Sortable.rank_eq (ha : keys.Single field a)
    (hb : keys.Single field b) (hp : p ∈ sortOrder keys idLen field a.id)
    (hq : q ∈ sortOrder keys idLen field b.id) (hdata : a.data = b.data) : p = q := by
  obtain ⟨e, he, hea, hsa, rfl, -⟩ := rank_of_single ha hp
  obtain ⟨e', he', heb, hsb, rfl, -⟩ := rank_of_single hb hq
  rcases steps_of_ranks keys idLen field he he' with rfl | hsteps | hsteps
  · rfl
  · refine (hsteps.same fun k hk hle hle' => ?_).symm
    obtain ⟨hk, hfield, -⟩ := mem_ordered.mp hk
    exact (h.beside a b ha hb hdata k hk hfield (hsa ▸ hle) (hsb ▸ hle')).trans hea.symm
  · refine hsteps.same fun k hk hle hle' => ?_
    obtain ⟨hk, hfield, -⟩ := mem_ordered.mp hk
    exact (h.beside b a hb ha hdata.symm k hk hfield (hsb ▸ hle) (hsa ▸ hle')).trans heb.symm

theorem IndexKeys.Sortable.rank_lt (ha : keys.Single field a)
    (hb : keys.Single field b) (hp : p ∈ sortOrder keys idLen field a.id)
    (hq : q ∈ sortOrder keys idLen field b.id) (hdata : a.data < b.data) : p < q := by
  obtain ⟨e, he, hea, hsa, rfl, -⟩ := rank_of_single ha hp
  obtain ⟨e', he', heb, hsb, rfl, -⟩ := rank_of_single hb hq
  refine (rank_lt_iff he he' ?_).mpr ?_
  · rw [hea, heb]
    exact fun heq => List.lt_irrefl _ (heq ▸ hdata)
  · rw [hsa, hsb]
    exact h.below a b ha hb hdata

theorem IndexKeys.Sortable.ranks : keys.Ranks idLen field := by
  refine ⟨fun k hk hfield => isSome_sortOrder.mpr (h.scanned k hk hfield), ?_⟩
  intro a b ha hb p hp q hq
  have hlt := h.rank_lt ha hb hp hq
  have hgt := h.rank_lt hb ha hq hp
  have heq := h.rank_eq ha hb hp hq
  by_cases hab : a.data < b.data
  · have hne : a.data ≠ b.data := fun hsame => List.lt_irrefl _ (hsame ▸ hab)
    exact ⟨iff_of_true (hlt hab) hab, iff_of_false (Nat.ne_of_lt (hlt hab)) hne⟩
  · rcases List.le_iff_lt_or_eq.mp (List.not_lt.mp hab) with hba | hsame
    · have hne : a.data ≠ b.data := fun hsame => List.lt_irrefl _ (hsame ▸ hba)
      exact ⟨iff_of_false (Nat.lt_asymm (hgt hba)) hab, iff_of_false (Nat.ne_of_gt (hgt hba)) hne⟩
    · have hpq := heq hsame.symm
      exact ⟨iff_of_false (by omega) hab, iff_of_true hpq hsame.symm⟩

omit h

theorem IndexKeys.Ranks.rank (h : keys.Ranks idLen field) (ha : keys.Single field a) :
    ∃ p, p ∈ sortOrder keys idLen field a.id :=
  Option.isSome_iff_exists.mp (h.all a ha.mem ha.field_eq)

theorem IndexKeys.Ranks.sortable (h : keys.Ranks idLen field) : keys.Sortable idLen field := by
  refine ⟨fun k hk hfield => isSome_sortOrder.mp (h.all k hk hfield), ?_, ?_⟩
  · intro a b ha hb hdata
    obtain ⟨p, hp⟩ := h.rank ha
    obtain ⟨q, hq⟩ := h.rank hb
    have hpq := (h.compare a b ha hb p hp q hq).1.mpr hdata
    obtain ⟨e, he, hea, hsa, rfl, -⟩ := rank_of_single ha hp
    obtain ⟨e', he', heb, hsb, rfl, -⟩ := rank_of_single hb hq
    rw [← hsa, ← hsb]
    refine (rank_lt_iff he he' ?_).mp hpq
    rw [hea, heb]
    exact fun heq => List.lt_irrefl _ (heq ▸ hdata)
  · intro a b ha hb hdata k hk hfield hle hle'
    obtain ⟨p, hp⟩ := h.rank ha
    obtain ⟨q, hq⟩ := h.rank hb
    have hpq := (h.compare a b ha hb p hp q hq).2.mpr hdata
    obtain ⟨e, he, hea, hsa, rfl, hscana⟩ := rank_of_single ha hp
    obtain ⟨e', he', heb, hsb, rfl, hscanb⟩ := rank_of_single hb hq
    have hmem : k ∈ (ranksFrom [] 0 (keys.ordered idLen field)).map Prod.fst := by
      rw [map_fst_ranksFrom]
      exact mem_ordered.mpr ⟨hk, hfield, List.le_trans hscana.1 hle, List.le_trans hle' hscanb.2⟩
    obtain ⟨e'', he'', rfl⟩ := mem_map.mp hmem
    by_contra hne
    -- a key of another value in between has a position in between
    have hbefore : e.2 < e''.2 := by
      have hne' : e.1.data ≠ e''.1.data := fun heq => hne (heq.symm.trans hea)
      exact (rank_lt_iff he he'' hne').mpr (lt_of_le_of_data_ne (hsa ▸ hle) hne')
    have hafter : e''.2 < e'.2 := by
      have hne' : e''.1.data ≠ e'.1.data := fun heq => hne (heq.trans (heb.trans hdata.symm))
      exact (rank_lt_iff he'' he' hne').mpr (lt_of_le_of_data_ne (hsb ▸ hle') hne')
    omega

end Order

/-! ## Sorting by positions -/

theorem notAfter_total (a b : Nat) : (notAfter cs a b || notAfter cs b a) = true := by
  induction cs with
  | nil => rfl
  | cons c cs ih =>
    cases c with
    | field f ascending => exact ih
    | documentSet set ascending | sortedSet set ascending =>
      simp only [notAfter, SearchComparator.rank, Bool.or_eq_true] at ih ⊢
      split_ifs <;> simp_all

theorem notAfter_trans (a b c : Nat) (hab : notAfter cs a b = true) (hbc : notAfter cs b c = true) : notAfter cs a c = true := by
  induction cs with
  | nil => rfl
  | cons x cs ih =>
    cases x with
    | field f ascending => exact ih hab hbc
    | documentSet set ascending | sortedSet set ascending =>
      simp only [notAfter, SearchComparator.rank] at hab hbc ⊢
      split_ifs at hab hbc ⊢ <;> simp_all <;> omega

/-- The documents in the order of the comparators, those that compare alike by their ids. -/
structure Sorted (cs : List SearchComparator) (results : Bitmap) (ids : List Nat) : Prop where
  perm : ids.Perm (results.sort (· ≤ ·))
  sorted : ids.Pairwise fun a b => notAfter cs a b = true
  stable : ∀ a ∈ results, ∀ b ∈ results, a < b → notAfter cs a b = true → [a, b].Sublist ids

theorem pair_sublist_sort {results : Bitmap} {a b : Nat} (ha : a ∈ results) (hb : b ∈ results)
    (hlt : a < b) : [a, b].Sublist (results.sort (· ≤ ·)) := by
  refine sublist_of_subperm_of_pairwise ?_ (pairwise_pair.mpr hlt.le)
    (Finset.pairwise_sort results (· ≤ ·))
  refine subperm_of_subset (by simpa using hlt.ne) fun x hx => ?_
  rcases mem_pair.mp hx with rfl | rfl
  · exact (Finset.mem_sort _).mpr ha
  · exact (Finset.mem_sort _).mpr hb

theorem sorted_mergeSort (results : Bitmap) (cs : List SearchComparator) :
    Sorted cs results ((results.sort (· ≤ ·)).mergeSort (notAfter cs)) where
  perm := mergeSort_perm _ _
  sorted := pairwise_mergeSort (notAfter_trans cs) (notAfter_total cs) _
  stable _ ha _ hb hlt hab :=
    pair_sublist_mergeSort (notAfter_trans cs) (notAfter_total cs) hab (pair_sublist_sort ha hb hlt)

/-- Without comparators, or with fewer than two documents, the ids stay as they are. -/
theorem sorted_sort {results : Bitmap} {cs : List SearchComparator}
    (h : results.card ≤ 1 ∨ cs = []) : Sorted cs results (results.sort (· ≤ ·)) where
  perm := List.Perm.refl _
  sorted := by
    rcases h with hcard | rfl
    · have hlen : (results.sort (· ≤ ·)).length ≤ 1 := (Finset.length_sort _).trans_le hcard
      match hsort : results.sort (· ≤ ·), hlen with
      | [], _ => exact List.Pairwise.nil
      | [a], _ => exact pairwise_singleton _ a
    · exact pairwise_of_forall fun _ _ => rfl
  stable _ ha _ hb hlt _ := pair_sublist_sort ha hb hlt

theorem sorted_sortResults (keys : IndexKeys H) (results : Bitmap) (cs : List SearchComparator) :
    Sorted (cs.map (·.resolve keys)) results (sortResults keys results cs) := by
  unfold sortResults
  split
  · rename_i hmany
    rw [QueryResults.intoSorted]
    split
    · rename_i hnone
      rw [Bool.or_eq_true, List.isEmpty_iff, List.isEmpty_iff] at hnone
      refine sorted_sort (hnone.imp_left fun hnil => ?_)
      rw [← Finset.length_sort (· ≤ ·), hnil]
      exact Nat.zero_le 1
    · exact sorted_mergeSort results _
  · rename_i hfew
    refine sorted_sort ?_
    by_cases hcs : cs = []
    · rw [hcs]
      exact .inr rfl
    · exact .inl (Nat.not_lt.mp fun hmany => hfew ⟨hmany, hcs⟩)

/-- The positions follow the values exactly when the keys do; the results are sorted by whatever
positions there are. -/
theorem sortOrder_ranks_iff (keys : IndexKeys H) (idLen field : Nat) :
    (keys.Ranks idLen field ↔ keys.Sortable idLen field) ∧
      ∀ results cs, Sorted (cs.map (·.resolve keys)) results (sortResults keys results cs) :=
  ⟨⟨IndexKeys.Ranks.sortable, IndexKeys.Sortable.ranks⟩, sorted_sortResults keys⟩

/-- The id of the shorter value takes it behind the longer one. -/
theorem not_ranks_extended :
    ¬ (⟨[], [⟨1, [97], 1⟩, ⟨1, [97, 0], 0⟩]⟩ : IndexKeys Unit).Ranks 4 1 := by
  intro h
  have hbelow := h.sortable.below ⟨1, [97], 1⟩ ⟨1, [97, 0], 0⟩
    ⟨by decide, rfl, by decide⟩ ⟨by decide, rfl, by decide⟩ (by decide)
  revert hbelow
  decide

end Bearmail.Search
