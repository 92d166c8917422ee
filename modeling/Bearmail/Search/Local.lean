import Bearmail.Search.Desync

/-!
# Merging document sets locally

`SearchQuery::filter` of `local.rs`: the evaluation loop over `DocumentSet`
leaves.
-/

namespace Bearmail.Search

open Nested

/-- `Operator` filters are passed over, `DocumentSet` filters are taken as they are. -/
def localVal : SearchLeaf → Option (Option Bitmap)
  | .operator _ _ _ => none
  | .documentSet set => some (some set)

def localBackend : Backend Unit Empty Nat where
  leaf a s := .ok (localVal a, s)
  group _ := .ok ()

def SearchQuery.filter (q : SearchQuery) : QueryResults :=
  if q.filters.isEmpty then ⟨q.mask, q.comparators⟩
  else
    match evalLoop localBackend q.mask q.filters false () ⟨.and, none⟩ [] with
    | .ok state => ⟨state.bm.getD ∅ ∩ q.mask, q.comparators⟩
    | .error e => e.elim

theorem localSpec : LeafSpec localVal localBackend (fun _ => True) (fun _ => True) where
  leaf _ _ := ⟨(), rfl, trivial⟩

theorem local_accepted (f : Forest SearchLeaf) : Accepted localBackend (fun _ => True) f := by
  induction f with
  | nil => trivial
  | leaf a rest ih => exact ⟨trivial, ih⟩
  | group op members rest ihm ih => exact ⟨rfl, ihm, ih⟩

variable {q : SearchQuery}

theorem filter_results_of_run {state : State Nat} (hne : q.filters ≠ [])
    (h : evalLoop localBackend q.mask q.filters false () ⟨.and, none⟩ [] = .ok state) :
    q.filter.results = state.bm.getD ∅ ∩ q.mask := by
  have he : q.filters.isEmpty = false := by simpa using hne
  simp [SearchQuery.filter, he, h]

/-- What `filter` returns for a list that stays in step: with operators passed
over, the list must still have a member. -/
theorem filter_eq_reference {f : Forest SearchLeaf} (hq : q.filters = filters f)
    (hmem : hasMember localVal f = true) (hsync : topInSync q.mask localVal f none = true)
    (hpop : populated localVal f = true) : q.filter.results = reference q.mask localVal f := by
  have hne : q.filters ≠ [] := by
    cases f <;> simp_all [filters, Forest.render, hasMember]
  have hrun := evalLoop_top localSpec f (local_accepted f) none () trivial hsync
  rw [← hq] at hrun
  rw [filter_results_of_run hne hrun, running_inter_mask f hpop hmem]

/-! ## Document sets only -/

def documentFilters (f : Forest Bitmap) : List SearchFilter :=
  filters (f.map .documentSet)

/-- The reference set of a tree of document sets: intersection, union and
complement within the mask, with the top level an intersection. -/
def documentReference (mask : Bitmap) (f : Forest Bitmap) : Bitmap :=
  Op.and.combine mask (f.values mask some) ∩ mask

theorem reference_documents (mask : Bitmap) (f : Forest Bitmap) :
    reference mask localVal (f.map .documentSet) = documentReference mask f := by
  rw [reference, Forest.values_map]
  rfl

/-- No nested `And` runs empty in front of a group. -/
def staysInStep (mask : Bitmap) (f : Forest Bitmap) : Bool :=
  topInSync mask localVal (f.map .documentSet) none

def allPopulated (f : Forest Bitmap) : Bool :=
  populated localVal (f.map .documentSet)

theorem filter_documents {f : Forest Bitmap} (hq : q.filters = documentFilters f)
    (hsync : staysInStep q.mask f = true) (hpop : allPopulated f = true) :
    q.filter.results = documentReference q.mask f := by
  cases f with
  | nil =>
    have he : q.filters = [] := hq
    simp [SearchQuery.filter, he, documentReference, Forest.values, Op.combine]
  | leaf a rest => rw [← reference_documents]; exact filter_eq_reference hq rfl hsync hpop
  | group op members rest =>
    rw [← reference_documents]; exact filter_eq_reference hq rfl hsync hpop

/-! ## Groups inside other queries -/

theorem localPlain : PlainSets localBackend := ⟨rfl, fun _ _ => rfl⟩

theorem filter_inside_empty {mask : Bitmap} {o : Op} {h : Forest Bitmap}
    (hin : inSync mask localVal (h.map .documentSet) o none = false) (index : SearchIndex)
    (comparators : List SearchComparator) :
    ∃ us, mask ∈ us ∧ (SearchQuery.filter ⟨index, documentFilters (.inside us (.group o h .nil)),
      comparators, mask⟩).results = ∅ := by
  have hn : inSync mask localVal (.group o (h.map .documentSet) .nil) .or none = false := by
    simp [inSync, hin]
  obtain ⟨us, hus, state, hbm, hrun⟩ := evalLoop_inside_empty localSpec localPlain
    (local_accepted (.group o (h.map .documentSet) .nil)) trivial hn
  have hfs : documentFilters (.inside us (.group o h .nil)) =
      filters (.inside (us.map .documentSet) (.group o (h.map .documentSet) .nil)) := by
    rw [documentFilters, Forest.map_inside]
    rfl
  have hne : documentFilters (.inside us (.group o h .nil)) ≠ [] := by
    rw [hfs, filters_inside]
    simp [filters_group]
  refine ⟨us, hus, ?_⟩
  rw [← hfs] at hrun
  rw [filter_results_of_run hne hrun, hbm]
  simp

/-- The members of the query of `nested_and_loses_its_end`. -/
def nestedAnd : Forest Bitmap :=
  .group .or (.group .and (.leaf ∅ (.group .or (.leaf {1} .nil) (.leaf {2} .nil))) .nil) .nil

end Bearmail.Search
