import Bearmail.Search.Local

/-!
# Splitting a query between the external index and local sets

`split_filters` of `split.rs`. A first pass reorders every group: its groups
first, then its operators, then one document set merged from all of its own. A
second pass cuts the list into parts for the external backend and filters that
are evaluated locally.
-/

namespace Bearmail.Search

open Nested
open List hiding set

def u64Max : Nat := 2 ^ 64 - 1

inductive SplitFilter where
  | internal (filter : SearchFilter)
  | external (filters : List SearchFilter)
  deriving DecidableEq

/-- The state of the first pass. The operators and document sets that wait for
the end of their group are kept by depth. -/
structure Collect where
  accountId : Nat
  filtersOut : List SearchFilter
  opStack : List Op
  documentSets : Nat → Option Bitmap
  operators : Nat → Option (List SearchFilter)

/-- One more document set on a level: a union under `Or`, else an intersection. -/
def mergeSet : Option Op → Option Bitmap → Bitmap → Bitmap
  | _, none, docs => docs
  | some .or, some entry, docs => entry ∪ docs
  | _, some entry, docs => entry ∩ docs

/-- What waits on the level of depth `n` is appended. -/
def Collect.flush (s : Collect) (n : Nat) : Collect :=
  { s with
    filtersOut := s.filtersOut ++ ((s.operators n).getD [] ++
      ((s.documentSets n).map SearchFilter.documentSet).toList)
    operators := Function.update s.operators n none
    documentSets := Function.update s.documentSets n none }

def Collect.open (s : Collect) (op : Op) : Collect :=
  { s with opStack := op :: s.opStack, filtersOut := s.filtersOut ++ [.ofOp op] }

def Collect.addOperator (s : Collect) (filter : SearchFilter) : Collect :=
  let n := s.opStack.length
  let waiting := (s.operators n).getD [] ++ [filter]
  { s with operators := Function.update s.operators n (some waiting) }

def Collect.addSet (s : Collect) (docs : Bitmap) : Collect :=
  let n := s.opStack.length
  let merged := mergeSet s.opStack.head? (s.documentSets n) docs
  { s with documentSets := Function.update s.documentSets n (some merged) }

/-- One filter of the first pass; an `End` without a group ends it with `None`. -/
def Collect.step (s : Collect) : SearchFilter → Option Collect
  | .and => some (s.open .and)
  | .or => some (s.open .or)
  | .not => some (s.open .not)
  | .endGroup =>
    let s := s.flush s.opStack.length
    match s.opStack with
    | [] => none
    | _ :: opStack => some { s with opStack, filtersOut := s.filtersOut ++ [.endGroup] }
  | .operator .accountId _ (.uint id) => some { s with accountId := id }
  | .operator field op value => some (s.addOperator (.operator field op value))
  | .documentSet docs => some (s.addSet docs)

def Collect.run : List SearchFilter → Collect → Option Collect
  | [], s => some s
  | filter :: filters, s => (s.step filter).bind (Collect.run filters)

def Collect.empty : Collect := ⟨u64Max, [], [], fun _ => none, fun _ => none⟩

/-- What the scan of the second pass finds from position `i` on. -/
inductive Scan where
  /-- the next `n` filters go to the external backend -/
  | chunk (n : Nat)
  /-- the filter at `i` stays local -/
  | first
  deriving DecidableEq

def scanFrom : List SearchFilter → Nat → Nat → Scan
  | [], _, j => .chunk j
  | filter :: filters, depth, j =>
    match filter with
    | .and | .or | .not => scanFrom filters (depth + 1) (j + 1)
    | .endGroup =>
      -- the depth would become negative: the group around `i` ends here
      if depth = 0 then (if j > 0 then .chunk j else .first)
      else scanFrom filters (depth - 1) (j + 1)
    | .operator _ _ _ => scanFrom filters depth (j + 1)
    | .documentSet _ => if depth = 0 ∧ j > 0 then .chunk j else .first

/-- The part of a query that goes to the external backend. `addOr` restores the
`Or` it stands in. -/
def externalFilters (accountId : Nat) (addOr : Bool) (chunk : List SearchFilter) :
    List SearchFilter :=
  .operator .accountId .equal (.uint accountId) ::
    if addOr then .or :: (chunk ++ [.endGroup]) else chunk

/-- The second pass, from position `i` on; `last` is what was pushed last. Every
round consumes a filter, so the length of the list is enough fuel. -/
def splitLoop (accountId : Nat) : Nat → List SearchFilter → Option SplitFilter → List SplitFilter
  | 0, _, _ => []
  | _, [], _ => []
  | fuel + 1, filter :: filters, last =>
    match scanFrom (filter :: filters) 0 0 with
    | .first =>
      .internal filter :: splitLoop accountId fuel filters (some (.internal filter))
    | .chunk n =>
      let addOr := decide (last = some (.internal .or)) && decide (n > 1)
      let part := externalFilters accountId addOr ((filter :: filters).take n)
      .external part :: splitLoop accountId fuel ((filter :: filters).drop n) (some (.external part))

def splitFilters (filtersIn : List SearchFilter) : Option (List SplitFilter) :=
  match Collect.run filtersIn .empty with
  | none => none
  | some s =>
    let s := s.flush 0
    if s.accountId = u64Max then none
    else some (splitLoop s.accountId s.filtersOut.length s.filtersOut none)

/-! ## The first pass -/

/-- The account a leaf names; such a leaf is not a member of its group. -/
def SearchLeaf.account? : SearchLeaf → Option Nat
  | .operator .accountId _ (.uint id) => some id
  | _ => none

def lastAccount : Forest SearchLeaf → Nat → Nat
  | .nil, id => id
  | .leaf a rest, id => lastAccount rest (a.account?.getD id)
  | .group _ members rest, id => lastAccount rest (lastAccount members id)

def directOperators : Forest SearchLeaf → List SearchLeaf
  | .nil => []
  | .leaf (.operator field op value) rest =>
    if (SearchLeaf.operator field op value).account?.isSome then directOperators rest
    else .operator field op value :: directOperators rest
  | .leaf (.documentSet _) rest => directOperators rest
  | .group _ _ rest => directOperators rest

def directSets : Forest SearchLeaf → List Bitmap
  | .nil => []
  | .leaf (.operator _ _ _) rest => directSets rest
  | .leaf (.documentSet set) rest => set :: directSets rest
  | .group _ _ rest => directSets rest

def mergeSets (op : Option Op) (entry : Option Bitmap) (sets : List Bitmap) : Option Bitmap :=
  sets.foldl (fun entry docs => some (mergeSet op entry docs)) entry

def leavesThen : List SearchLeaf → Forest SearchLeaf → Forest SearchLeaf
  | [], f => f
  | a :: as, f => .leaf a (leavesThen as f)

/-- What a level ends with: its operators and its merged document set. -/
def levelEnd (ops : List SearchLeaf) (docs : Option Bitmap) : Forest SearchLeaf :=
  leavesThen ops (match docs with
    | none => .nil
    | some docs => .leaf (.documentSet docs) .nil)

def arrangeGroups : Forest SearchLeaf → Forest SearchLeaf
  | .nil => .nil
  | .leaf _ rest => arrangeGroups rest
  | .group op members rest =>
    .group op ((arrangeGroups members).append
      (levelEnd (directOperators members) (mergeSets (some op) none (directSets members))))
      (arrangeGroups rest)

def arrange (op : Option Op) (f : Forest SearchLeaf) : Forest SearchLeaf :=
  (arrangeGroups f).append (levelEnd (directOperators f) (mergeSets op none (directSets f)))

variable (ops : List SearchLeaf) (accountId : Nat) (f : Forest SearchLeaf) (fs : List SearchFilter)
  (s : Collect)

theorem filters_append (g : Forest SearchLeaf) : filters (f.append g) = filters f ++ filters g :=
  Forest.render_append _ _ _ f g

theorem filters_levelEnd (docs : Option Bitmap) : filters (levelEnd ops docs) =
      ops.map SearchLeaf.toFilter ++ (docs.map SearchFilter.documentSet).toList := by
  induction ops with
  | nil => cases docs <;> rfl
  | cons a ops ih =>
    show a.toFilter :: filters (levelEnd ops docs) = _
    simp [ih]

def addOperators (waiting : Option (List SearchFilter)) (ops : List SearchLeaf) :
    Option (List SearchFilter) :=
  if ops = [] then waiting else some (waiting.getD [] ++ ops.map SearchLeaf.toFilter)

theorem addOperators_nil (waiting : Option (List SearchFilter)) : addOperators waiting [] = waiting :=
  rfl

theorem addOperators_cons (waiting : Option (List SearchFilter)) (a : SearchLeaf)
    (ops : List SearchLeaf) :
    addOperators (some (waiting.getD [] ++ [a.toFilter])) ops = addOperators waiting (a :: ops) := by
  by_cases h : ops = []
  · subst h
    simp [addOperators]
  · simp [addOperators, h]

theorem getD_addOperators_none : (addOperators none ops).getD [] = ops.map SearchLeaf.toFilter := by
  by_cases h : ops = []
  · subst h
    rfl
  · simp [addOperators, h]

def Collect.after (s : Collect) (f : Forest SearchLeaf) : Collect :=
  { accountId := lastAccount f s.accountId
    filtersOut := s.filtersOut ++ filters (arrangeGroups f)
    opStack := s.opStack
    documentSets := Function.update s.documentSets s.opStack.length
      (mergeSets s.opStack.head? (s.documentSets s.opStack.length) (directSets f))
    operators := Function.update s.operators s.opStack.length
      (addOperators (s.operators s.opStack.length) (directOperators f)) }

/-- Nothing waits below the level the pass is on. -/
def Collect.Settled (s : Collect) : Prop :=
  ∀ n, s.opStack.length < n → s.operators n = none ∧ s.documentSets n = none

theorem Collect.step_ofOp (op : Op) : s.step (.ofOp op) = some (s.open op) := by
  cases op <;> rfl

theorem Collect.step_endGroup {s : Collect} (h : s.Settled) (op : Op) (f : Forest SearchLeaf) :
    ((s.open op).after f).step .endGroup =
      some { s with
        accountId := lastAccount f s.accountId
        filtersOut := s.filtersOut ++ filters (.group op (arrange (some op) f) .nil) } := by
  obtain ⟨ho, hd⟩ := h (s.opStack.length + 1) (Nat.lt_succ_self _)
  have hops : Function.update s.operators (s.opStack.length + 1) none = s.operators := by
    rw [← ho, Function.update_eq_self]
  have hsets : Function.update s.documentSets (s.opStack.length + 1) none = s.documentSets := by
    rw [← hd, Function.update_eq_self]
  simp only [Collect.step, Collect.flush, Collect.after, Collect.open, length_cons,
    Function.update_self, Function.update_idem, hops, hsets, ho, hd, List.head?_cons,
    getD_addOperators_none, arrange, filters_group, filters_append, filters_levelEnd]
  simp [filters, Forest.render]

theorem Collect.step_account {field : SearchField} {op : SearchOperator} {value : SearchValue}
    {id : Nat} (h : (SearchLeaf.operator field op value).account? = some id) :
    s.step (.operator field op value) = some { s with accountId := id } := by
  unfold SearchLeaf.account? at h
  split at h
  · rename_i heq
    obtain ⟨rfl, rfl, rfl⟩ := SearchLeaf.operator.inj heq
    obtain rfl := Option.some.inj h
    rfl
  · simp at h

theorem Collect.step_operator {field : SearchField} {op : SearchOperator} {value : SearchValue}
    (h : (SearchLeaf.operator field op value).account? = none) :
    s.step (.operator field op value) = some (s.addOperator (.operator field op value)) := by
  unfold Collect.step
  split <;> simp_all [SearchLeaf.account?]

theorem Collect.settled_addOperator {s : Collect} (h : s.Settled) (filter : SearchFilter) :
    (s.addOperator filter).Settled := by
  intro n hn
  have hne : n ≠ s.opStack.length := Nat.ne_of_gt hn
  exact ⟨by simpa [Collect.addOperator, hne] using (h n hn).1, (h n hn).2⟩

theorem Collect.settled_addSet {s : Collect} (h : s.Settled) (docs : Bitmap) :
    (s.addSet docs).Settled := by
  intro n hn
  have hne : n ≠ s.opStack.length := Nat.ne_of_gt hn
  exact ⟨(h n hn).1, by simpa [Collect.addSet, hne] using (h n hn).2⟩

theorem collect_filters (hs : s.Settled) : Collect.run (filters f ++ fs) s = Collect.run fs (s.after f) := by
  induction f generalizing fs s with
  | nil =>
    have h : s.after .nil = s := by
      simp [Collect.after, lastAccount, arrangeGroups, filters, Forest.render, directSets,
        mergeSets, directOperators, addOperators_nil]
    rw [h]
    rfl
  | leaf a rest ih =>
    cases a with
    | operator field op value =>
      show (s.step (.operator field op value)).bind _ = _
      cases ha : (SearchLeaf.operator field op value).account? with
      | some id =>
        rw [s.step_account ha]
        refine (ih fs { s with accountId := id } hs).trans ?_
        simp [Collect.after, lastAccount, arrangeGroups, directSets, directOperators, ha]
      | none =>
        rw [s.step_operator ha]
        refine (ih fs _ (Collect.settled_addOperator hs _)).trans ?_
        have hadd := addOperators_cons (s.operators s.opStack.length)
          (.operator field op value) (directOperators rest)
        simp only [SearchLeaf.toFilter] at hadd
        simp [Collect.after, Collect.addOperator, lastAccount, arrangeGroups, directSets,
          directOperators, ha, hadd]
    | documentSet docs =>
      refine Eq.trans (ih fs _ (Collect.settled_addSet hs docs)) ?_
      simp [Collect.after, Collect.addSet, lastAccount, SearchLeaf.account?, arrangeGroups,
        directSets, directOperators, mergeSets]
  | group op members rest ihm ih =>
    have hopen : (s.open op).Settled := by
      intro n hn
      exact hs n (Nat.lt_of_succ_lt hn)
    rw [filters_group_append]
    show (s.step (.ofOp op)).bind _ = _
    rw [s.step_ofOp, Option.bind_some, ihm _ _ hopen]
    show (((s.open op).after members).step .endGroup).bind _ = _
    rw [Collect.step_endGroup hs]
    have hclosed : ({ s with
        accountId := lastAccount members s.accountId
        filtersOut := s.filtersOut ++ filters (.group op (arrange (some op) members) .nil) } :
          Collect).Settled := hs
    refine (ih fs _ hclosed).trans ?_
    simp [Collect.after, lastAccount, arrangeGroups, arrange, directSets, directOperators,
      filters, Forest.render]

/-! ## The second pass -/

def hasSets : Forest SearchLeaf → Bool
  | .nil => false
  | .leaf (.operator _ _ _) rest => hasSets rest
  | .leaf (.documentSet _) _ => true
  | .group _ members rest => hasSets members || hasSets rest

/-- Whether a document set occurs inside a group of the level: then the first
group is opened locally, even if the set is in a later one. -/
def opens : Forest SearchLeaf → Bool
  | .nil => false
  | .leaf _ rest => opens rest
  | .group _ members rest => hasSets members || opens rest

def externalPart : Forest SearchLeaf → Forest SearchLeaf
  | .nil => .nil
  | .leaf (.operator field op value) rest => .leaf (.operator field op value) (externalPart rest)
  | .leaf (.documentSet _) rest => externalPart rest
  | .group op members rest => .group op members (externalPart rest)

/-- Groups first, then operators, then at most one document set, on every level. -/
def Arranged : Forest SearchLeaf → Prop
  | .nil => True
  | .leaf (.operator field op value) rest =>
    rest.hasGroup = false ∧ (SearchLeaf.operator field op value).account? = none ∧ Arranged rest
  | .leaf (.documentSet _) rest => rest = .nil
  | .group _ members rest => Arranged members ∧ Arranged rest

/-- The rest of a level without document sets inside groups: one part for the
external backend, and the document set of the level. -/
def splitChunk (accountId : Nat) (op : Op) (first : Bool) (f : Forest SearchLeaf) :
    List SplitFilter :=
  let chunk := filters (externalPart f)
  (if chunk = [] then []
    else [SplitFilter.external (externalFilters accountId
      (decide (op = .or) && first && decide (chunk.length > 1)) chunk)]) ++
    (directSets f).map fun set => .internal (.documentSet set)

/-- The second pass over the members of a level of kind `op`; `first` as long as
nothing of the level was pushed. -/
def splitForest (accountId : Nat) : Op → Bool → Forest SearchLeaf → List SplitFilter
  | op, first, .nil => splitChunk accountId op first .nil
  | op, first, .leaf a rest => splitChunk accountId op first (.leaf a rest)
  | op, first, .group o members rest =>
    if hasSets members || opens rest then
      .internal (.ofOp o) :: (splitForest accountId o true members ++
        .internal .endGroup :: splitForest accountId op false rest)
    else splitChunk accountId op first (.group o members rest)

theorem scanFrom_ofOp (op : Op) (fs : List SearchFilter) (depth j : Nat) :
    scanFrom (.ofOp op :: fs) depth j = scanFrom fs (depth + 1) (j + 1) := by
  cases op <;> rfl

theorem scanFrom_endGroup (depth j : Nat) :
    scanFrom (.endGroup :: fs) (depth + 1) j = scanFrom fs depth (j + 1) := rfl

theorem scanFrom_noSets (hf : hasSets f = false) (fs : List SearchFilter) (depth j : Nat) :
    scanFrom (filters f ++ fs) depth j = scanFrom fs depth (j + (filters f).length) := by
  induction f generalizing fs depth j with
  | nil => rfl
  | leaf a rest ih =>
    cases a with
    | operator field op value =>
      show scanFrom (filters rest ++ fs) depth (j + 1) = _
      rw [ih hf]
      congr 1
      simp [filters, Forest.render]
      omega
    | documentSet docs => simp [hasSets] at hf
  | group op members rest ihm ih =>
    simp only [hasSets, Bool.or_eq_false_iff] at hf
    rw [filters_group_append, scanFrom_ofOp, ihm hf.1, scanFrom_endGroup, ih hf.2]
    congr 1
    simp [filters_group]
    omega

theorem scanFrom_hasSets (hf : hasSets f = true) (fs : List SearchFilter) (depth j : Nat) : scanFrom (filters f ++ fs) (depth + 1) j = .first := by
  induction f generalizing fs depth j with
  | nil => simp [hasSets] at hf
  | leaf a rest ih =>
    cases a with
    | operator field op value => exact ih hf fs depth (j + 1)
    | documentSet docs => simp [filters, Forest.render, SearchLeaf.toFilter, scanFrom]
  | group op members rest ihm ih =>
    rw [filters_group_append, scanFrom_ofOp]
    cases hm : hasSets members with
    | true => exact ihm hm _ (depth + 1) (j + 1)
    | false =>
      rw [scanFrom_noSets members hm]
      have hr : hasSets rest = true := by simpa [hasSets, hm] using hf
      exact ih hr fs depth _

theorem opens_of_no_group {f : Forest SearchLeaf} (h : f.hasGroup = false) : opens f = false := by
  induction f with
  | nil => rfl
  | leaf a rest ih => exact ih h
  | group op members rest _ _ => simp [Forest.hasGroup] at h

theorem opens_leaf {a : SearchLeaf} {rest : Forest SearchLeaf} (ha : Arranged (.leaf a rest)) :
    opens (.leaf a rest) = false := by
  cases a with
  | operator field op value => exact opens_of_no_group ha.1
  | documentSet docs =>
    obtain rfl : rest = .nil := ha
    rfl

/-- A document set in a group further on makes the scan keep the first group local. -/
theorem scanFrom_opens (hf : opens f = true) (fs : List SearchFilter) (j : Nat) (ha : Arranged f) : scanFrom (filters f ++ fs) 0 j = .first := by
  induction f generalizing fs j with
  | nil => simp [opens] at hf
  | leaf a rest ih => simp [opens_leaf ha] at hf
  | group op members rest _ ih =>
    rw [filters_group_append, scanFrom_ofOp]
    cases hm : hasSets members with
    | true => exact scanFrom_hasSets members hm _ 0 (j + 1)
    | false =>
      rw [scanFrom_noSets members hm]
      have hr : opens rest = true := by simpa [opens, hm] using hf
      exact ih hr fs _ ha.2

theorem filters_arranged (ha : Arranged f) :
    filters f = filters (externalPart f) ++ (directSets f).map SearchFilter.documentSet := by
  induction f with
  | nil => rfl
  | leaf a rest ih =>
    cases a with
    | operator field op value =>
      show _ :: filters rest = _ :: filters (externalPart rest) ++ _
      rw [ih ha.2.2]
      rfl
    | documentSet docs =>
      obtain rfl : rest = .nil := ha
      rfl
  | group op members rest _ ih =>
    rw [externalPart, filters_group, filters_group, ih ha.2]
    simp [directSets]

theorem directSets_arranged (ha : Arranged f) : directSets f = [] ∨ ∃ set, directSets f = [set] := by
  induction f with
  | nil => exact Or.inl rfl
  | leaf a rest ih =>
    cases a with
    | operator field op value => exact ih ha.2.2
    | documentSet docs =>
      obtain rfl : rest = .nil := ha
      exact Or.inr ⟨docs, rfl⟩
  | group op members rest _ ih => exact ih ha.2

theorem hasSets_externalPart (hf : opens f = false) : hasSets (externalPart f) = false := by
  induction f with
  | nil => rfl
  | leaf a rest ih =>
    cases a with
    | operator field op value | documentSet docs => exact ih hf
  | group op members rest _ ih =>
    simp only [opens, Bool.or_eq_false_iff] at hf
    simp [externalPart, hasSets, hf.1, ih hf.2]

theorem splitLoop_first {fuel : Nat} {filter : SearchFilter} {fs : List SearchFilter}
    (last : Option SplitFilter) (h : scanFrom (filter :: fs) 0 0 = .first)
    (hfuel : (filter :: fs).length ≤ fuel) :
    ∃ fuel', fs.length ≤ fuel' ∧ splitLoop accountId fuel (filter :: fs) last =
      .internal filter :: splitLoop accountId fuel' fs (some (.internal filter)) := by
  cases fuel with
  | zero => simp at hfuel
  | succ fuel => exact ⟨fuel, by simpa using hfuel, by simp [splitLoop, h]⟩

theorem splitLoop_external {fuel : Nat} {chunk fs : List SearchFilter} (last : Option SplitFilter)
    (hne : chunk ≠ []) (h : scanFrom (chunk ++ fs) 0 0 = .chunk chunk.length)
    (hfuel : (chunk ++ fs).length ≤ fuel) :
    ∃ fuel' last', fs.length ≤ fuel' ∧ splitLoop accountId fuel (chunk ++ fs) last =
      .external (externalFilters accountId
        (decide (last = some (.internal .or)) && decide (chunk.length > 1)) chunk) ::
        splitLoop accountId fuel' fs last' := by
  cases chunk with
  | nil => exact absurd rfl hne
  | cons filter chunk =>
    cases fuel with
    | zero => simp at hfuel
    | succ fuel =>
      refine ⟨fuel, some (.external (externalFilters accountId
        (decide (last = some (.internal .or)) && decide ((filter :: chunk).length > 1))
        (filter :: chunk))), ?_, ?_⟩
      · simp only [length_append, length_cons] at hfuel
        omega
      · simp only [cons_append] at h
        simp only [cons_append, splitLoop, h]
        rw [← cons_append, take_left, drop_left]

/-- What may follow the members of a level: the end of the list or the `End` of the group. -/
def AtLevelEnd (fs : List SearchFilter) : Prop := fs = [] ∨ ∃ rest, fs = .endGroup :: rest

theorem scanFrom_atLevelEnd {fs : List SearchFilter} (h : AtLevelEnd fs) {j : Nat} (hj : 0 < j) :
    scanFrom fs 0 j = .chunk j := by
  rcases h with rfl | ⟨rest, rfl⟩
  · rfl
  · simp [scanFrom, hj]

theorem splitLoop_sets {sets : List Bitmap} (hsets : sets = [] ∨ ∃ set, sets = [set])
    (fs : List SearchFilter) {fuel : Nat} (last : Option SplitFilter)
    (hfuel : (sets.map SearchFilter.documentSet ++ fs).length ≤ fuel) :
    ∃ fuel' last', fs.length ≤ fuel' ∧
      splitLoop accountId fuel (sets.map SearchFilter.documentSet ++ fs) last =
        sets.map (fun set => SplitFilter.internal (.documentSet set)) ++
          splitLoop accountId fuel' fs last' := by
  rcases hsets with rfl | ⟨set, rfl⟩
  · exact ⟨fuel, last, hfuel, rfl⟩
  · have hscan : scanFrom (.documentSet set :: fs) 0 0 = .first := rfl
    obtain ⟨fuel', hfuel', hrun⟩ := splitLoop_first accountId last hscan hfuel
    exact ⟨fuel', _, hfuel', hrun⟩

theorem splitLoop_level (ha : Arranged f) (hf : opens f = false) (op : Op) (first : Bool)
    (fs : List SearchFilter) (hfs : AtLevelEnd fs) (fuel : Nat) (last : Option SplitFilter)
    (hlast : last = some (.internal .or) ↔ op = .or ∧ first = true)
    (hfuel : (filters f ++ fs).length ≤ fuel) :
    ∃ fuel' last', fs.length ≤ fuel' ∧ splitLoop accountId fuel (filters f ++ fs) last =
      splitChunk accountId op first f ++ splitLoop accountId fuel' fs last' := by
  have hsets := directSets_arranged f ha
  rw [filters_arranged f ha, append_assoc] at hfuel ⊢
  by_cases hne : filters (externalPart f) = []
  · rw [hne, nil_append] at hfuel ⊢
    obtain ⟨fuel', last', hfuel', hrun⟩ := splitLoop_sets accountId hsets fs last hfuel
    exact ⟨fuel', last', hfuel', by rw [hrun]; simp [splitChunk, hne]⟩
  · have hpos : 0 < (filters (externalPart f)).length := length_pos_iff.mpr hne
    have hscan : scanFrom (filters (externalPart f) ++
        ((directSets f).map SearchFilter.documentSet ++ fs)) 0 0 =
          .chunk (filters (externalPart f)).length := by
      rw [scanFrom_noSets _ (hasSets_externalPart f hf), Nat.zero_add]
      rcases hsets with hs | ⟨set, hs⟩
      · rw [hs]
        exact scanFrom_atLevelEnd hfs hpos
      · rw [hs]
        simp [scanFrom, hpos]
    obtain ⟨fuel1, last1, hfuel1, hrun1⟩ := splitLoop_external accountId last hne hscan hfuel
    obtain ⟨fuel', last', hfuel', hrun⟩ := splitLoop_sets accountId hsets fs last1 hfuel1
    have hor : (decide (op = .or) && first) = decide (last = some (.internal .or)) := by
      by_cases h : op = .or <;> simp [hlast, h]
    refine ⟨fuel', last', hfuel', ?_⟩
    rw [hrun1, hrun]
    simp [splitChunk, hne, hor]

theorem splitLoop_filters (ha : Arranged f) (op : Op) (first : Bool) (fs : List SearchFilter)
    (hfs : AtLevelEnd fs) (fuel : Nat) (last : Option SplitFilter)
    (hlast : last = some (.internal .or) ↔ op = .or ∧ first = true)
    (hfuel : (filters f ++ fs).length ≤ fuel) :
    ∃ fuel' last', fs.length ≤ fuel' ∧ splitLoop accountId fuel (filters f ++ fs) last =
      splitForest accountId op first f ++ splitLoop accountId fuel' fs last' := by
  induction f generalizing op first fs fuel last with
  | nil => exact splitLoop_level accountId .nil ha rfl op first fs hfs fuel last hlast hfuel
  | leaf a rest _ =>
    exact splitLoop_level accountId _ ha (opens_leaf ha) op first fs hfs fuel last hlast hfuel
  | group o members rest ihm ih =>
    cases hopen : hasSets members || opens rest with
    | false =>
      have h := splitLoop_level accountId (.group o members rest) ha hopen op first fs hfs fuel
        last hlast hfuel
      simpa [splitForest, hopen] using h
    | true =>
      have hscan := scanFrom_opens (.group o members rest) hopen fs 0 ha
      rw [filters_group_append] at hscan hfuel ⊢
      obtain ⟨fuel1, hfuel1, hrun1⟩ := splitLoop_first accountId last hscan hfuel
      obtain ⟨fuel2, last2, hfuel2, hrun2⟩ := ihm ha.1 o true (.endGroup :: (filters rest ++ fs))
        (Or.inr ⟨_, rfl⟩) fuel1 (some (.internal (.ofOp o)))
        (by cases o <;> simp [SearchFilter.ofOp]) hfuel1
      have hend : scanFrom (.endGroup :: (filters rest ++ fs)) 0 0 = .first := rfl
      obtain ⟨fuel3, hfuel3, hrun3⟩ := splitLoop_first accountId last2 hend hfuel2
      obtain ⟨fuel', last', hfuel', hrun⟩ := ih ha.2 op false fs hfs fuel3
        (some (.internal .endGroup)) (by simp) hfuel3
      refine ⟨fuel', last', hfuel', ?_⟩
      rw [hrun1, hrun2, hrun3, hrun]
      simp [splitForest, hopen]

/-! ## Both passes -/

theorem levelEnd_arranged
    (hops : ∀ a ∈ ops, ∃ field op value, a = .operator field op value ∧ a.account? = none)
    (docs : Option Bitmap) :
    (levelEnd ops docs).hasGroup = false ∧ Arranged (levelEnd ops docs) := by
  induction ops with
  | nil => cases docs <;> simp [levelEnd, leavesThen, Forest.hasGroup, Arranged]
  | cons a ops ih =>
    obtain ⟨field, op, value, rfl, hacc⟩ := hops a mem_cons_self
    have h := ih fun b hb => hops b (mem_cons_of_mem _ hb)
    exact ⟨h.1, h.1, hacc, h.2⟩

theorem directOperators_operator : ∀ a ∈ directOperators f, ∃ field op value,
      a = .operator field op value ∧ a.account? = none := by
  induction f with
  | nil => simp [directOperators]
  | leaf a rest ih =>
    cases a with
    | operator field op value =>
      intro b hb
      unfold directOperators at hb
      split at hb
      · exact ih b hb
      · rename_i hacc
        rcases mem_cons.mp hb with rfl | hb
        · exact ⟨field, op, value, rfl, by simpa using hacc⟩
        · exact ih b hb
    | documentSet docs => exact ih
  | group op members rest _ ih => exact ih

theorem arrange_arranged (op : Option Op) (f : Forest SearchLeaf) : Arranged (arrange op f) := by
  have h (f : Forest SearchLeaf) : ∀ g, Arranged g → Arranged ((arrangeGroups f).append g) := by
    induction f with
    | nil => exact fun g hg => hg
    | leaf a rest ih => exact ih
    | group o members rest ihm ih =>
      intro g hg
      exact ⟨ihm _ (levelEnd_arranged _ (directOperators_operator members) _).2, ih g hg⟩
  exact h f _ (levelEnd_arranged _ (directOperators_operator f) _).2

theorem splitFilters_filters : splitFilters (filters f) =
      if lastAccount f u64Max = u64Max then none
      else some (splitForest (lastAccount f u64Max) .and true (arrange none f)) := by
  have hrun : Collect.run (filters f) .empty = some (Collect.empty.after f) := by
    have h := collect_filters f [] .empty (fun _ _ => ⟨rfl, rfl⟩)
    rwa [List.append_nil] at h
  have hflush : ((Collect.empty.after f).flush 0).filtersOut = filters (arrange none f) := by
    simp [Collect.flush, Collect.after, Collect.empty, arrange, filters_append, filters_levelEnd,
      getD_addOperators_none]
  obtain ⟨fuel', last', -, hsplit⟩ := splitLoop_filters (lastAccount f u64Max) (arrange none f)
    (arrange_arranged none f) .and true [] (Or.inl rfl) (filters (arrange none f)).length none
    (by simp) (by simp)
  have hnil : splitLoop (lastAccount f u64Max) fuel' [] last' = [] := by
    cases fuel' <;> rfl
  rw [List.append_nil, hnil] at hsplit
  have hacc : ((Collect.empty.after f).flush 0).accountId = lastAccount f u64Max := rfl
  rw [splitFilters, hrun]
  simp [hflush, hacc, hsplit]

end Bearmail.Search
