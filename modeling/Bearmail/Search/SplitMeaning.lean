import Bearmail.Search.Split

/-!
# What a split query means

`query_account` of `dispatch/search.rs` sends every `External` part of a split
query to the backend, puts the answer in its place as a document set, and merges
the result with `SearchQuery::filter`.
-/

namespace Bearmail.Search

open Nested

abbrev Results := SearchField → SearchOperator → SearchValue → Bitmap

/-- What a leaf stands for; the account is no member of its group. -/
def externalVal (v : Results) (a : SearchLeaf) : Option Bitmap :=
  if a.account?.isSome then none
  else
    match a with
    | .operator field op value => some (v field op value)
    | .documentSet set => some set

/-- The reference meaning of a query over operators and document sets. -/
def externalReference (mask : Bitmap) (v : Results) (f : Forest SearchLeaf) : Bitmap :=
  Op.and.combine mask (f.values mask (externalVal v)) ∩ mask

/-- An ideal backend: a well-nested list of filters gets its reference meaning. -/
def idealBackend (mask : Bitmap) (v : Results) (fs : List SearchFilter) : Bitmap :=
  match readFilters fs with
  | some f => externalReference mask v f
  | none => ∅

/-- "Execute sub-query": an external part becomes the document set it returns. -/
def mergeSplit (mask : Bitmap) (v : Results) : SplitFilter → SearchFilter
  | .external fs => .documentSet (idealBackend mask v fs)
  | .internal filter => filter

/-- The merged query, as `query_account` evaluates it. -/
def evaluateSplit (index : SearchIndex) (comparators : List SearchComparator) (mask : Bitmap)
    (v : Results) (split : List SplitFilter) : Bitmap :=
  (SearchQuery.filter ⟨index, split.map (mergeSplit mask v), comparators, mask⟩).results

variable {mask : Bitmap} {v : Results}

/-! ## External parts -/

def externalForest (accountId : Nat) (addOr : Bool) (f : Forest SearchLeaf) : Forest SearchLeaf :=
  .leaf (.operator .accountId .equal (.uint accountId)) (if addOr then .group .or f .nil else f)

variable (accountId : Nat) (op : Op) (sets : List Bitmap) (first : Bool) (f : Forest SearchLeaf)

theorem filters_externalForest (addOr : Bool) (f : Forest SearchLeaf) :
    externalFilters accountId addOr (filters f) = filters (externalForest accountId addOr f) := by
  cases addOr <;> simp [externalFilters, externalForest, filters, Forest.render,
    SearchLeaf.toFilter, SearchFilter.ofOp]

theorem idealBackend_external (addOr : Bool) (f : Forest SearchLeaf) :
    idealBackend mask v (externalFilters accountId addOr (filters f)) =
      externalReference mask v (externalForest accountId addOr f) := by
  rw [filters_externalForest, idealBackend, readFilters_eq_some.mpr rfl]

variable {d : Nat}

theorem mem_external (hd : d ∈ mask) (accountId : Nat) (addOr : Bool) (f : Forest SearchLeaf) :
    d ∈ externalReference mask v (externalForest accountId addOr f) ↔
      (if addOr then Op.or else Op.and).Holds d (f.values mask (externalVal v)) := by
  rw [externalReference, Finset.mem_inter, mem_combine hd, and_iff_left hd]
  cases addOr with
  | true =>
    simp only [externalForest, Forest.values, externalVal, SearchLeaf.account?, if_true,
      Option.isSome_some, Option.toList_none, List.nil_append]
    have h := mem_combine hd .or (f.values mask (externalVal v))
    simp [Op.Holds] at h ⊢
    exact h
  | false =>
    simp [externalForest, Forest.values, externalVal, SearchLeaf.account?]

/-! ## The merged query -/

/-- The rest of a level that opens no group: the answer to its external part, and its set. -/
def mergedChunk (mask : Bitmap) (v : Results) (accountId : Nat) (op : Op) (first : Bool)
    (f : Forest SearchLeaf) : List Bitmap :=
  let chunk := filters (externalPart f)
  (if chunk = [] then []
    else [externalReference mask v (externalForest accountId
      (decide (op = .or) && first && decide (chunk.length > 1)) (externalPart f))]) ++
    directSets f

def leafForest : List Bitmap → Forest Bitmap
  | [] => .nil
  | set :: sets => .leaf set (leafForest sets)

def mergedForest (mask : Bitmap) (v : Results) (accountId : Nat) :
    Op → Bool → Forest SearchLeaf → Forest Bitmap
  | op, first, .nil => leafForest (mergedChunk mask v accountId op first .nil)
  | op, first, .leaf a rest => leafForest (mergedChunk mask v accountId op first (.leaf a rest))
  | op, first, .group o members rest =>
    if hasSets members || opens rest then
      .group o (mergedForest mask v accountId o true members)
        (mergedForest mask v accountId op false rest)
    else leafForest (mergedChunk mask v accountId op first (.group o members rest))

theorem documentFilters_leafForest :
    documentFilters (leafForest sets) = sets.map SearchFilter.documentSet := by
  induction sets with
  | nil => rfl
  | cons set sets ih =>
    show SearchFilter.documentSet set :: documentFilters (leafForest sets) = _
    rw [ih]
    rfl

theorem documentFilters_group (members rest : Forest Bitmap) :
    documentFilters (.group op members rest) =
      .ofOp op :: (documentFilters members ++ .endGroup :: documentFilters rest) := rfl

theorem map_splitChunk : (splitChunk accountId op first f).map (mergeSplit mask v) =
      documentFilters (leafForest (mergedChunk mask v accountId op first f)) := by
  rw [documentFilters_leafForest]
  by_cases h : filters (externalPart f) = []
  · simp [splitChunk, mergedChunk, h, mergeSplit, Function.comp_def]
  · simp [splitChunk, mergedChunk, h, mergeSplit, Function.comp_def, idealBackend_external]

theorem map_splitForest : (splitForest accountId op first f).map (mergeSplit mask v) =
      documentFilters (mergedForest mask v accountId op first f) := by
  induction f generalizing op first with
  | nil => exact map_splitChunk accountId op first .nil
  | leaf a rest _ => exact map_splitChunk accountId op first (.leaf a rest)
  | group o members rest ihm ih =>
    unfold splitForest mergedForest
    split
    · rw [documentFilters_group, ← ihm, ← ih]
      simp [mergeSplit]
    · exact map_splitChunk accountId op first (.group o members rest)

/-! ## The first pass keeps the meaning

Document sets of one group are merged by intersection unless the group is an
`Or`. Under `Not` that is right for one set only. -/

/-- No `Not` group has two document sets of its own. -/
def setsOk : Forest SearchLeaf → Bool
  | .nil => true
  | .leaf _ rest => setsOk rest
  | .group op members rest =>
    (decide (op ≠ .not) || decide ((directSets members).length ≤ 1)) && setsOk members && setsOk rest

theorem holds_mergeSets (h : op = .not → sets.length ≤ 1) :
    op.Holds d (mergeSets (some op) none sets).toList ↔ op.Holds d sets := by
  have hfold (sets : List Bitmap) (set : Bitmap) (hop : op ≠ .not) :
      op.Holds d (mergeSets (some op) (some set) sets).toList ↔ op.Holds d (set :: sets) := by
    induction sets generalizing set with
    | nil => rfl
    | cons set' sets ih =>
      have hi := ih (mergeSet (some op) (some set) set')
      refine hi.trans ?_
      cases op with
      | and => simp [Op.Holds, mergeSet, and_assoc]
      | or => simp [Op.Holds, mergeSet, or_assoc]
      | not => exact absurd rfl hop
  cases sets with
  | nil => rfl
  | cons set sets =>
    by_cases hop : op = .not
    · have hlen := h hop
      obtain rfl : sets = [] := by
        cases sets with
        | nil => rfl
        | cons set' sets => simp at hlen
      rfl
    · exact hfold sets set hop

theorem arrange_none : arrange none f = arrange (some .and) f := by
  have h (entry : Option Bitmap) (sets : List Bitmap) :
      mergeSets none entry sets = mergeSets (some .and) entry sets := by
    induction sets generalizing entry with
    | nil => rfl
    | cons set sets ih =>
      have hm : mergeSet none entry set = mergeSet (some .and) entry set := by
        cases entry <;> rfl
      simpa [mergeSets, hm] using ih _
  simp [arrange, h]

theorem values_levelEnd (ops : List SearchLeaf) (docs : Option Bitmap) :
    (levelEnd ops docs).values mask (externalVal v) =
      ops.flatMap (fun a => (externalVal v a).toList) ++ docs.toList := by
  induction ops with
  | nil => cases docs <;> simp [levelEnd, leavesThen, Forest.values, externalVal, SearchLeaf.account?]
  | cons a ops ih =>
    show (externalVal v a).toList ++ (levelEnd ops docs).values mask (externalVal v) = _
    simp [ih]

theorem holds_arrangeGroups (hd : d ∈ mask) (f : Forest SearchLeaf) (hsets : setsOk f = true) (op : Op) :
    op.Holds d (f.values mask (externalVal v)) ↔
      op.join (op.Holds d ((arrangeGroups f).values mask (externalVal v)))
        (op.join (op.Holds d ((directOperators f).flatMap fun a => (externalVal v a).toList))
          (op.Holds d (directSets f))) := by
  induction f generalizing op with
  | nil => cases op <;> simp [Forest.values, arrangeGroups, directOperators, directSets, Op.Holds,
      Op.join]
  | leaf a rest ih =>
    have hrest := ih hsets op
    cases a with
    | operator field o value =>
      cases ha : (SearchLeaf.operator field o value).account? with
      | some id =>
        simpa [Forest.values, externalVal, ha, arrangeGroups, directOperators, directSets]
      | none =>
        simp only [Forest.values, externalVal, ha, Option.isSome_none, Bool.false_eq_true, if_false,
          Option.toList_some, List.singleton_append, arrangeGroups, directOperators, directSets,
          List.flatMap_cons, holds_cons]
        rw [hrest]
        cases op <;> simp only [Op.join, Op.counts] <;> tauto
    | documentSet set =>
      simp only [Forest.values, externalVal, SearchLeaf.account?, Option.isSome_none,
        Bool.false_eq_true, if_false, Option.toList_some, List.singleton_append, arrangeGroups,
        directOperators, directSets, holds_cons]
      rw [hrest]
      cases op <;> simp only [Op.join, Op.counts] <;> tauto
  | group o members rest ihm ih =>
    simp only [setsOk, Bool.and_eq_true, Bool.or_eq_true, decide_eq_true_eq] at hsets
    obtain ⟨⟨hnot, hm⟩, hr⟩ := hsets
    have hmem : d ∈ o.combine mask ((arrange (some o) members).values mask (externalVal v)) ↔
        d ∈ o.combine mask (members.values mask (externalVal v)) := by
      simp [mem_combine hd, ihm hm o, arrange, Forest.values_append, values_levelEnd, holds_append,
        holds_mergeSets o (directSets members) fun h => hnot.resolve_left fun hn => hn h]
    have hrest := ih hr op
    simp only [Forest.values, arrangeGroups, directOperators, directSets, holds_cons]
    rw [hrest, ← join_assoc]
    rw [← counts_congr op hmem]
    rfl

theorem holds_arrange (hd : d ∈ mask) (f : Forest SearchLeaf) (hsets : setsOk f = true) :
    Op.and.Holds d ((arrange none f).values mask (externalVal v)) ↔
      Op.and.Holds d (f.values mask (externalVal v)) := by
  rw [holds_arrangeGroups hd f hsets .and, arrange_none, arrange, Forest.values_append, values_levelEnd,
    holds_append, holds_append, holds_mergeSets .and (directSets f) (by simp)]

/-! ## The second pass keeps the meaning

An external part is a conjunction. That is right under `And`; under `Or` it is
put right while nothing of the level was pushed before; otherwise it is right
for a single member. -/

def chunkOk (op : Op) (first : Bool) (f : Forest SearchLeaf) : Bool :=
  decide (op = .and) || (decide (op = .or) && first) || decide ((externalPart f).members ≤ 1)

/-- Every external part of a level can be a conjunction, and every group that is
opened, unless it is an `Or`, has a member. -/
def partsOk : Op → Bool → Forest SearchLeaf → Bool
  | op, first, .nil => chunkOk op first .nil
  | op, first, .leaf a rest => chunkOk op first (.leaf a rest)
  | op, first, .group o members rest =>
    if hasSets members || opens rest then
      (decide (o = .or) || decide (0 < members.members)) && partsOk o true members &&
        partsOk op false rest
    else chunkOk op first (.group o members rest)

theorem values_arranged (ha : Arranged f) : f.values mask (externalVal v) =
      (externalPart f).values mask (externalVal v) ++ directSets f := by
  induction f with
  | nil => rfl
  | leaf a rest ih =>
    cases a with
    | operator field op value =>
      simp [Forest.values, externalPart, directSets, ih ha.2.2]
    | documentSet set =>
      obtain rfl : rest = .nil := ha
      simp [Forest.values, externalPart, directSets, externalVal, SearchLeaf.account?]
  | group op members rest _ ih => simp [Forest.values, externalPart, directSets, ih ha.2]

theorem length_values_externalPart (ha : Arranged f) :
    ((externalPart f).values mask (externalVal v)).length = (externalPart f).members := by
  induction f with
  | nil => rfl
  | leaf a rest ih =>
    cases a with
    | operator field op value =>
      simp [Forest.values, externalPart, Forest.members, externalVal, ha.2.1, ih ha.2.2]
    | documentSet set =>
      obtain rfl : rest = .nil := ha
      rfl
  | group op members rest _ ih =>
    simp [Forest.values, externalPart, Forest.members, ih ha.2]

theorem members_le_length : f.members ≤ (filters f).length := by
  induction f with
  | nil => exact Nat.le_refl 0
  | leaf a rest ih =>
    show rest.members + 1 ≤ (filters rest).length + 1
    omega
  | group op members rest _ ih =>
    rw [filters_group]
    simp only [Forest.members, List.length_cons, List.length_append]
    omega

theorem members_pos {f : Forest SearchLeaf} (h : filters f ≠ []) : 0 < f.members := by
  cases f with
  | nil => exact absurd rfl h
  | leaf a rest | group op members rest => exact Nat.succ_pos _

theorem holds_mergedChunk (hd : d ∈ mask) (accountId : Nat) (op : Op) (first : Bool)
    (f : Forest SearchLeaf) (ha : Arranged f) (hok : chunkOk op first f = true) :
    op.Holds d (mergedChunk mask v accountId op first f) ↔
      op.Holds d (f.values mask (externalVal v)) := by
  rw [values_arranged f ha, mergedChunk]
  by_cases hne : filters (externalPart f) = []
  · have hnil : externalPart f = .nil := by
      cases he : externalPart f with
      | nil => rfl
      | leaf a rest | group o members rest => simp [he, filters, Forest.render] at hne
    simp only [hne, if_true, List.nil_append]
    simp [hnil, Forest.values]
  · rw [holds_append, holds_append]
    have hlen : ((externalPart f).values mask (externalVal v)).length = (externalPart f).members :=
      length_values_externalPart f ha
    have hpos := members_pos hne
    have hle := members_le_length (externalPart f)
    have hpart : op.Holds d [externalReference mask v (externalForest accountId
        (decide (op = .or) && first && decide ((filters (externalPart f)).length > 1))
        (externalPart f))] ↔ op.Holds d ((externalPart f).values mask (externalVal v)) := by
      -- a single member is the same under every connective
      have hsingle (h1 : (externalPart f).members ≤ 1) (addOr : Bool) :
          op.Holds d [externalReference mask v (externalForest accountId addOr
            (externalPart f))] ↔ op.Holds d ((externalPart f).values mask (externalVal v)) := by
        obtain ⟨x, hx⟩ : ∃ x, (externalPart f).values mask (externalVal v) = [x] :=
          List.length_eq_one_iff.mp (by omega)
        have hmem := mem_external (v := v) hd accountId addOr (externalPart f)
        have hx1 : d ∈ externalReference mask v (externalForest accountId addOr
            (externalPart f)) ↔ d ∈ x := by
          rw [hmem, hx]
          cases addOr <;> simp [Op.Holds]
        rw [hx, holds_cons, holds_cons, counts_congr op hx1]
      by_cases h1 : (externalPart f).members ≤ 1
      · exact hsingle h1 _
      · have hmany : (filters (externalPart f)).length > 1 := by omega
        have hmem := mem_external (v := v) hd accountId
          (decide (op = .or) && first && decide ((filters (externalPart f)).length > 1))
          (externalPart f)
        cases op with
        | and => simpa [Op.Holds] using hmem
        | or =>
          have hfirst : first = true := by simpa [chunkOk, h1] using hok
          simpa [Op.Holds, hfirst, hmany] using hmem
        | not => simp [chunkOk, h1] at hok
    simp [hne, hpart]

theorem values_leafForest : (leafForest sets).values mask some = sets := by
  induction sets with
  | nil => rfl
  | cons set sets ih => simp [leafForest, Forest.values, ih]

theorem holds_mergedForest (hd : d ∈ mask) (accountId : Nat) (f : Forest SearchLeaf)
    (ha : Arranged f) (op : Op) (first : Bool) (hok : partsOk op first f = true) :
    op.Holds d ((mergedForest mask v accountId op first f).values mask some) ↔
      op.Holds d (f.values mask (externalVal v)) := by
  induction f generalizing op first with
  | nil =>
    exact holds_mergedChunk hd accountId op first .nil ha hok
  | leaf a rest _ =>
    rw [mergedForest, values_leafForest]
    exact holds_mergedChunk hd accountId op first (.leaf a rest) ha hok
  | group o members rest ihm ih =>
    unfold partsOk at hok
    unfold mergedForest
    split at hok
    · rename_i hopen
      simp only [Bool.and_eq_true] at hok
      obtain ⟨⟨-, hm⟩, hr⟩ := hok
      rw [if_pos hopen, Forest.values, Forest.values, holds_cons, holds_cons, ih ha.2 op false hr]
      have hmem : d ∈ o.combine mask ((mergedForest mask v accountId o true members).values mask
          some) ↔ d ∈ o.combine mask (members.values mask (externalVal v)) := by
        simp [mem_combine hd, ihm ha.1 o true hm]
      rw [counts_congr op hmem]
    · rename_i hopen
      rw [if_neg hopen, values_leafForest]
      exact holds_mergedChunk hd accountId op first (.group o members rest) ha hok

/-! ## The merge stays in step -/

/-- While groups are still to be opened in a nested `And`, the groups before them
have a document of the mask in common. -/
def keepsStep (mask : Bitmap) (v : Results) : Bool → Op → Bitmap → Forest SearchLeaf → Bool
  | _, _, _, .nil => true
  | _, _, _, .leaf _ _ => true
  | nested, op, common, .group o members rest =>
    if hasSets members || opens rest then
      let next := common ∩ o.combine mask (members.values mask (externalVal v))
      keepsStep mask v true o mask members &&
        (!nested || decide (op ≠ .and) || !opens rest || decide (next ≠ ∅)) &&
        keepsStep mask v nested op next rest
    else true

theorem hasGroup_leafForest : ((leafForest sets).map SearchLeaf.documentSet).hasGroup = false := by
  induction sets with
  | nil => rfl
  | cons set sets ih => exact ih

theorem hasGroup_mergedForest (hf : opens f = false) :
    ((mergedForest mask v accountId op first f).map SearchLeaf.documentSet).hasGroup = false := by
  cases f with
  | nil | leaf a rest => exact hasGroup_leafForest _
  | group o members rest =>
    simp only [opens] at hf
    simp [mergedForest, hf, hasGroup_leafForest]

theorem hasMember_leafForest {sets : List Bitmap} (h : sets ≠ []) :
    hasMember localVal ((leafForest sets).map SearchLeaf.documentSet) = true := by
  cases sets with
  | nil => exact absurd rfl h
  | cons set sets => rfl

theorem hasMember_mergedForest (hf : 0 < f.members) :
    hasMember localVal ((mergedForest mask v accountId op first f).map SearchLeaf.documentSet) =
      true := by
  cases f with
  | nil => simp [Forest.members] at hf
  | leaf a rest =>
    apply hasMember_leafForest
    cases a with
    | operator field o value => simp [mergedChunk, externalPart, filters, Forest.render]
    | documentSet set => simp [mergedChunk, directSets]
  | group o members rest =>
    unfold mergedForest
    split
    · rfl
    · apply hasMember_leafForest
      simp [mergedChunk, externalPart, filters, Forest.render]

theorem populated_leafForest :
    populated localVal ((leafForest sets).map SearchLeaf.documentSet) = true := by
  induction sets with
  | nil => rfl
  | cons set sets ih => exact ih

theorem populated_mergedForest (hok : partsOk op first f = true) :
    populated localVal ((mergedForest mask v accountId op first f).map SearchLeaf.documentSet) =
      true := by
  induction f generalizing op first with
  | nil | leaf a rest _ => exact populated_leafForest _
  | group o members rest ihm ih =>
    unfold partsOk at hok
    unfold mergedForest
    split at hok
    · rename_i hopen
      simp only [Bool.and_eq_true, Bool.or_eq_true, decide_eq_true_eq] at hok
      obtain ⟨⟨hne, hm⟩, hr⟩ := hok
      rw [if_pos hopen]
      simp only [Forest.map, populated, ihm o true hm, ih op false hr, Bool.and_true,
        Bool.or_eq_true, decide_eq_true_eq]
      rcases hne with hor | hpos
      · exact Or.inl hor
      · exact Or.inr (hasMember_mergedForest accountId o true members hpos)
    · rename_i hopen
      rw [if_neg hopen]
      exact populated_leafForest _

theorem mem_running_mergedForest (hd : d ∈ mask) (accountId : Nat) (o : Op) (f : Forest SearchLeaf)
    (ha : Arranged f) (hne : o = .or ∨ 0 < f.members) (hok : partsOk o true f = true) :
    d ∈ (running mask localVal ((mergedForest mask v accountId o true f).map
        SearchLeaf.documentSet) o none).getD ∅ ↔
      d ∈ o.combine mask (f.values mask (externalVal v)) := by
  have hne' : o = .or ∨ hasMember localVal ((mergedForest mask v accountId o true f).map
      SearchLeaf.documentSet) = true := by
    rcases hne with hor | hpos
    · exact Or.inl hor
    · exact Or.inr (hasMember_mergedForest accountId o true f hpos)
  have hpop : populated localVal ((mergedForest mask v accountId o true f).map
      SearchLeaf.documentSet) = true := populated_mergedForest accountId o true f hok
  rw [mem_running_of_denotes hd hne' (holds_running hd _ hpop o none), Forest.values_map,
    mem_combine hd, mem_combine hd]
  exact holds_mergedForest hd accountId f ha o true hok

theorem inSync_mergedForest (ha : Arranged f) (op : Op) (first : Bool) (common : Bitmap)
    (bm : Option Bitmap) (hok : partsOk op first f = true)
    (hkeep : keepsStep mask v true op common f = true) (hsub : common ⊆ mask)
    (hbm : op = .and → ∀ d ∈ common, Denotes op bm d) :
    inSync mask localVal ((mergedForest mask v accountId op first f).map SearchLeaf.documentSet)
      op bm = true := by
  induction f generalizing op first common bm with
  | nil | leaf a rest _ => exact inSync_of_no_group _ (hasGroup_leafForest _) op bm
  | group o members rest ihm ih =>
    unfold partsOk at hok
    unfold keepsStep at hkeep
    unfold mergedForest
    split at hok
    · rename_i hopen
      rw [if_pos hopen] at hkeep ⊢
      simp only [Bool.and_eq_true, Bool.or_eq_true, decide_eq_true_eq, Bool.not_true,
        Bool.false_eq_true, false_or, Bool.not_eq_true'] at hok hkeep
      obtain ⟨⟨hne, hm⟩, hr⟩ := hok
      obtain ⟨⟨hkm, hstep⟩, hkr⟩ := hkeep
      have hmembers := ihm ha.1 o true mask none hm hkm (Finset.Subset.refl mask)
        (fun ho _ _ => by simp [Denotes, ho])
      simp only [Forest.map, inSync, hmembers, Bool.true_and]
      cases hopens : opens rest with
      | false =>
        have hng : ((mergedForest mask v accountId op false rest).map
            SearchLeaf.documentSet).hasGroup = false :=
          hasGroup_mergedForest accountId op false rest hopens
        simp [hng, inSync_of_no_group _ hng]
      | true =>
        -- every document the groups have in common is in the running bitmap
        have hnext (hop : op = .and) : ∀ d ∈ common ∩ o.combine mask
            (members.values mask (externalVal v)), d ∈ absorb mask op bm (running mask localVal
              ((mergedForest mask v accountId o true members).map SearchLeaf.documentSet) o none) := by
          intro d hd
          obtain ⟨hdc, hdo⟩ := Finset.mem_inter.mp hd
          have hdm := hsub hdc
          rw [mem_absorb hdm]
          have hrun := (mem_running_mergedForest hdm accountId o members ha.1 hne hm).mpr hdo
          rw [hop]
          exact ⟨hop ▸ hbm hop d hdc, hrun⟩
        have hcut : (State.mk op (some (absorb mask op bm (running mask localVal
            ((mergedForest mask v accountId o true members).map SearchLeaf.documentSet) o
              none)))).shortCircuits = false := by
          rw [Bool.eq_false_iff]
          intro hsc
          obtain ⟨hop, hempty⟩ := shortCircuits_iff.mp hsc
          have hsome : common ∩ o.combine mask (members.values mask (externalVal v)) ≠ ∅ := by
            rcases hstep with (h | h) | h
            · exact absurd hop h
            · simp [hopens] at h
            · exact h
          obtain ⟨d, hd⟩ := Finset.nonempty_iff_ne_empty.mpr hsome
          have hin := hnext hop d hd
          rw [hempty] at hin
          simp at hin
        rw [hcut]
        exact ih ha.2 op false _ _ hr hkr (Finset.inter_subset_left.trans hsub)
          (fun hop d hd => hnext hop d hd)
    · rename_i hopen
      rw [if_neg hopen]
      exact inSync_of_no_group _ (hasGroup_leafForest _) op bm

theorem topInSync_mergedForest (ha : Arranged f) (first : Bool) (common : Bitmap)
    (bm : Option Bitmap) (hok : partsOk .and first f = true)
    (hkeep : keepsStep mask v false .and common f = true) :
    topInSync mask localVal ((mergedForest mask v accountId .and first f).map
      SearchLeaf.documentSet) bm = true := by
  induction f generalizing first common bm with
  | nil | leaf a rest _ => exact topInSync_of_no_group _ (hasGroup_leafForest _) bm
  | group o members rest _ ih =>
    unfold partsOk at hok
    unfold keepsStep at hkeep
    unfold mergedForest
    split at hok
    · rename_i hopen
      rw [if_pos hopen] at hkeep ⊢
      simp only [Bool.and_eq_true] at hok hkeep
      obtain ⟨⟨-, hm⟩, hr⟩ := hok
      obtain ⟨⟨hkm, -⟩, hkr⟩ := hkeep
      have hmembers := inSync_mergedForest accountId members ha.1 o true mask none hm hkm
        (Finset.Subset.refl mask) (fun ho _ _ => by simp [Denotes, ho])
      simp [Forest.map, topInSync, hmembers, ih ha.2 false _ _ hr hkr]
    · rename_i hopen
      rw [if_neg hopen]
      exact topInSync_of_no_group _ (hasGroup_leafForest _) bm

/-- The conditions under which splitting keeps the meaning of a query. -/
structure SplitSafe (mask : Bitmap) (v : Results) (f : Forest SearchLeaf) : Prop where
  /-- no `Not` has two document sets of its own -/
  sets : setsOk f = true
  /-- no external part of several members stands under `Not`, or under `Or` behind an
  opened group -/
  parts : partsOk .and true (arrange none f) = true
  /-- no nested `And` runs empty in front of a group -/
  step : keepsStep mask v false .and mask (arrange none f) = true

def subject (word : String) : SearchLeaf :=
  .operator (.email .subject) .contains (.text word .none)

/-- Subjects that contain "a" are found in document 1, others in none. -/
def onlyA : Results := fun _ _ value => if value = .text "a" .none then {1} else ∅

def splitExample : Forest SearchLeaf :=
  .leaf (accountFilter 7) (.group .or (.group .and
    (.leaf (subject "a") (.leaf (.documentSet {1}) .nil)) (.leaf (.documentSet {2}) .nil)) .nil)

def notOfTwo : Forest SearchLeaf :=
  .leaf (accountFilter 7) (.group .not
    (.leaf (subject "a") (.leaf (subject "b") (.leaf (.documentSet {2}) .nil))) .nil)

end Bearmail.Search
