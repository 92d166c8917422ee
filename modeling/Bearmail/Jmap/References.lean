import Bearmail.Lib.Dependencies
import Bearmail.Lib.Turns
import Mathlib.Data.List.Perm.Subperm

/-!
# The order of creations

`topological_sort` of `jmap-proto/src/references/mod.rs`: the objects of a `/set` request are created after those
that they refer to by their creation ids. The search keeps a stack of iterators, and gives up when it is too deep.
-/

namespace Bearmail.Jmap

open Dependencies
open List

variable {T : Type}

/-- The references from each object, in the order in which the hash map gives them. -/
abbrev Graph := List (String × List String)

def Graph.get (graph : Graph) (id : String) : Option (List String) := graph.lookup id

theorem Graph.mem_of_get {graph : Graph} {id : String} {toIds : List String} (h : graph.get id = some toIds) :
    (id, toIds) ∈ graph := by
  obtain ⟨before, after, rfl, -⟩ := lookup_eq_some_iff.mp h
  exact mem_append_right _ mem_cons_self

/-- The objects to create, as a `VecMap` keeps them. -/
abbrev Creations (T : Type) := List (String × T)

namespace Creations

def ids (create : Creations T) : List String := create.map Prod.fst

def containsKey (create : Creations T) (id : String) : Bool := create.any fun entry => entry.1 = id

def removeEntry (create : Creations T) (id : String) : Option ((String × T) × Creations T) :=
  match create.find? fun entry => entry.1 = id with
  | some entry => some (entry, create.eraseP fun entry => entry.1 = id)
  | none => none

end Creations

inductive Detail where
  | text (text : String)
  /-- `{:?}` -/
  | debug (value : String)
  deriving DecidableEq

inductive SortError where
  | invalidResultReference (details : List Detail)
  | invalidArguments (details : List Detail)
  deriving DecidableEq

def invalidReference (toId fromId : String) : SortError :=
  .invalidResultReference
    [.text "Invalid reference to non-existing object ", .debug toId, .text " from ", .debug fromId]

def cyclicalReferences : SortError := .invalidArguments [.text "Cyclical references are not allowed."]

/-! ## The search -/

structure OrderSearch (T : Type) where
  it : List String
  itStack : List (List String × String)
  create : Creations T
  sortedCreate : Creations T

namespace OrderSearch

/-- An object is moved to those that are sorted, unless it was before. -/
def take (s : OrderSearch T) (id : String) : OrderSearch T :=
  match s.create.removeEntry id with
  | some (entry, create) => { s with create, sortedCreate := s.sortedCreate ++ [entry] }
  | none => s

/-- One turn of the loops. With nothing left to create they are left at once. -/
def turn (graph : Graph) : Except SortError (OrderSearch T) → Turn (Except SortError (OrderSearch T)) Unit
  | .error error => .stop (.error error)
  | .ok s =>
    match s.it with
    | fromId :: rest =>
      match graph.get fromId with
      | some toIds =>
        if 1000 < s.itStack.length + 1 then .stop (.error cyclicalReferences)
        else .again (.ok { s with it := toIds, itStack := (rest, fromId) :: s.itStack }) []
      | none =>
        let next := { s.take fromId with it := rest }
        if (s.create.removeEntry fromId).isSome ∧ next.create.isEmpty then .stop (.ok next)
        else .again (.ok next) []
    | [] =>
      match s.itStack with
      | (prevIt, fromId) :: itStack =>
        let next := { s.take fromId with it := prevIt, itStack }
        if (s.create.removeEntry fromId).isSome ∧ next.create.isEmpty then .stop (.ok next)
        else .again (.ok next) []
      | [] => .stop (.ok s)

/-- How many turns some ids take at most, with room for `depth` more on the stack. -/
def cost (graph : Graph) : ℕ → List String → ℕ
  | 0, ids => ids.length
  | depth + 1, ids =>
    ids.foldr (fun id turns => turns + 1 + match graph.get id with
      | some toIds => cost graph depth toIds + 1
      | none => 0) 0

def stackCost (graph : Graph) : List (List String × String) → ℕ
  | [] => 0
  | (prevIt, _) :: itStack => stackCost graph itStack + cost graph (1000 - itStack.length) prevIt + 1

def rank (graph : Graph) : Except SortError (OrderSearch T) → ℕ
  | .error _ => 0
  | .ok s => cost graph (1000 - s.itStack.length) s.it + stackCost graph s.itStack

theorem cost_none {graph : Graph} {id : String} (h : graph.get id = none) (depth : ℕ) (ids : List String) :
    cost graph depth (id :: ids) = cost graph depth ids + 1 := by
  cases depth with
  | zero => rfl
  | succ depth =>
    rw [cost, foldr_cons, h]
    rfl

theorem cost_some {graph : Graph} {id : String} {toIds : List String} (h : graph.get id = some toIds) (depth : ℕ)
    (ids : List String) :
    cost graph (depth + 1) (id :: ids) = cost graph (depth + 1) ids + 1 + (cost graph depth toIds + 1) := by
  rw [cost, foldr_cons, h, cost]

@[simp] theorem take_itStack (s : OrderSearch T) (id : String) : (s.take id).itStack = s.itStack := by
  rw [take]
  split <;> rfl

theorem turn_again {graph : Graph} {s : OrderSearch T} {next : Except SortError (OrderSearch T)} {events : List Unit}
    (h : turn graph (.ok s) = .again next events) :
    (∃ fromId rest toIds, s.it = fromId :: rest ∧ graph.get fromId = some toIds ∧ s.itStack.length < 1000 ∧
        next = .ok { s with it := toIds, itStack := (rest, fromId) :: s.itStack }) ∨
      (∃ fromId rest, s.it = fromId :: rest ∧ graph.get fromId = none ∧
        next = .ok { s.take fromId with it := rest }) ∨
      ∃ prevIt fromId itStack, s.it = [] ∧ s.itStack = (prevIt, fromId) :: itStack ∧
        next = .ok { s.take fromId with it := prevIt, itStack } := by
  rw [turn] at h
  cases hit : s.it with
  | cons fromId rest =>
    simp only [hit] at h
    cases hget : graph.get fromId with
    | some toIds =>
      simp only [hget] at h
      split at h
      · cases h
      · cases h
        exact .inl ⟨_, _, _, rfl, hget, by omega, rfl⟩
    | none =>
      simp only [hget] at h
      split at h
      · cases h
      · cases h
        exact .inr (.inl ⟨_, _, rfl, hget, rfl⟩)
  | nil =>
    simp only [hit] at h
    cases hstack : s.itStack with
    | cons frame itStack =>
      simp only [hstack] at h
      split at h
      · cases h
      · cases h
        exact .inr (.inr ⟨_, _, _, rfl, rfl, rfl⟩)
    | nil =>
      simp only [hstack] at h
      cases h

theorem rank_falls {graph : Graph} {s next : Except SortError (OrderSearch T)} {events : List Unit}
    (h : turn graph s = .again next events) : rank graph next < rank graph s := by
  cases s with
  | error error => cases h
  | ok s =>
    obtain ⟨fromId, rest, toIds, hit, hget, hdepth, rfl⟩ | ⟨fromId, rest, hit, hget, rfl⟩ |
      ⟨prevIt, fromId, itStack, hit, hstack, rfl⟩ := turn_again h
    · obtain ⟨depth, hd⟩ : ∃ depth, 1000 - s.itStack.length = depth + 1 := ⟨999 - s.itStack.length, by omega⟩
      have hd' : 1000 - (s.itStack.length + 1) = depth := by omega
      rw [rank, rank, hit, hd, cost_some hget, stackCost, length_cons, hd', hd]
      dsimp only
      omega
    · rw [rank, rank, hit, cost_none hget]
      simp only [take_itStack]
      omega
    · rw [rank, rank, hstack, stackCost]
      dsimp only
      omega

end OrderSearch

def search (graph : Graph) : Loop (Except SortError (OrderSearch T)) Unit where
  turn := OrderSearch.turn graph
  rank := OrderSearch.rank graph
  falls := OrderSearch.rank_falls

/-- The first reference to an object that is not in the request. -/
def missingReference (create : Creations T) (graph : Graph) : Option SortError :=
  graph.findSome? fun (fromId, toIds) =>
    toIds.findSome? fun toId => if create.containsKey toId then none else some (invalidReference toId fromId)

def topologicalSort (create : Creations T) (graph : Graph) : Except SortError (Creations T) :=
  match missingReference create graph with
  | some error => .error error
  | none =>
    match ((search graph).run (.ok ⟨graph.map Prod.fst, [], create, []⟩)).1 with
    | .error error => .error error
    | .ok s => .ok (s.sortedCreate ++ s.create)

/-! ## What the search keeps -/

def Refers (graph : Graph) (fromId toId : String) : Prop :=
  ∃ toIds, graph.get fromId = some toIds ∧ toId ∈ toIds

namespace Creations

theorem removeEntry_perm {create create' : Creations T} {id : String} {entry : String × T}
    (h : create.removeEntry id = some (entry, create')) : entry.1 = id ∧ create.Perm (entry :: create') := by
  rw [removeEntry] at h
  cases hfind : create.find? fun entry => entry.1 = id with
  | none =>
    rw [hfind] at h
    cases h
  | some found =>
    rw [hfind] at h
    cases h
    have hid : entry.1 = id := by simpa using List.find?_some hfind
    refine ⟨hid, ?_⟩
    induction create with
    | nil => cases hfind
    | cons first rest ih =>
      by_cases hfirst : first.1 = id
      · rw [List.find?_cons_of_pos (by simpa using hfirst)] at hfind
        cases hfind
        rw [eraseP_cons_of_pos (by simpa using hid)]
      · rw [List.find?_cons_of_neg (by simpa using hfirst)] at hfind
        rw [eraseP_cons_of_neg (by simpa using hfirst)]
        exact ((ih hfind).cons first).trans (List.Perm.swap ..)

theorem removeEntry_none {create : Creations T} {id : String} (h : create.removeEntry id = none) :
    id ∉ create.ids := by
  rw [removeEntry] at h
  cases hfind : create.find? fun entry => entry.1 = id with
  | some found =>
    rw [hfind] at h
    cases h
  | none =>
    intro hmem
    obtain ⟨entry, hentry, rfl⟩ := mem_map.mp hmem
    exact absurd (List.find?_eq_none.mp hfind entry hentry) (by simp)

theorem mem_ids_iff {create : Creations T} {id : String} : create.containsKey id = true ↔ id ∈ create.ids := by
  simp [containsKey, ids]

end Creations

namespace OrderSearch

/-- The objects that are being visited: each iterator has gone past what is sorted already. -/
def Walk (graph : Graph) (keys seen : List String) : List (List String × String) → List String → Prop
  | [], it => ∃ done, keys = done ++ it ∧ done ⊆ seen
  | (prevIt, fromId) :: itStack, it =>
    (∃ done, graph.get fromId = some (done ++ it) ∧ done ⊆ seen) ∧
      Walk graph keys seen itStack (fromId :: prevIt)

variable {itStack : List (List String × String)} {graph : Graph} {it : List String}

theorem Walk.mono {keys seen seen' : List String}
    (h : Walk graph keys seen itStack it) (hseen : seen ⊆ seen') :
    Walk graph keys seen' itStack it := by
  induction itStack generalizing it with
  | nil =>
    obtain ⟨done, heq, hdone⟩ := h
    exact ⟨done, heq, List.Subset.trans hdone hseen⟩
  | cons frame itStack ih =>
    obtain ⟨⟨done, heq, hdone⟩, hrest⟩ := h
    exact ⟨⟨done, heq, List.Subset.trans hdone hseen⟩, ih hrest⟩

variable {id : String} {keys seen : List String}

theorem Walk.advance (h : Walk graph keys seen itStack (id :: it)) (hid : id ∈ seen) :
    Walk graph keys seen itStack it := by
  cases itStack with
  | nil =>
    obtain ⟨done, heq, hdone⟩ := h
    exact ⟨done ++ [id], by rw [heq, append_cons], by simp [hdone, hid]⟩
  | cons frame itStack =>
    obtain ⟨⟨done, heq, hdone⟩, hrest⟩ := h
    exact ⟨⟨done ++ [id], by rw [heq, append_cons], by simp [hdone, hid]⟩, hrest⟩

/-- The objects on the stack refer to one another, from the outermost to the object that is next. -/
theorem Walk.isChain (h : Walk graph keys seen itStack (id :: it)) :
    ((itStack.map Prod.snd).reverse ++ [id]).IsChain (Refers graph) ∧
      ∀ fromId ∈ itStack.map Prod.snd, ∃ toIds, graph.get fromId = some toIds := by
  induction itStack generalizing id it with
  | nil => exact ⟨isChain_singleton id, by simp⟩
  | cons frame itStack ih =>
    obtain ⟨⟨done, heq, -⟩, hrest⟩ := h
    obtain ⟨hchain, hentries⟩ := ih hrest
    rw [map_cons, reverse_cons]
    refine ⟨hchain.append (isChain_singleton id) ?_, ?_⟩
    · intro last hlast next hnext
      rw [List.getLast?_concat] at hlast
      cases hlast
      cases hnext
      exact ⟨_, heq, mem_append_right _ mem_cons_self⟩
    · rintro fromId hmem
      rcases mem_cons.mp hmem with rfl | hmem
      · exact ⟨_, heq⟩
      · exact hentries fromId hmem

theorem Walk.mem (h : Walk graph keys seen itStack (id :: it)) :
    id ∈ keys ∨ ∃ fromId, Refers graph fromId id := by
  cases itStack with
  | nil =>
    obtain ⟨done, heq, -⟩ := h
    exact .inl (heq ▸ mem_append_right _ mem_cons_self)
  | cons frame itStack =>
    obtain ⟨⟨done, heq, -⟩, -⟩ := h
    exact .inr ⟨_, _, heq, mem_append_right _ mem_cons_self⟩

structure Inv (graph : Graph) (create₀ : Creations T) (s : OrderSearch T) : Prop where
  perm : (s.sortedCreate ++ s.create).Perm create₀
  settled : Settled (Refers graph) s.sortedCreate.ids
  walk : Walk graph (graph.map Prod.fst) s.sortedCreate.ids s.itStack s.it
  depth : s.itStack.length ≤ 1000

/-- Every object that is named is one of the request. -/
def Known (graph : Graph) (create₀ : Creations T) : Prop :=
  (∀ id ∈ graph.map Prod.fst, id ∈ create₀.ids) ∧ ∀ fromId id, Refers graph fromId id → id ∈ create₀.ids

variable {create₀ : Creations T}

theorem Known.mem (h : Known graph create₀) {seen : List String}
   
    (hwalk : Walk graph (graph.map Prod.fst) seen itStack (id :: it)) : id ∈ create₀.ids := by
  rcases hwalk.mem with hkey | ⟨fromId, hrefers⟩
  · exact h.1 id hkey
  · exact h.2 fromId id hrefers

variable {s : OrderSearch T}

theorem take_spec
    (hperm : (s.sortedCreate ++ s.create).Perm create₀) (hsettled : Settled (Refers graph) s.sortedCreate.ids)
    (hid : id ∈ create₀.ids) (hrefs : ∀ toId, Refers graph id toId → toId ∈ s.sortedCreate.ids) :
    ((s.take id).sortedCreate ++ (s.take id).create).Perm create₀ ∧
      Settled (Refers graph) (s.take id).sortedCreate.ids ∧ id ∈ (s.take id).sortedCreate.ids ∧
      s.sortedCreate.ids ⊆ (s.take id).sortedCreate.ids := by
  rw [take]
  cases hremove : s.create.removeEntry id with
  | none =>
    refine ⟨hperm, hsettled, ?_, List.Subset.refl _⟩
    have hmem : id ∈ s.sortedCreate.ids ++ s.create.ids := by
      rw [Creations.ids, Creations.ids, ← List.map_append]
      exact ((hperm.map Prod.fst).mem_iff).mpr hid
    exact (mem_append.mp hmem).resolve_right (Creations.removeEntry_none hremove)
  | some found =>
    obtain ⟨entry, create⟩ := found
    obtain ⟨rfl, hentry⟩ := Creations.removeEntry_perm hremove
    have hids : Creations.ids (s.sortedCreate ++ [entry]) = s.sortedCreate.ids ++ [entry.1] := by
      simp [Creations.ids]
    refine ⟨?_, ?_, ?_, ?_⟩
    · dsimp only
      rw [append_assoc]
      exact (hentry.symm.append_left _).trans hperm
    · dsimp only
      rw [hids]
      exact hsettled.concat hrefs
    · dsimp only
      simp [hids]
    · dsimp only
      simp [hids]

theorem Inv.again (hknown : Known graph create₀)
    (h : Inv graph create₀ s) {next : Except SortError (OrderSearch T)} {events : List Unit}
    (hturn : turn graph (.ok s) = .again next events) : ∃ s', next = .ok s' ∧ Inv graph create₀ s' := by
  obtain ⟨hperm, hsettled, hwalk, hdepth⟩ := h
  obtain ⟨fromId, rest, toIds, hit, hget, hlt, rfl⟩ | ⟨fromId, rest, hit, hget, rfl⟩ |
    ⟨prevIt, fromId, itStack, hit, hstack, rfl⟩ := turn_again hturn
  · rw [hit] at hwalk
    exact ⟨_, rfl, hperm, hsettled, ⟨⟨[], hget, nil_subset _⟩, hwalk⟩, hlt⟩
  · rw [hit] at hwalk
    obtain ⟨hperm', hsettled', hmem, hsub⟩ := take_spec hperm hsettled (hknown.mem hwalk) fun toId hrefers => by
      obtain ⟨toIds, hsome, -⟩ := hrefers
      cases hget.symm.trans hsome
    exact ⟨_, rfl, hperm', hsettled', by simpa using (hwalk.mono hsub).advance hmem, by simpa using hdepth⟩
  · rw [hit, hstack] at hwalk
    obtain ⟨⟨done, hget, hdone⟩, hrest⟩ := hwalk
    rw [List.append_nil] at hget
    obtain ⟨hperm', hsettled', hmem, hsub⟩ := take_spec hperm hsettled (hknown.mem hrest) fun toId hrefers => by
      obtain ⟨toIds, hsome, htoId⟩ := hrefers
      cases hget.symm.trans hsome
      exact hdone htoId
    rw [hstack] at hdepth
    exact ⟨_, rfl, hperm', hsettled', (hrest.mono hsub).advance hmem, Nat.le_of_succ_le hdepth⟩

theorem turn_stop {last : Except SortError (OrderSearch T)} (h : turn graph (.ok s) = .stop last) :
    (∃ fromId rest toIds, s.it = fromId :: rest ∧ graph.get fromId = some toIds ∧ 1000 < s.itStack.length + 1 ∧
        last = .error cyclicalReferences) ∨
      (∃ fromId rest, s.it = fromId :: rest ∧ graph.get fromId = none ∧ (s.take fromId).create = [] ∧
        last = .ok { s.take fromId with it := rest }) ∨
      (∃ prevIt fromId itStack, s.it = [] ∧ s.itStack = (prevIt, fromId) :: itStack ∧
        (s.take fromId).create = [] ∧ last = .ok { s.take fromId with it := prevIt, itStack }) ∨
      s.it = [] ∧ s.itStack = [] ∧ last = .ok s := by
  rw [turn] at h
  cases hit : s.it with
  | cons fromId rest =>
    simp only [hit] at h
    cases hget : graph.get fromId with
    | some toIds =>
      simp only [hget] at h
      split at h
      · next hdeep =>
        cases h
        exact .inl ⟨_, _, _, rfl, hget, hdeep, rfl⟩
      · cases h
    | none =>
      simp only [hget] at h
      split at h
      · next hempty =>
        cases h
        exact .inr (.inl ⟨_, _, rfl, hget, List.isEmpty_iff.mp hempty.2, rfl⟩)
      · cases h
  | nil =>
    simp only [hit] at h
    cases hstack : s.itStack with
    | cons frame itStack =>
      simp only [hstack] at h
      split at h
      · next hempty =>
        cases h
        exact .inr (.inr (.inl ⟨_, _, _, rfl, rfl, List.isEmpty_iff.mp hempty.2, rfl⟩))
      · cases h
    | nil =>
      simp only [hstack] at h
      cases h
      exact .inr (.inr (.inr ⟨rfl, rfl, rfl⟩))

/-- What the search comes to: an order of all objects, or a chain of references that is too long. -/
def Found (graph : Graph) (create₀ : Creations T) : Except SortError (OrderSearch T) → Prop
  | .error error => error = cyclicalReferences ∧ ∃ chain : List String, chain.IsChain (Refers graph) ∧
      (∀ fromId ∈ chain, ∃ toIds, graph.get fromId = some toIds) ∧ 1000 < chain.length
  | .ok s => (s.sortedCreate ++ s.create).Perm create₀ ∧
      Settled (Refers graph) (Creations.ids (s.sortedCreate ++ s.create))

theorem Inv.stop (hknown : Known graph create₀)
    (hnodup : create₀.ids.Nodup) (h : Inv graph create₀ s) {last : Except SortError (OrderSearch T)}
    (hturn : turn graph (.ok s) = .stop last) : Found graph create₀ last := by
  obtain ⟨hperm, hsettled, hwalk, hdepth⟩ := h
  obtain ⟨fromId, rest, toIds, hit, hget, hdeep, rfl⟩ | ⟨fromId, rest, hit, hget, hempty, rfl⟩ |
    ⟨prevIt, fromId, itStack, hit, hstack, hempty, rfl⟩ | ⟨hit, hstack, rfl⟩ := turn_stop hturn
  · rw [hit] at hwalk
    obtain ⟨hchain, hentries⟩ := hwalk.isChain
    refine ⟨rfl, _, hchain, fun id hmem => ?_, by simp; omega⟩
    rcases mem_append.mp hmem with hmem | hmem
    · exact hentries id (mem_reverse.mp hmem)
    · rw [mem_singleton.mp hmem]
      exact ⟨toIds, hget⟩
  · rw [hit] at hwalk
    obtain ⟨hperm', hsettled', -, -⟩ := take_spec hperm hsettled (hknown.mem hwalk) fun toId hrefers => by
      obtain ⟨toIds, hsome, -⟩ := hrefers
      cases hget.symm.trans hsome
    refine ⟨hperm', ?_⟩
    rwa [hempty, List.append_nil]
  · rw [hit, hstack] at hwalk
    obtain ⟨⟨done, hget, hdone⟩, hrest⟩ := hwalk
    rw [List.append_nil] at hget
    obtain ⟨hperm', hsettled', -, -⟩ := take_spec hperm hsettled (hknown.mem hrest) fun toId hrefers => by
      obtain ⟨toIds, hsome, htoId⟩ := hrefers
      cases hget.symm.trans hsome
      exact hdone htoId
    refine ⟨hperm', ?_⟩
    rwa [hempty, List.append_nil]
  · rw [hit, hstack] at hwalk
    obtain ⟨done, hkeys, hdone⟩ := hwalk
    rw [List.append_nil] at hkeys
    refine ⟨hperm, ?_⟩
    have hids : Creations.ids (s.sortedCreate ++ s.create) = s.sortedCreate.ids ++ s.create.ids := List.map_append
    have hall : (s.sortedCreate.ids ++ s.create.ids).Nodup := by
      rw [← hids]
      exact ((hperm.map Prod.fst).nodup_iff).mpr hnodup
    have hdisjoint := (nodup_append.mp hall).2.2
    rw [hids]
    refine hsettled.append fun id hid toId hrefers => ?_
    obtain ⟨toIds, hsome, -⟩ := hrefers
    have hkey : id ∈ graph.map Prod.fst := mem_map_of_mem (Graph.mem_of_get hsome)
    exact hdisjoint id (hdone (hkeys ▸ hkey)) id hid rfl

end OrderSearch

/-- Every creation id that is referred to is one of the request. -/
def References (create : Creations T) (graph : Graph) : Prop :=
  ∀ fromId toIds, (fromId, toIds) ∈ graph → ∀ toId ∈ toIds, toId ∈ create.ids

theorem missingReference_eq_none_iff {create : Creations T} {graph : Graph} :
    missingReference create graph = none ↔ References create graph := by
  simp only [missingReference, References, List.findSome?_eq_none_iff, Prod.forall, ← Creations.mem_ids_iff]
  refine forall_congr' fun fromId => forall_congr' fun toIds => imp_congr_right fun _ => ?_
  refine forall_congr' fun toId => imp_congr_right fun _ => ?_
  split <;> simp_all

theorem found_search {create : Creations T} {graph : Graph} (hnodup : create.ids.Nodup)
    (hkeys : ∀ fromId ∈ graph.map Prod.fst, fromId ∈ create.ids) (hrefs : References create graph) :
    OrderSearch.Found graph create ((search graph).run (.ok ⟨graph.map Prod.fst, [], create, []⟩)).1 := by
  have hknown : OrderSearch.Known graph create := by
    refine ⟨hkeys, fun fromId id hrefers => ?_⟩
    obtain ⟨toIds, hget, hmem⟩ := hrefers
    exact hrefs fromId toIds (Graph.mem_of_get hget) id hmem
  have hstart : ∃ s, (.ok ⟨graph.map Prod.fst, [], create, []⟩ : Except SortError (OrderSearch T)) = .ok s ∧
      OrderSearch.Inv graph create s :=
    ⟨_, rfl, List.Perm.refl _, settled_nil, ⟨[], rfl, nil_subset _⟩, Nat.zero_le _⟩
  refine @Loop.run_holds _ _ (search graph) _
    (fun s => ∃ s', s = .ok s' ∧ OrderSearch.Inv graph create s') _ ?_ ?_ hstart
  · rintro _ next events ⟨s, rfl, hinv⟩ hturn
    exact hinv.again hknown hturn
  · rintro _ last ⟨s, rfl, hinv⟩ hturn
    exact hinv.stop hknown hnodup hturn

/-- No chain of references without a repeated object is longer than the stack. -/
def ChainsFit (graph : Graph) : Prop :=
  ∀ chain : List String, chain.IsChain (Refers graph) → chain.Nodup →
    (∀ fromId ∈ chain, ∃ toIds, graph.get fromId = some toIds) → chain.length ≤ 1000

/-- The sort succeeds iff all references are to objects of the request and no object refers to itself in turn, and
then gives each object once and after those it refers to. -/
theorem topologicalSort_isOk_iff {create : Creations T} {graph : Graph} (hnodup : create.ids.Nodup)
    (hkeys : ∀ fromId ∈ graph.map Prod.fst, fromId ∈ create.ids) (hchains : ChainsFit graph) :
    ((∃ sorted, topologicalSort create graph = .ok sorted) ↔
        References create graph ∧ Acyclic (Refers graph)) ∧
      ∀ sorted, topologicalSort create graph = .ok sorted →
        sorted.Perm create ∧ Settled (Refers graph) sorted.ids := by
  cases hmissing : missingReference create graph with
  | some error =>
    have herror : topologicalSort create graph = .error error := by rw [topologicalSort, hmissing]
    have hnot : ¬References create graph := fun h => by
      rw [missingReference_eq_none_iff.mpr h] at hmissing
      cases hmissing
    refine ⟨⟨fun ⟨sorted, h⟩ => ?_, fun h => absurd h.1 hnot⟩, fun sorted h => ?_⟩ <;>
      · rw [herror] at h
        cases h
  | none =>
    have hrefs := missingReference_eq_none_iff.mp hmissing
    have hfound := found_search hnodup hkeys hrefs
    rw [topologicalSort, hmissing]
    cases hrun : ((search graph).run (.ok ⟨graph.map Prod.fst, [], create, []⟩)).1 with
    | error error =>
      rw [hrun] at hfound
      obtain ⟨-, chain, hchain, hentries, hlong⟩ := hfound
      refine ⟨⟨fun ⟨sorted, h⟩ => (by cases h), fun h => ?_⟩, fun sorted h => (by cases h)⟩
      exact absurd (hchains chain hchain (nodup_of_isChain h.2 hchain) hentries) (Nat.not_le.mpr hlong)
    | ok s =>
      rw [hrun] at hfound
      obtain ⟨hperm, hsettled⟩ := hfound
      refine ⟨⟨fun _ => ⟨hrefs, fun id hcycle => ?_⟩, fun _ => ⟨_, rfl⟩⟩, fun sorted h => ?_⟩
      · -- an object that refers to itself in turn is one of the request
        obtain ⟨toId, ⟨toIds, hget, -⟩, -⟩ := Relation.TransGen.head'_iff.mp hcycle
        have hmem : id ∈ create.ids := hkeys id (mem_map_of_mem (Graph.mem_of_get hget))
        exact hsettled.not_cycle (((hperm.map Prod.fst).mem_iff).mpr hmem) hcycle
      · cases h
        exact ⟨hperm, hsettled⟩

theorem chainsFit_of_length {graph : Graph} (h : graph.length ≤ 1000) : ChainsFit graph := by
  intro chain _ hnodup hentries
  have hsub : chain ⊆ graph.map Prod.fst := fun fromId hmem => by
    obtain ⟨toIds, hget⟩ := hentries fromId hmem
    exact mem_map_of_mem (Graph.mem_of_get hget)
  have hle := (hnodup.subperm hsub).length_le
  rw [length_map] at hle
  exact hle.trans h

/-- A folder in a folder, with another one for both. -/
theorem topologicalSort_nested :
    ((∃ sorted, topologicalSort [("a", 1), ("b", 2), ("c", 3)] [("a", ["b", "c"]), ("b", ["c"])] = .ok sorted) ↔
        References [("a", 1), ("b", 2), ("c", 3)] [("a", ["b", "c"]), ("b", ["c"])] ∧
          Acyclic (Refers [("a", ["b", "c"]), ("b", ["c"])])) ∧
      ∀ sorted, topologicalSort [("a", 1), ("b", 2), ("c", 3)] [("a", ["b", "c"]), ("b", ["c"])] = .ok sorted →
        sorted.Perm [("a", 1), ("b", 2), ("c", 3)] ∧
          Settled (Refers [("a", ["b", "c"]), ("b", ["c"])]) (Creations.ids sorted) :=
  topologicalSort_isOk_iff (by decide) (by decide) (chainsFit_of_length (by decide))

example : topologicalSort [("a", 1), ("b", 2), ("c", 3)] [("a", ["b", "c"]), ("b", ["c"])] =
    .ok [("c", 3), ("b", 2), ("a", 1)] := by decide

end Bearmail.Jmap
