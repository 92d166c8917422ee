import Mathlib.Algebra.Group.Int.Defs
import Bearmail.Jmap.Query

/-!
# The window of a query

The builder counts down a position or looks for the anchor while the results pass by, and stops where the window
ends. What it answers is the window iff a request for no ids is for one past the end, a position is not past
the end, and the places it counts fit an `i32`.
-/

namespace Bearmail.Jmap

open List Option

theorem wrap32_eq_iff {x : Int} : wrap32 x = x ↔ -2 ^ 31 ≤ x ∧ x < 2 ^ 31 := by
  rw [wrap32, Int.bmod_def]
  omega

variable {start k id place room : Nat} {builder : QueryResponseBuilder}

namespace QueryResponseBuilder

/-! ## Overflow -/

def Overflows (builder : QueryResponseBuilder) (id : Nat) : Prop :=
  builder.hasAnchor = true ∧ (wrap32 (builder.index + 1) ≠ builder.index + 1 ∨ id = builder.anchor ∧
        wrap32 (builder.index + builder.anchorOffset) ≠ builder.index + builder.anchorOffset)

def OverflowsIn (builder : QueryResponseBuilder) : List Nat → Prop
  | [] => False
  | id :: ids =>
    builder.Overflows id ∨
      match builder.addId id with
      | (builder, true) => builder.OverflowsIn ids
      | (_, false) => False

/-! ## Runs -/

theorem addAll_states {ids : List Nat} {count : Nat} {state : Nat → QueryResponseBuilder} {more : Nat → Bool}
    (hle : count ≤ ids.length) (hmore : ∀ k, k + 1 < count → more k = true)
    (hend : count < ids.length → ∃ last, count = last + 1 ∧ more last = false)
    (hstep : ∀ k id, k < count → ids[k]? = some id → ¬(state k).Overflows id →
      (state k).addId id = (state (k + 1), more k)) :
    ((state 0).OverflowsIn ids ↔ ∃ k id, k < count ∧ ids[k]? = some id ∧ (state k).Overflows id) ∧
      (¬(state 0).OverflowsIn ids → (state 0).addAll ids = state count) := by
  induction ids generalizing count state more with
  | nil =>
    obtain rfl : count = 0 := Nat.le_zero.mp hle
    exact ⟨iff_of_false id fun ⟨k, _, hk, _⟩ => absurd hk (Nat.not_lt_zero k), fun _ => rfl⟩
  | cons id ids ih =>
    obtain ⟨rest, rfl⟩ : ∃ rest, count = rest + 1 := by
      cases count with
      | zero =>
        obtain ⟨last, hlast, -⟩ := hend (Nat.zero_lt_succ _)
        cases hlast
      | succ rest => exact ⟨rest, rfl⟩
    by_cases hover : (state 0).Overflows id
    · exact ⟨iff_of_true (.inl hover) ⟨0, id, Nat.zero_lt_succ _, rfl, hover⟩, fun h => absurd (.inl hover) h⟩
    · have hfirst := hstep 0 id (Nat.zero_lt_succ _) rfl hover
      rw [OverflowsIn, addAll, hfirst, or_iff_right hover]
      cases hgoes : more 0 with
      | false =>
        obtain rfl : rest = 0 := by
          cases rest with
          | zero => rfl
          | succ rest => rw [hmore 0 (by omega)] at hgoes; cases hgoes
        refine ⟨iff_of_false (fun h => h) ?_, fun _ => rfl⟩
        rintro ⟨k, id', hk, hid, hno⟩
        obtain rfl : k = 0 := by omega
        cases hid
        exact hover hno
      | true =>
        obtain ⟨hiff, hall⟩ := @ih rest (fun k => state (k + 1)) (fun k => more (k + 1))
          (Nat.le_of_succ_le_succ hle) (fun k hk => hmore (k + 1) (Nat.succ_lt_succ hk))
          (fun hlt => by
            obtain ⟨last, hlast, hstop⟩ := hend (Nat.succ_lt_succ hlt)
            obtain rfl := Nat.succ.inj hlast
            cases rest with
            | zero => rw [hgoes] at hstop; cases hstop
            | succ last => exact ⟨last, rfl, hstop⟩)
          fun k id' hk => hstep (k + 1) id' (Nat.succ_lt_succ hk)
        refine ⟨hiff.trans ⟨?_, ?_⟩, hall⟩
        · rintro ⟨k, id', hk, hid, hno⟩
          exact ⟨k + 1, id', Nat.succ_lt_succ hk, hid, hno⟩
        · rintro ⟨k, id', hk, hid, hno⟩
          cases k with
          | zero => cases hid; exact absurd hno hover
          | succ k => exact ⟨k, id', Nat.lt_of_succ_lt_succ hk, hid, hno⟩

def seen (results : List Nat) (start k : Nat) : List Nat := (results.take k).drop start

variable {results : List Nat}

theorem seen_succ (hid : results[k]? = some id) :
    seen results start (k + 1) = seen results start k ++ if start ≤ k then [id] else [] := by
  have hk : k < results.length := (List.getElem?_eq_some_iff.mp hid).1
  rw [seen, take_add_one, hid, drop_append, length_take, Nat.min_eq_left (Nat.le_of_lt hk)]
  refine congrArg _ ?_
  split
  · rw [Nat.sub_eq_zero_of_le ‹_›]
    rfl
  · exact drop_eq_nil_of_le (by simp only [toList_some, length_singleton]; omega)

theorem length_seen {start k : Nat} (hk : k ≤ results.length) :
    (seen results start k).length = k - start := by
  simp [seen, length_take, Nat.min_eq_left hk]

/-! ## A position -/

def counting (builder : QueryResponseBuilder) (results : List Nat) (k : Nat) : QueryResponseBuilder :=
  { builder with
    position := if builder.position < 0 then builder.position else max 0 (builder.position - k)
    response := { builder.response with ids := seen results builder.position.toNat k } }

theorem counting_addId (hno : builder.hasAnchor = false) (hid : results[k]? = some id) :
    (builder.counting results k).addId id = (builder.counting results (k + 1),
      decide (builder.position < 0 ∨ builder.limit = 0 ∨ k + 1 ≠ builder.position.toNat + builder.limit)) := by
  have hlength := @length_seen results builder.position.toNat k (Nat.le_of_lt (List.getElem?_eq_some_iff.mp hid).1)
  rw [addId, counting, counting, seen_succ hid]
  simp only [hno, Bool.not_false, if_true, QueryResponseBuilder.push, length_append, hlength]
  by_cases hneg : builder.position < 0
  · simp [hneg, Int.not_le.mpr hneg, show builder.position.toNat ≤ k by omega]
  · simp only [hneg, if_false, false_or]
    rw [if_pos (by omega)]
    by_cases hbefore : (k : Int) < builder.position
    · rw [if_pos (by omega), if_neg (by omega), List.append_nil, decide_eq_true (by omega)]
      congr 2
      omega
    · rw [if_neg (by omega), if_pos (by omega)]
      congr 1
      · congr 1
        omega
      · simp only [length_singleton, decide_eq_decide]
        omega

/-! ## An anchor -/

def come (builder : QueryResponseBuilder) (id : Nat) : QueryResponseBuilder :=
  { builder with
    index := wrap32 (builder.index + 1)
    anchorFound := builder.anchorFound || decide (id = builder.anchor)
    position :=
      if id = builder.anchor then max (wrap32 (builder.index + builder.anchorOffset)) 0 else builder.position }

theorem addId_eq_come (hhas : builder.hasAnchor = true) (id : Nat) : builder.addId id =
      if 0 ≤ builder.anchorOffset then
        if (builder.come id).anchorFound ∧ (builder.come id).position ≤ builder.index then
          ((builder.come id).push id,
            !decide (0 < builder.limit ∧ builder.response.ids.length + 1 = builder.limit))
        else (builder.come id, true)
      else
        ((builder.come id).push id, !decide ((builder.come id).anchorFound ∧ 0 < builder.limit ∧
          (builder.come id).position.toNat + builder.limit ≤ builder.response.ids.length + 1)) := by
  rw [addId]
  by_cases hid : id = builder.anchor
  all_goals simp [hid, come, push, hhas]

def keptFrom (builder : QueryResponseBuilder) (start : Nat) : Nat :=
  if 0 ≤ builder.anchorOffset then start else 0

def looking (builder : QueryResponseBuilder) (results : List Nat) (place start k : Nat) :
    QueryResponseBuilder :=
  { builder with
    anchorFound := decide (place < k)
    index := k
    position := if place < k then start else builder.position
    response := { builder.response with ids := seen results (builder.keptFrom start) k } }

theorem looking_come (hplace : id = builder.anchor ↔ k = place)
    (hstart : start = (place + builder.anchorOffset).toNat) (hhas : builder.hasAnchor = true)
    (hfits : ¬(builder.looking results place start k).Overflows id) :
    (builder.looking results place start k).come id =
      { builder.looking results place start (k + 1) with
        response := { builder.response with ids := seen results (builder.keptFrom start) k } } := by
  obtain ⟨hindex, hposition⟩ : wrap32 (k + 1) = (k + 1 : Nat) ∧
      (k = place → wrap32 (k + builder.anchorOffset) = k + builder.anchorOffset) := by
    simp only [Overflows, looking, hhas, hplace, true_and, not_or, not_and, not_not, ne_eq] at hfits
    exact hfits
  have hfound : place < k + 1 ↔ place < k ∨ k = place := by omega
  simp only [come, looking, hindex, hplace, hfound, Bool.decide_or]
  by_cases hat : k = place
  · have hwrap := hposition hat
    subst hat
    have hmax : max (k + builder.anchorOffset) 0 = (start : Int) := by omega
    rw [if_pos rfl, hwrap, hmax, if_pos (.inr rfl)]
  · simp [hat]

/-- One result more: the window ends where `place` is passed and `limit` ids from the start on are seen. -/
theorem looking_addId (hhas : builder.hasAnchor = true)
    (hid : results[k]? = some id) (hplace : id = builder.anchor ↔ k = place)
    (hstart : start = (place + builder.anchorOffset).toNat)
    (hk : 0 < builder.limit → k < max (place + 1) (start + builder.limit))
    (hfits : ¬(builder.looking results place start k).Overflows id) :
    (builder.looking results place start k).addId id = (builder.looking results place start (k + 1),
      decide (builder.limit = 0 ∨ k + 1 ≠ max (place + 1) (start + builder.limit))) := by
  have hlength (start : Nat) := @length_seen results start k (Nat.le_of_lt (List.getElem?_eq_some_iff.mp hid).1)
  have hnext : builder.looking results place start (k + 1) =
      { builder.looking results place start (k + 1) with
        response :=
          { builder.response with
            ids := seen results (builder.keptFrom start) k ++ if builder.keptFrom start ≤ k then [id] else [] } } := by
    rw [looking, seen_succ hid]
  rw [addId_eq_come (show (builder.looking results place start k).hasAnchor = true from hhas),
    looking_come hplace hstart hhas hfits, hnext]
  simp only [looking, keptFrom]
  by_cases hoff : 0 ≤ builder.anchorOffset
  · simp only [hoff, if_true, hlength]
    by_cases hpast : place ≤ k ∧ start ≤ k
    · rw [if_pos (by simp; omega), if_pos hpast.2]
      refine congrArg (Prod.mk _) ?_
      rw [← decide_not, decide_eq_decide]
      omega
    · rw [if_neg (by simp; omega), if_neg (show ¬start ≤ k by omega), List.append_nil]
      refine congrArg (Prod.mk _) (decide_eq_true ?_).symm
      omega
  · simp only [hoff, if_false, hlength, Nat.zero_le, if_true]
    refine congrArg (Prod.mk _) ?_
    rw [← decide_not, decide_eq_decide]
    by_cases hpast : place < k + 1
    · simp only [hpast, decide_true, if_true, true_and, Int.toNat_natCast]
      omega
    · simp only [hpast, decide_false, Bool.false_eq_true, false_and, not_false_eq_true, true_iff]
      omega

/-! ## The window -/

section

variable {F C A : Type}

/-- Where the window starts, or `none` for an anchor that is not there. -/
def windowStart (results : List Nat) (request : QueryRequest F C A) : Option Nat :=
  match request.anchor with
  | some anchor =>
    if anchor ∈ results then some (results.idxOf anchor + request.anchorOffset.getD 0).toNat else none
  | none =>
    let position := request.position.getD 0
    some (if position < 0 then results.length + position else position).toNat

def windowLimit (maxResults : Nat) (request : QueryRequest F C A) : Nat :=
  match request.limit with
  | some limit => min limit maxResults
  | none => maxResults

def window (results : List Nat) (maxResults : Nat) (request : QueryRequest F C A) : Option (List Nat × Int) :=
  (windowStart results request).map fun start =>
    ((results.drop start).take (windowLimit maxResults request), (start : Int))

/-- The results are fed to the builder, which answers their window without an overflow. -/
def AnswersWindow (results : List Nat) (maxResults : Nat) (queryState : State) (request : QueryRequest F C A) :
    Prop :=
  let builder := new results.length maxResults queryState request
  ¬builder.OverflowsIn results ∧
    (builder.addAll results).build.map (fun response => (response.ids, response.position)) =
      window results maxResults request

structure Admitted (request : QueryRequest F C A) : Prop where
  position : ∀ position ∈ request.position, -2 ^ 31 ≤ position ∧ position < 2 ^ 31
  anchorOffset : ∀ offset ∈ request.anchorOffset, -2 ^ 31 ≤ offset ∧ offset < 2 ^ 31

def Counted (results : List Nat) (maxResults : Nat) (request : QueryRequest F C A) : Prop :=
  match windowStart results request with
  | none => results.length < 2 ^ 31
  | some start =>
    (windowLimit maxResults request = 0 → results.length ≤ start) ∧ start < 2 ^ 31 ∧
      match request.anchor with
      | none => 0 ≤ request.position.getD 0 → start ≤ results.length
      | some anchor =>
        min results.length (max (results.idxOf anchor + 1) (start + windowLimit maxResults request)) < 2 ^ 31

variable {results : List Nat} {maxResults : Nat} {queryState : State} {request : QueryRequest F C A}

theorem new_limit : (new results.length maxResults queryState request).limit =
    min (windowLimit maxResults request) results.length := by
  rw [new, windowLimit]
  cases request.limit with
  | none => rfl
  | some limit =>
    by_cases hpos : 0 < limit
    · simp [if_pos hpos]
    · obtain rfl : limit = 0 := by omega
      simp

/-- The room that the builder starts with: it takes its own limit of 0 for none at all. -/
structure StartRoom (results : List Nat) (count room limit : Nat) : Prop where
  limit : limit = 0 ∧ results.length ≤ room ∨ 0 < room ∧ room = limit
  take_iff : ∀ start, (results.drop start).take room = (results.drop start).take count ↔
    (count = 0 → results.length ≤ start)
  stop_eq : ∀ start reached, (count = 0 → results.length ≤ start) →
    min results.length (max reached (start + room)) = min results.length (max reached (start + count))

theorem exists_room (results : List Nat) (maxResults : Nat) (request : QueryRequest F C A) :
    ∃ room, StartRoom results (windowLimit maxResults request) room
      (min (windowLimit maxResults request) results.length) := by
  by_cases hzero : min (windowLimit maxResults request) results.length = 0
  · refine ⟨results.length, .inl ⟨hzero, Nat.le_refl _⟩, fun start => ?_, fun start reached h => by omega⟩
    rw [take_eq_take_iff, length_drop]
    omega
  · refine ⟨_, .inr ⟨by omega, rfl⟩, fun start => ?_, fun start reached h => by omega⟩
    rw [take_eq_take_iff, length_drop]
    omega

theorem slice_eq {kept : Nat} (hids : builder.response.ids = results.take kept)
    (hroom : builder.limit = 0 ∧ results.length ≤ room ∨ 0 < room ∧ room = builder.limit)
    (hkept : results.length ≤ kept ∨ 0 < builder.limit ∧ start + room ≤ kept) :
    builder.slice start = (results.drop start).take room := by
  rw [slice, hids, take_take, drop_take, take_eq_take_iff, length_drop, length_take]
  split <;> omega

/-! ## Runs over the results -/

theorem addAll_counting (hno : builder.hasAnchor = false) (hids : builder.response.ids = [])
    (hroom : builder.limit = 0 ∧ results.length ≤ room ∨ 0 < room ∧ room = builder.limit) :
    ¬builder.OverflowsIn results ∧ builder.addAll results = builder.counting results
      (if builder.position < 0 then results.length else min results.length (builder.position.toNat + room)) := by
  have hzero : builder.counting results 0 = builder := by
    have hposition : (if builder.position < 0 then builder.position else max 0 (builder.position - (0 : Nat))) =
        builder.position := by
      omega
    rw [counting, hposition, seen, take_zero, drop_nil, ← hids]
  obtain ⟨count, hcount⟩ : ∃ count, count =
      if builder.position < 0 then results.length else min results.length (builder.position.toNat + room) := ⟨_, rfl⟩
  have hcases : builder.position < 0 ∧ count = results.length ∨
      0 ≤ builder.position ∧ count = min results.length (builder.position.toNat + room) := by
    split at hcount
    · exact .inl ⟨‹_›, hcount⟩
    · exact .inr ⟨by omega, hcount⟩
  obtain ⟨hiff, hall⟩ := @addAll_states results count (builder.counting results)
    (fun k => decide (builder.position < 0 ∨ builder.limit = 0 ∨ k + 1 ≠ builder.position.toNat + builder.limit))
    (by omega) (fun k hk => decide_eq_true (by omega))
    (fun hlt => ⟨count - 1, by omega, decide_eq_false (by omega)⟩) fun k id _ hid _ => counting_addId hno hid
  rw [hzero] at hiff hall
  have hover : ¬builder.OverflowsIn results := by
    rw [hiff]
    rintro ⟨k, id, -, -, hanchor, -⟩
    rw [show (builder.counting results k).hasAnchor = builder.hasAnchor from rfl, hno] at hanchor
    cases hanchor
  exact ⟨hover, hcount ▸ hall hover⟩

/-- The places of the results fit an `i32`, as the place of the anchor does after its offset. -/
theorem addAll_looking (hnodup : results.Nodup) (hhas : builder.hasAnchor = true)
    (hfound : builder.anchorFound = false) (hindex : builder.index = (0 : Nat))
    (hids : builder.response.ids = []) (hrange : -2 ^ 31 ≤ builder.anchorOffset) {count : Nat}
    (hroom : builder.limit = 0 ∧ results.length ≤ room ∨ 0 < room ∧ room = builder.limit)
    (hplace : place = results.idxOf builder.anchor)
    (hstart : start = (place + builder.anchorOffset).toNat)
    (hcount : count = min results.length (max (place + 1) (start + room))) :
    (¬builder.OverflowsIn results ↔
        count < 2 ^ 31 ∧ (place < results.length → place + builder.anchorOffset < 2 ^ 31)) ∧
      (¬builder.OverflowsIn results → builder.addAll results = builder.looking results place start count) := by
  have hzero : builder.looking results place start 0 = builder := by
    rw [looking, decide_eq_false (Nat.not_lt_zero place), if_neg (Nat.not_lt_zero place), seen, take_zero,
      drop_nil, ← hids, ← hfound, ← hindex]
  have hat {k id : Nat} (hid : results[k]? = some id) : id = builder.anchor ↔ k = place := by
    obtain ⟨hk, rfl⟩ := List.getElem?_eq_some_iff.mp hid
    rw [hplace]
    refine ⟨fun h => by rw [← h, hnodup.idxOf_getElem], fun h => ?_⟩
    subst h
    exact getElem_idxOf hk
  obtain ⟨hiff, hall⟩ := @addAll_states results count (builder.looking results place start)
    (fun k => decide (builder.limit = 0 ∨ k + 1 ≠ max (place + 1) (start + builder.limit)))
    (by omega) (fun k hk => decide_eq_true (by omega))
    (fun hlt => ⟨count - 1, by omega, decide_eq_false (by omega)⟩)
    fun k id hk hid => looking_addId hhas hid (hat hid) hstart (by omega)
  rw [hzero] at hiff hall
  refine ⟨?_, hall⟩
  have hover {k id : Nat} (hid : results[k]? = some id) : (builder.looking results place start k).Overflows id ↔
      2 ^ 31 ≤ k + 1 ∨ k = place ∧ 2 ^ 31 ≤ place + builder.anchorOffset := by
    simp only [Overflows, looking, hhas, hat hid, true_and, ne_eq, wrap32_eq_iff]
    omega
  rw [hiff]
  constructor
  · intro h
    have hno (k : Nat) (hk : k < count) :
        ¬(2 ^ 31 ≤ k + 1 ∨ k = place ∧ 2 ^ 31 ≤ place + builder.anchorOffset) := by
      obtain ⟨id, hid⟩ : ∃ id, results[k]? = some id := ⟨_, List.getElem?_eq_getElem (by omega)⟩
      exact fun hno => h ⟨k, id, hk, hid, (hover hid).mpr hno⟩
    constructor
    · have := hno (count - 1)
      omega
    · intro hlt
      have := hno place (by omega)
      omega
  · rintro ⟨hlt, hoffset⟩ ⟨k, id, hk, hid, hno⟩
    rw [hover hid] at hno
    omega

/-! ## The answer -/

theorem build_counting (hno : builder.hasAnchor = false)
    (hrequested : builder.requestedPosition = builder.position)
    (hroom : builder.limit = 0 ∧ results.length ≤ room ∨ 0 < room ∧ room = builder.limit) :
    (builder.counting results (if builder.position < 0 then results.length
        else min results.length (builder.position.toNat + room))).build.map
        (fun response => (response.ids, response.position)) =
      some (if builder.position < 0 then
          ((results.drop (results.length + builder.position).toNat).take room,
            wrap32 (results.length + builder.position).toNat)
        else ((results.drop builder.position.toNat).take room,
          if builder.position.toNat ≤ results.length then builder.position else 0)) := by
  by_cases hneg : builder.position < 0
  · have hids : (builder.counting results results.length).response.ids = results.take results.length := by
      rw [counting, seen, Int.toNat_of_nonpos (by omega), drop_zero]
    have hstart : results.length - builder.position.natAbs = (results.length + builder.position).toNat := by
      omega
    have hslice := @slice_eq (results.length + builder.position).toNat _ _ _ _ hids hroom (.inl (Nat.le_refl _))
    simp only [hneg, if_true, ← hslice]
    rw [build, hids]
    simp [counting, hno, hrequested, Int.not_le.mpr hneg, hneg, hstart]
  · simp only [hneg, if_false]
    rw [build]
    simp only [counting, hno, Bool.false_eq_true, if_false, hrequested, Int.not_lt.mp hneg, if_true, hneg,
      map_some, seen]
    have hids : (results.take (min results.length (builder.position.toNat + room))).drop builder.position.toNat =
        (results.drop builder.position.toNat).take room := by
      rw [drop_take, take_eq_take_iff, length_drop]
      omega
    have hpast : max 0 (builder.position - (min results.length (builder.position.toNat + room) : Nat)) = 0 ↔
        builder.position.toNat ≤ results.length := by
      omega
    simp only [hids, hpast]

theorem answersWindow_position (hanchor : request.anchor = none) (hadmitted : Admitted request) :
    AnswersWindow results maxResults queryState request ↔ Counted results maxResults request := by
  obtain ⟨room, hroom⟩ := exists_room results maxResults request
  rw [← @new_limit _ _ _ results maxResults queryState request] at hroom
  obtain ⟨builder, hbuilder⟩ : ∃ builder, builder = new results.length maxResults queryState request := ⟨_, rfl⟩
  have hno : builder.hasAnchor = false := by
    rw [hbuilder, new, hanchor]
    rfl
  have hposition : builder.position = request.position.getD 0 := by rw [hbuilder, new]
  have hrequested : builder.requestedPosition = builder.position := by rw [hbuilder, new]
  have hids : builder.response.ids = [] := by rw [hbuilder, new]
  have hrange : request.position.getD 0 < 2 ^ 31 := by
    cases hp : request.position with
    | none => decide
    | some position => exact (hadmitted.position position hp).2
  simp only [AnswersWindow, Counted, window, windowStart, hanchor, ← hbuilder, map_some]
  rw [← hbuilder] at hroom
  obtain ⟨hover, hall⟩ := addAll_counting hno hids hroom.limit
  rw [hall, build_counting hno hrequested hroom.limit, hposition]
  simp only [hover, not_false_eq_true, true_and, Option.some.injEq]
  by_cases hneg : request.position.getD 0 < 0
  · simp only [hneg, if_true, Prod.mk.injEq, hroom.take_iff, wrap32_eq_iff]
    omega
  · simp only [hneg, if_false, Prod.mk.injEq, hroom.take_iff]
    split <;> omega

theorem build_found {builder : QueryResponseBuilder} (hhas : builder.hasAnchor = true)
    (hfound : builder.anchorFound = true) {start : Nat} (hposition : builder.position = start)
    (hlt : start < 2 ^ 31) :
    builder.build.map (fun response => (response.ids, response.position)) =
      some (if builder.anchorOffset < 0 then builder.slice (min start builder.response.ids.length)
        else builder.response.ids, (start : Int)) := by
  have hstart : (max builder.position 0).toNat = start := by omega
  have hwrap : wrap32 start = start := wrap32_eq_iff.mpr (by omega)
  simp only [build, hhas, hfound, Bool.not_true, Bool.false_eq_true, if_false, if_true, hstart, hwrap]
  split <;> rfl

theorem build_looking (hhas : builder.hasAnchor = true) {count : Nat}
    (hroom : builder.limit = 0 ∧ results.length ≤ room ∨ 0 < room ∧ room = builder.limit)
    (hplace : place < results.length) (hstart : start = (place + builder.anchorOffset).toNat)
    (hcount : count = min results.length (max (place + 1) (start + room))) (hlt : start < 2 ^ 31) :
    (builder.looking results place start count).build.map (fun response => (response.ids, response.position)) =
      some ((results.drop start).take room, (start : Int)) := by
  have hfound : place < count := by omega
  rw [@build_found (builder.looking results place start count) hhas (decide_eq_true hfound) start (if_pos hfound)
      hlt,
    show (builder.looking results place start count).anchorOffset = builder.anchorOffset from rfl]
  by_cases hoff : builder.anchorOffset < 0
  · have hids : (builder.looking results place start count).response.ids = results.take count := by
      rw [looking, keptFrom, if_neg (Int.not_le.mpr hoff), seen, drop_zero]
    have hkept : results.length ≤ count ∨ 0 < builder.limit ∧ start + room ≤ count := by omega
    rw [if_pos hoff, hids, length_take, Nat.min_eq_left (by omega), slice_eq hids hroom hkept]
  · have hids : (builder.looking results place start count).response.ids = (results.drop start).take room := by
      rw [looking, keptFrom, if_pos (Int.not_lt.mp hoff), seen, drop_take, take_eq_take_iff, length_drop]
      omega
    rw [if_neg hoff, hids]

theorem answersWindow_anchor {anchor : Nat} (hanchor : request.anchor = some anchor) (hnodup : results.Nodup)
    (hadmitted : Admitted request) :
    AnswersWindow results maxResults queryState request ↔ Counted results maxResults request := by
  obtain ⟨room, hroom⟩ := exists_room results maxResults request
  rw [← @new_limit _ _ _ results maxResults queryState request] at hroom
  obtain ⟨builder, hbuilder⟩ : ∃ builder, builder = new results.length maxResults queryState request := ⟨_, rfl⟩
  have hhas : builder.hasAnchor = true := by rw [hbuilder, new, hanchor]; rfl
  obtain rfl : anchor = builder.anchor := by rw [hbuilder, new, hanchor]; rfl
  have hfound : builder.anchorFound = false := by rw [hbuilder, new]
  have hindex : builder.index = (0 : Nat) := by rw [hbuilder]; rfl
  have hoffset : builder.anchorOffset = request.anchorOffset.getD 0 := by rw [hbuilder, new]
  have hids : builder.response.ids = [] := by rw [hbuilder, new]
  have hrange : -2 ^ 31 ≤ builder.anchorOffset := by
    rw [hoffset]
    cases ho : request.anchorOffset with
    | none => decide
    | some offset => exact (hadmitted.anchorOffset offset ho).1
  obtain ⟨start, hstart⟩ : ∃ start, start = (results.idxOf builder.anchor + builder.anchorOffset).toNat := ⟨_, rfl⟩
  rw [← hbuilder] at hroom
  obtain ⟨hover, hall⟩ := addAll_looking hnodup hhas hfound hindex hids hrange hroom.limit rfl hstart rfl
  simp only [AnswersWindow, Counted, window, windowStart, hanchor, ← hbuilder, ← hoffset, ← hstart]
  rw [and_congr_right fun h => by rw [hall h]]
  by_cases hmem : builder.anchor ∈ results
  · have hlt : results.idxOf builder.anchor < results.length := idxOf_lt_length_of_mem hmem
    simp only [if_pos hmem, map_some]
    rw [and_congr_right fun h => by
      rw [build_looking hhas hroom.limit hlt hstart rfl (by have := (hover.mp h).2 hlt; omega), Option.some.injEq,
        Prod.mk.injEq, and_iff_left rfl], hover, hroom.take_iff]
    constructor
    · rintro ⟨⟨hcount, hoff⟩, hzero⟩
      exact ⟨hzero, by have := hoff hlt; omega, by rwa [← hroom.stop_eq _ _ hzero]⟩
    · rintro ⟨hzero, hstart, hcount⟩
      exact ⟨⟨by rwa [hroom.stop_eq _ _ hzero], fun _ => by omega⟩, hzero⟩
  · have hlength : results.idxOf builder.anchor = results.length := idxOf_eq_length hmem
    simp only [if_neg hmem, map_none]
    rw [and_iff_left, hover]
    · omega
    · rw [build]
      simp only [looking, hhas, hlength]
      rw [decide_eq_false (by omega)]
      rfl

/-- The builder answers the window iff it can count its places. -/
theorem answersWindow_iff (hnodup : results.Nodup) (hadmitted : Admitted request) :
    AnswersWindow results maxResults queryState request ↔ Counted results maxResults request := by
  cases hanchor : request.anchor with
  | none => exact answersWindow_position hanchor hadmitted
  | some anchor => exact answersWindow_anchor hanchor hnodup hadmitted

end

def page : QueryRequest Unit Unit Unit := ⟨[], none, some 1, none, none, some 2, none, ()⟩

theorem answersWindow_page : AnswersWindow [7, 8, 9, 10] 100 .initial page ↔ Counted [7, 8, 9, 10] 100 page :=
  answersWindow_iff (by decide) ⟨by simp [page], by simp [page]⟩

def noIds : QueryRequest Unit Unit Unit := ⟨[], none, none, none, none, some 0, none, ()⟩

theorem not_answersWindow_noIds :
    [7, 8, 9].Nodup ∧ Admitted noIds ∧ ¬AnswersWindow [7, 8, 9] 100 .initial noIds := by
  refine ⟨by decide, ⟨by simp [noIds], by simp [noIds]⟩, fun h => ?_⟩
  exact absurd h.2 (by decide)

end QueryResponseBuilder

end Bearmail.Jmap
