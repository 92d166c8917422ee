import Bearmail.Jmap.Changes

/-!
# Query responses

The requests of `jmap-proto/src/method/query.rs` and the `QueryResponseBuilder` of
`jmap/src/api/query.rs`, which cuts the window that was asked for out of the results.

The account, and the collation of a comparator, which nothing reads, are left out.
-/

namespace Bearmail.Jmap

inductive Filter (F : Type) where
  | property (condition : F)
  | and
  | or
  | not
  | close

structure Comparator (C : Type) where
  isAscending : Bool
  property : C

structure QueryRequest (F C A : Type) where
  filter : List (Filter F)
  sort : Option (List (Comparator C))
  position : Option Int
  anchor : Option Nat
  anchorOffset : Option Int
  limit : Option Nat
  calculateTotal : Option Bool
  arguments : A

structure QueryResponse where
  queryState : State
  position : Int
  ids : List Nat
  total : Option Nat
  limit : Option Nat
  deriving DecidableEq

def wrap32 (x : Int) : Int := Int.bmod x (2 ^ 32)

structure QueryResponseBuilder where
  requestedPosition : Int
  position : Int
  limit : Nat
  anchor : Nat
  anchorOffset : Int
  hasAnchor : Bool
  anchorFound : Bool
  index : Int
  response : QueryResponse

variable {builder : QueryResponseBuilder}

namespace QueryResponseBuilder

def new {F C A : Type} (totalResults maxResults : Nat) (queryState : State)
    (request : QueryRequest F C A) : QueryResponseBuilder :=
  let (limitTotal, limit) :=
    match request.limit with
    | some limit =>
      if 0 < limit then (min (min limit maxResults) totalResults, min limit maxResults) else (0, 0)
    | none => (min maxResults totalResults, maxResults)
  { requestedPosition := request.position.getD 0
    position := request.position.getD 0
    limit := limitTotal
    anchor := request.anchor.getD 0
    anchorOffset := request.anchorOffset.getD 0
    hasAnchor := request.anchor.isSome
    anchorFound := false
    index := 0
    response :=
      { queryState
        position := 0
        ids := []
        total := if request.calculateTotal.getD false then some totalResults else none
        limit := if limit < totalResults then some limit else none } }

def push (builder : QueryResponseBuilder) (id : Nat) : QueryResponseBuilder :=
  { builder with response := { builder.response with ids := builder.response.ids ++ [id] } }

/-- `add_id`, with whether there is room for more. -/
def addId (builder : QueryResponseBuilder) (id : Nat) : QueryResponseBuilder × Bool :=
  if !builder.hasAnchor then
    if 0 ≤ builder.position then
      if 0 < builder.position then ({ builder with position := builder.position - 1 }, true)
      else
        let builder := builder.push id
        (builder, decide (builder.response.ids.length ≠ builder.limit))
    else (builder.push id, true)
  else
    let currentIndex := builder.index
    let builder := { builder with index := wrap32 (builder.index + 1) }
    let builder :=
      if id = builder.anchor then
        { builder with
          anchorFound := true
          position := max (wrap32 (currentIndex + builder.anchorOffset)) 0 }
      else builder
    if 0 ≤ builder.anchorOffset then
      if builder.anchorFound ∧ builder.position ≤ currentIndex then
        let builder := builder.push id
        (builder, !decide (0 < builder.limit ∧ builder.response.ids.length = builder.limit))
      else (builder, true)
    else
      let builder := builder.push id
      (builder, !decide (builder.anchorFound ∧ 0 < builder.limit ∧
        builder.position.toNat + builder.limit ≤ builder.response.ids.length))

/-- The results one after the other, until there is no more room. -/
def addAll (builder : QueryResponseBuilder) : List Nat → QueryResponseBuilder
  | [] => builder
  | id :: ids =>
    match builder.addId id with
    | (builder, true) => builder.addAll ids
    | (builder, false) => builder

/-- The slice that starts at `start` and has room for `limit` ids, if there is a limit. -/
def slice (builder : QueryResponseBuilder) (start : Nat) : List Nat :=
  let ids := builder.response.ids
  let stop := if 0 < builder.limit then min (start + builder.limit) ids.length else ids.length
  (ids.take stop).drop start

def build (builder : QueryResponseBuilder) : Option QueryResponse :=
  let response := builder.response
  if builder.hasAnchor then
    if !builder.anchorFound then none
    else
      let start := (max builder.position 0).toNat
      if builder.anchorOffset < 0 then
        some { response with
          ids := builder.slice (min start response.ids.length)
          position := wrap32 start }
      else some { response with position := wrap32 start }
  else if 0 ≤ builder.requestedPosition then
    some { response with
      position := if builder.position = 0 then builder.requestedPosition else 0 }
  else
    let start := response.ids.length - builder.position.natAbs
    some { response with ids := builder.slice start, position := wrap32 start }

/-! ## Queries from the start -/

structure FromStart (builder : QueryResponseBuilder) : Prop where
  requestedPosition : builder.requestedPosition = 0
  position : builder.position = 0
  hasAnchor : builder.hasAnchor = false

theorem new_fromStart {F C A : Type} (totalResults maxResults : Nat) (queryState : State)
    {request : QueryRequest F C A} (hposition : request.position = none)
    (hanchor : request.anchor = none) :
    (new totalResults maxResults queryState request).FromStart := by
  refine ⟨?_, ?_, ?_⟩
  · rw [new, hposition]
    rfl
  · rw [new, hposition]
    rfl
  · rw [new, hanchor]
    rfl

variable (h : builder.FromStart)
include h

theorem FromStart.addId (id : Nat) : builder.addId id =
      (builder.push id, decide ((builder.push id).response.ids.length ≠ builder.limit)) := by
  simp [QueryResponseBuilder.addId, h.position, h.hasAnchor, push]

theorem FromStart.push (id : Nat) : (builder.push id).FromStart :=
  ⟨h.requestedPosition, h.position, h.hasAnchor⟩

theorem FromStart.addAll (ids : List Nat) : (builder.addAll ids).FromStart ∧ ∃ first, first <+: ids ∧
      (builder.addAll ids).response =
        { builder.response with ids := builder.response.ids ++ first } := by
  induction ids generalizing builder with
  | nil => exact ⟨h, [], List.prefix_rfl, by rw [List.append_nil]; rfl⟩
  | cons id ids ih =>
    rw [QueryResponseBuilder.addAll, h.addId]
    cases decide ((builder.push id).response.ids.length ≠ builder.limit) with
    | false => exact ⟨h.push id, [id], ⟨ids, rfl⟩, rfl⟩
    | true =>
      obtain ⟨hstart, first, hfirst, hresponse⟩ := ih (h.push id)
      refine ⟨hstart, id :: first, (List.prefix_cons_inj id).mpr hfirst, ?_⟩
      rw [hresponse]
      dsimp [QueryResponseBuilder.push]
      rw [List.append_assoc]
      rfl

theorem FromStart.build : builder.build = some { builder.response with position := 0 } := by
  simp [QueryResponseBuilder.build, h.hasAnchor, h.requestedPosition, h.position]

omit h

end QueryResponseBuilder

end Bearmail.Jmap
