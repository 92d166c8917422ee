import Bearmail.Jmap.Changes
import Bearmail.Sync.Objects
import Bearmail.Lib.Runs

/-!
# A client that follows the changes

A client has a list of the objects of one type, and for each the last change whose content it has
seen. It starts with nothing and the initial state, or with a complete listing, and then asks for
changes again and again. In between anything may be committed, the log may be cut, and the cache
may be lost.

The world is that of one type of objects in one account, for one reader. Each request is one step.
-/

namespace Bearmail.Jmap

open Sync

structure Client where
  has : Nat → Bool
  /-- the last change of an object when its content was fetched -/
  seen : Nat → Nat
  state : StateText

/-- The lists of a response in order. The client fetches what was created and updated. -/
def Client.apply (client : Client) (lastChange : Nat → Nat) (response : ChangesResponse) : Client where
  has := fun id => (client.has id || decide (id ∈ response.created)) && !decide (id ∈ response.destroyed)
  seen := fun id => if id ∈ response.created ∨ id ∈ response.updated then lastChange id
    else client.seen id
  state := response.newState.display

structure World where
  log : Log
  /-- all commits, also those that are no longer in the log -/
  history : History
  /-- share notifications that have been destroyed, or have expired -/
  gone : Nat → Bool
  cache : Option CacheIds
  reader : Reader
  client : Client

def World.new (reader : Reader) : World :=
  ⟨[], [], fun _ => false, none, reader, ⟨fun _ => false, fun _ => 0, .n⟩⟩

structure Commit where
  entry : LogEntry
  distinct : entry.Distinct

inductive Label where
  /-- a commit, with what the reader may read behind it -/
  | commit (changeId : Nat) (commit : Commit) (reader : Reader)
  | deleteChanges (maxEntries : Nat)
  | clearNotification (id : Nat)
  | evict
  | fetch
  | list
  | changes (maxChanges : Option Nat)

section World

variable (object : MethodObject) (maxResults : Nat) (w : World)

def World.effects : History := Sync.effects object.collection.isShareLog w.history

def World.present (id : Nat) : Bool :=
  existing object.isContainer id (w.effects object) && !w.gone id

def World.mayRead (id : Nat) : Bool := w.present object id && w.reader.allows id

def World.lastChange (id : Nat) : Nat := Sync.lastChange object.isContainer id (w.effects object)

/-- The cache behind a request that needs it. -/
def World.fetched : Option CacheIds :=
  match object.collection.cacheKind with
  | some kind => some (CacheIds.fetch kind w.log w.cache)
  | none => w.cache

/-- `changes` looks at the cache for the state, and for what a reader may read. -/
def World.fetchedBy (sinceState : State) : Option CacheIds :=
  let forState :=
    match sinceState with
    | .exact _ => object.usesCachedState
    | _ => false
  if !(object.membersOnly && w.reader.isSome) && (w.reader.isSome || forState) then
    w.fetched object
  else w.cache

def World.call (sinceState : State) (maxChanges : Option Nat) :
    Except ChangesError ChangesResponse :=
  changes object w.reader maxResults w.log
    ((w.fetchedBy object sinceState).getD (.build w.log)) sinceState maxChanges

def World.listState : State :=
  match object.collection.cacheKind with
  | some kind => (CacheIds.fetch kind w.log w.cache).getState object.isContainer
  | none => logState w.log

def World.step : Label → Option World
  | .commit changeId commit reader =>
    if 0 < changeId ∧ ∀ earlier ∈ w.history, earlier.1 < changeId then
      some { w with
        log := w.log ++ [(changeId, some commit.entry)]
        history := w.history ++ [(changeId, commit.entry)]
        reader }
    else none
  | .deleteChanges maxEntries =>
    if object.collection.isShareLog then none
    else some { w with log := w.log.deleteChanges maxEntries }
  | .clearNotification id =>
    if object.collection.isShareLog then
      some { w with
        log := w.log.filter fun item => decide (item.1 ≠ id)
        gone := fun id' => decide (id' = id) || w.gone id' }
    else none
  | .evict => some { w with cache := none }
  | .fetch => some { w with cache := w.fetched object }
  | .list =>
    some { w with
      cache := w.fetched object
      client := ⟨w.mayRead object, w.lastChange object, (w.listState object).display⟩ }
  | .changes maxChanges =>
    match State.parse w.client.state with
    | none => some w
    | some sinceState =>
      match w.call object maxResults sinceState maxChanges with
      | .error _ => some { w with cache := w.fetchedBy object sinceState }
      | .ok response =>
        some { w with
          cache := w.fetchedBy object sinceState
          client := w.client.apply (w.lastChange object) response }

end World

/-- The client has the objects that exist and that it may read, with their content. -/
def InSync (object : MethodObject) (w : World) : Prop :=
  ∀ id, w.client.has id = w.mayRead object id ∧
    (w.mayRead object id = true → w.client.seen id = w.lastChange object id)

/-! ## In step -/

/-- Once the rest of a list has been applied, the client has the objects of a position in the
history; what it has seen of them is not older. -/
structure InStep (isContainer : Bool) (reader : Reader) (client : Client) (now position : History)
    (rest : List Change) : Prop where
  has : ∀ id, reader.allows id = true → (existing isContainer id position = true ↔
    (client.has id = true ∨ ⟨isContainer, .insert, id⟩ ∈ rest) ∧ ⟨isContainer, .delete, id⟩ ∉ rest)
  seen : ∀ id, reader.allows id = true → existing isContainer id position = true →
    lastChange isContainer id position ≤ client.seen id ∨
      ∃ kind, kind ≠ .delete ∧ ⟨isContainer, kind, id⟩ ∈ rest
  others : ∀ id, reader.allows id = false → client.has id = false
  bound : ∀ id, client.seen id ≤ lastChange isContainer id now

def allowedChanges (reader : Reader) (changes : List Change) : List Change :=
  changes.filter fun change => reader.allows change.id

section InStep

variable {isContainer : Bool} {reader : Reader} {client : Client} {now position : History}
  {rest : List Change}

theorem mem_allowedChanges {changes : List Change} {change : Change} :
    change ∈ allowedChanges reader changes ↔ change ∈ changes ∧ reader.allows change.id = true := by
  simp [allowedChanges]

theorem mem_idsOf {page : List Change} (h : ∀ change ∈ page, change.isContainer = isContainer)
    {kinds : List ChangeKind} {id : Nat} :
    id ∈ idsOf page kinds ↔ ∃ kind ∈ kinds, ⟨isContainer, kind, id⟩ ∈ page := by
  rw [idsOf, List.mem_map]
  constructor
  · rintro ⟨change, hmem, rfl⟩
    obtain ⟨hmem, hkind⟩ := List.mem_filter.mp hmem
    refine ⟨change.kind, of_decide_eq_true hkind, ?_⟩
    rw [← h change hmem]
    exact hmem
  · rintro ⟨kind, hkind, hmem⟩
    exact ⟨_, List.mem_filter.mpr ⟨hmem, decide_eq_true hkind⟩, rfl⟩

/-- A client at a position is, with the list of further commits, in step with the end of them. -/
theorem InStep.scan {visited : History} (h : InStep isContainer reader client now position [])
    (hfresh : Fresh isContainer (position ++ visited))
    (hdistinct : ∀ commit ∈ visited, commit.2.Distinct) :
    InStep isContainer reader client now (position ++ visited)
      (allowedChanges reader (partFold isContainer visited)) := by
  have hmem : ∀ id kind, reader.allows id = true →
      (⟨isContainer, kind, id⟩ ∈ allowedChanges reader (partFold isContainer visited) ↔
        kind ∈ kindsOf isContainer id (partFold isContainer visited)) := by
    intro id kind hallows
    rw [mem_allowedChanges, mem_kindsOf]
    exact ⟨fun h => h.1, fun h => ⟨h, hallows⟩⟩
  have hhas : ∀ id, reader.allows id = true →
      (existing isContainer id position = true ↔ client.has id = true) := by
    intro id hallows
    rw [h.has id hallows]
    simp
  refine ⟨fun id hallows => ?_, fun id hallows hexists => ?_, h.others, h.bound⟩
  · rw [hmem id _ hallows, hmem id _ hallows, ← hhas id hallows]
    exact (fold_means hfresh hdistinct id).present
  · have hmeans := fold_means hfresh hdistinct id
    by_cases hsame : lastChange isContainer id (position ++ visited) = lastChange isContainer id position
    · rcases (hmeans.present.mp hexists).1 with hbefore | hinsert
      · rw [hsame]
        refine (h.seen id hallows hbefore).imp_right ?_
        rintro ⟨kind, -, hnil⟩
        cases hnil
      · exact Or.inr ⟨.insert, by decide, (hmem id _ hallows).mpr hinsert⟩
    · obtain ⟨kind, hkind, hne⟩ := hmeans.changed hexists (decide_eq_true hsame)
      exact Or.inr ⟨kind, hne, (hmem id _ hallows).mpr hkind⟩

theorem InStep.page {page : List Change} {response : ChangesResponse}
    (h : InStep isContainer reader client now position (page ++ rest))
    (honce : ∀ id, ⟨isContainer, .insert, id⟩ ∈ page ++ rest → ⟨isContainer, .delete, id⟩ ∉ page ++ rest)
    (hpart : ∀ change ∈ page, change.isContainer = isContainer)
    (hallowed : ∀ change ∈ page, reader.allows change.id = true)
    (hlast : ∀ id, lastChange isContainer id position ≤ lastChange isContainer id now)
    (hcreated : response.created = idsOf page [.insert])
    (hupdated : response.updated = idsOf page [.update, .updateProperty])
    (hdestroyed : response.destroyed = idsOf page [.delete]) :
    InStep isContainer reader
      (client.apply (fun id => lastChange isContainer id now) response) now position rest := by
  have hmemCreated : ∀ id, id ∈ response.created ↔ ⟨isContainer, .insert, id⟩ ∈ page := by
    intro id
    rw [hcreated, mem_idsOf hpart]
    simp
  have hmemUpdated : ∀ id, id ∈ response.updated ↔ ⟨isContainer, .update, id⟩ ∈ page ∨
      ⟨isContainer, .updateProperty, id⟩ ∈ page := by
    intro id
    rw [hupdated, mem_idsOf hpart]
    simp
  have hmemDestroyed : ∀ id, id ∈ response.destroyed ↔ ⟨isContainer, .delete, id⟩ ∈ page := by
    intro id
    rw [hdestroyed, mem_idsOf hpart]
    simp
  refine ⟨fun id hallows => ?_, fun id hallows hexists => ?_, fun id hother => ?_, fun id => ?_⟩
  · have honce := honce id
    rw [h.has id hallows]
    simp only [Client.apply, Bool.and_eq_true, Bool.or_eq_true, decide_eq_true_eq, Bool.not_eq_true',
      decide_eq_false_iff_not, hmemCreated, hmemDestroyed, List.mem_append] at honce ⊢
    tauto
  · simp only [Client.apply, hmemCreated, hmemUpdated]
    rcases h.seen id hallows hexists with hseen | ⟨kind, hne, hmem⟩
    · left
      split
      · exact hlast id
      · exact hseen
    · rcases List.mem_append.mp hmem with hmem | hmem
      · left
        rw [if_pos]
        · exact hlast id
        · cases kind with
          | insert => exact Or.inl hmem
          | update => exact Or.inr (Or.inl hmem)
          | updateProperty => exact Or.inr (Or.inr hmem)
          | delete => exact absurd rfl hne
      · exact Or.inr ⟨kind, hne, hmem⟩
  · have hnot : ⟨isContainer, .insert, id⟩ ∉ page := by
      intro hmem
      rw [hallowed _ hmem] at hother
      cases hother
    simp [Client.apply, hmemCreated, h.others id hother, decide_eq_false hnot]
  · simp only [Client.apply]
    split
    · exact Nat.le_refl _
    · exact h.bound id

theorem InStep.move {position' : History} (h : InStep isContainer reader client now position rest)
    (hexisting : ∀ id, existing isContainer id position' = existing isContainer id position)
    (hlast : ∀ id, existing isContainer id position = true →
      lastChange isContainer id position' ≤ lastChange isContainer id position) :
    InStep isContainer reader client now position' rest := by
  refine ⟨fun id hallows => ?_, fun id hallows hexists => ?_, h.others, h.bound⟩
  · rw [hexisting]
    exact h.has id hallows
  · rw [hexisting] at hexists
    refine (h.seen id hallows hexists).imp_left fun hseen => ?_
    exact Nat.le_trans (hlast id hexists) hseen

theorem objects_of_partFold_nil {tail : History} (hfresh : Fresh isContainer (position ++ tail))
    (hdistinct : ∀ commit ∈ tail, commit.2.Distinct) (hnil : partFold isContainer tail = [])
    (id : Nat) :
    existing isContainer id (position ++ tail) = existing isContainer id position ∧
      (existing isContainer id position = true →
        lastChange isContainer id (position ++ tail) = lastChange isContainer id position) := by
  have hmeans := fold_means hfresh hdistinct id
  rw [hnil] at hmeans
  have hiff : existing isContainer id (position ++ tail) = true ↔
      existing isContainer id position = true := by
    rw [hmeans.present]
    change (_ ∨ ChangeKind.insert ∈ []) ∧ ChangeKind.delete ∉ [] ↔ _
    simp
  refine ⟨Bool.eq_iff_iff.mpr hiff, fun hexists => ?_⟩
  by_contra hne
  obtain ⟨kind, hmem, -⟩ := hmeans.changed (hiff.mpr hexists) (decide_eq_true hne)
  cases hmem

theorem InStep.sync (h : InStep isContainer reader client now now []) (id : Nat) :
    client.has id = (existing isContainer id now && reader.allows id) ∧
      ((existing isContainer id now && reader.allows id) = true →
        client.seen id = lastChange isContainer id now) := by
  cases hallows : reader.allows id with
  | false =>
    rw [Bool.and_false]
    exact ⟨h.others id hallows, fun hfalse => by cases hfalse⟩
  | true =>
    rw [Bool.and_true]
    refine ⟨Bool.eq_iff_iff.mpr ?_, fun hexists => ?_⟩
    · rw [h.has id hallows]
      simp
    · rcases h.seen id hallows hexists with hseen | ⟨kind, -, hmem⟩
      · exact Nat.le_antisymm (h.bound id) hseen
      · cases hmem

end InStep

end Bearmail.Jmap
