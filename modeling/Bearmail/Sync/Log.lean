import Mathlib.Data.List.Dedup

/-!
# The change log

`store/src/query/log.rs` and `store/src/write/log.rs`: every commit writes, for each collection
it changes, an entry with the ids of the containers and items it inserted, updated and deleted.
`Store::changes` reads a range of the log and folds the entries into one list of changes.

An entry is modelled as the lists that `Changes::deserialize` reads from its bytes. The order of
the ids in a list is that of a hash set. When a log is cut, `delete_changes` leaves an entry
without a value at the cut.
-/

namespace Bearmail.Sync

open List Option

inductive ChangeKind where
  | insert
  | update
  | updateProperty
  | delete
  deriving DecidableEq

/-- `InsertContainer(id)`, `UpdateItem(id)` and so on. Items have no property changes. -/
structure Change where
  isContainer : Bool
  kind : ChangeKind
  id : Nat
  deriving DecidableEq

structure LogEntry where
  containerInserts : List Nat
  containerUpdates : List Nat
  containerPropertyChanges : List Nat
  containerDeletes : List Nat
  itemInserts : List Nat
  itemUpdates : List Nat
  itemDeletes : List Nat
  deriving DecidableEq

def LogEntry.hasContainerChanges (entry : LogEntry) : Bool :=
  decide (entry.containerInserts.length + entry.containerUpdates.length +
    entry.containerPropertyChanges.length + entry.containerDeletes.length > 0)

def LogEntry.hasItemChanges (entry : LogEntry) : Bool :=
  decide (entry.itemInserts.length + entry.itemUpdates.length + entry.itemDeletes.length > 0)

/-! ## Folding an entry -/

def pushInsert (isContainer : Bool) (changes : List Change) (id : Nat) : List Change :=
  changes ++ [⟨isContainer, .insert, id⟩]

/-- An update moves to the end of the list; it is not counted after an insert, and an update of
a property does not weaken an update. -/
def pushUpdate (isContainer isProperty : Bool) (changes : List Change) (id : Nat) : List Change :=
  match changes.find? fun c =>
      decide (c.isContainer = isContainer ∧ c.id = id ∧ c.kind ≠ .delete) with
  | some ⟨_, .insert, _⟩ => changes
  | some ⟨_, .update, _⟩ =>
    changes.erase ⟨isContainer, .update, id⟩ ++ [⟨isContainer, .update, id⟩]
  | some ⟨_, .updateProperty, _⟩ =>
    changes.erase ⟨isContainer, .updateProperty, id⟩ ++
      [⟨isContainer, if isProperty then .updateProperty else .update, id⟩]
  | _ => changes ++ [⟨isContainer, if isProperty then .updateProperty else .update, id⟩]

/-- A delete takes back an insert, and takes the place of an update; it leaves an update of a
property where it is. -/
def pushDelete (isContainer : Bool) (changes : List Change) (id : Nat) : List Change :=
  match changes.find? fun c =>
      decide (c.isContainer = isContainer ∧ c.id = id ∧ (c.kind = .insert ∨ c.kind = .update)) with
  | some ⟨_, .insert, _⟩ => changes.erase ⟨isContainer, .insert, id⟩
  | some ⟨_, .update, _⟩ =>
    changes.erase ⟨isContainer, .update, id⟩ ++ [⟨isContainer, .delete, id⟩]
  | _ => changes ++ [⟨isContainer, .delete, id⟩]

/-- The containers or the items of an entry. -/
def pushAll (isContainer : Bool) (inserts updates propertyChanges deletes : List Nat)
    (changes : List Change) : List Change :=
  let inserted := inserts.foldl (pushInsert isContainer) changes
  let updated := updates.foldl (pushUpdate isContainer false) inserted
  let touched := propertyChanges.foldl (pushUpdate isContainer true) updated
  deletes.foldl (pushDelete isContainer) touched

def deserialize (changes : List Change) (entry : LogEntry) : List Change :=
  pushAll false entry.itemInserts entry.itemUpdates [] entry.itemDeletes
    (pushAll true entry.containerInserts entry.containerUpdates entry.containerPropertyChanges
      entry.containerDeletes changes)

/-! ## Reading a range -/

/-- Entries by change id; the entry at which a log was cut has no value. -/
abbrev Log := List (Nat × Option LogEntry)

structure Changes where
  changes : List Change
  fromChangeId : Nat
  toChangeId : Nat
  containerChangeId : Option Nat
  itemChangeId : Option Nat
  isTruncated : Bool
  deriving DecidableEq

def Changes.empty : Changes := ⟨[], 0, 0, none, none, false⟩

inductive Query where
  | all
  | since (changeId : Nat)
  | sinceInclusive (changeId : Nat)
  | rangeInclusive (fromChangeId toChangeId : Nat)

def Query.isInclusive : Query → Bool
  | .since _ => false
  | _ => true

def Query.fromChangeId : Query → Nat
  | .all => 0
  | .since changeId => changeId
  | .sinceInclusive changeId => changeId
  | .rangeInclusive fromChangeId _ => fromChangeId

/-- Whether a key is between the bounds of the scan. -/
def Query.scans (query : Query) (changeId : Nat) : Bool :=
  match query with
  | .rangeInclusive fromChangeId toChangeId =>
    decide (fromChangeId ≤ changeId ∧ changeId ≤ toChangeId)
  | query => decide (query.fromChangeId ≤ changeId)

/-- One entry of the scan. In the log of share notifications an entry is itself a new item. -/
def Changes.visit (isShareLog : Bool) (query : Query) (changelog : Changes)
    (item : Nat × Option LogEntry) : Changes :=
  if query.isInclusive = true ∨ item.1 ≠ query.fromChangeId then
    match item.2 with
    | none => { changelog with isTruncated := true }
    | some entry =>
      let fromChangeId := if changelog.changes = [] then item.1 else changelog.fromChangeId
      if isShareLog then
        { changelog with
          changes := changelog.changes ++ [⟨false, .insert, item.1⟩]
          fromChangeId
          toChangeId := item.1 }
      else
        { changes := deserialize changelog.changes entry
          fromChangeId
          toChangeId := item.1
          containerChangeId :=
            if entry.hasContainerChanges then some item.1 else changelog.containerChangeId
          itemChangeId := if entry.hasItemChanges then some item.1 else changelog.itemChangeId
          isTruncated := changelog.isTruncated }
  else { changelog with fromChangeId := item.1, toChangeId := item.1 }

def Log.changes (log : Log) (isShareLog : Bool) (query : Query) : Changes :=
  (log.filter fun item => query.scans item.1).foldl (Changes.visit isShareLog query) .empty

def Log.lastChangeId (log : Log) : Option Nat := log.getLast?.map Prod.fst

/-! ## What a list says about one id -/

def kindsOf (isContainer : Bool) (id : Nat) (changes : List Change) : List ChangeKind :=
  changes.filterMap fun c =>
    if c.isContainer = isContainer ∧ c.id = id then some c.kind else none

def insertKinds (kinds : List ChangeKind) : List ChangeKind := kinds ++ [.insert]

def updateKinds (isProperty : Bool) (kinds : List ChangeKind) : List ChangeKind :=
  match kinds.find? fun k => decide (k ≠ .delete) with
  | some .insert => kinds
  | some .update => kinds.erase .update ++ [.update]
  | some .updateProperty =>
    kinds.erase .updateProperty ++ [if isProperty then .updateProperty else .update]
  | _ => kinds ++ [if isProperty then .updateProperty else .update]

def deleteKinds (kinds : List ChangeKind) : List ChangeKind :=
  match kinds.find? fun k => decide (k = .insert ∨ k = .update) with
  | some .insert => kinds.erase .insert
  | some .update => kinds.erase .update ++ [.delete]
  | _ => kinds ++ [.delete]

variable {c : Change} {entry : LogEntry}

section Kinds

variable {isContainer : Bool} {id id' : Nat}

theorem kindsOf_append (changes changes' : List Change) : kindsOf isContainer id (changes ++ changes') =
      kindsOf isContainer id changes ++ kindsOf isContainer id changes' :=
  filterMap_append

theorem kindsOf_single_self (kind : ChangeKind) :
    kindsOf isContainer id [⟨isContainer, kind, id⟩] = [kind] := by
  simp [kindsOf]

theorem kindsOf_single_of_ne (h : ¬ (c.isContainer = isContainer ∧ c.id = id)) :
    kindsOf isContainer id [c] = [] := by
  rw [kindsOf, filterMap_cons, if_neg h]
  rfl

theorem kindsOf_cons_self (h : c.isContainer = isContainer ∧ c.id = id) (changes : List Change) :
    kindsOf isContainer id (c :: changes) = c.kind :: kindsOf isContainer id changes := by
  rw [kindsOf, filterMap_cons, if_pos h]
  rfl

theorem kindsOf_cons_of_ne (h : ¬ (c.isContainer = isContainer ∧ c.id = id)) (changes : List Change) :
    kindsOf isContainer id (c :: changes) = kindsOf isContainer id changes := by
  rw [kindsOf, filterMap_cons, if_neg h]
  rfl

theorem mem_kindsOf {kind : ChangeKind} {changes : List Change} :
    kind ∈ kindsOf isContainer id changes ↔ ⟨isContainer, kind, id⟩ ∈ changes := by
  rw [kindsOf, mem_filterMap]
  constructor
  · rintro ⟨⟨ic, k, i⟩, hmem, h⟩
    split at h
    · rename_i heq
      obtain ⟨rfl, rfl⟩ := heq
      obtain rfl := Option.some.inj h
      exact hmem
    · cases h
  · intro hmem
    exact ⟨_, hmem, by simp⟩

theorem kindsOf_erase_self (kind : ChangeKind) (changes : List Change) :
    kindsOf isContainer id (changes.erase ⟨isContainer, kind, id⟩) =
      (kindsOf isContainer id changes).erase kind := by
  induction changes with
  | nil => rfl
  | cons c changes ih =>
    by_cases hc : c = ⟨isContainer, kind, id⟩
    · subst hc
      have hself : kindsOf isContainer id (⟨isContainer, kind, id⟩ :: changes) =
          kind :: kindsOf isContainer id changes := kindsOf_cons_self ⟨rfl, rfl⟩ changes
      rw [erase_cons_head, hself, erase_cons_head]
    · rw [erase_cons_tail (by simpa using hc)]
      by_cases habout : c.isContainer = isContainer ∧ c.id = id
      · have hkind : c.kind ≠ kind := by
          intro hk
          obtain ⟨ic, k, i⟩ := c
          simp only at habout hk
          exact hc (by rw [habout.1, habout.2, hk])
        rw [kindsOf_cons_self habout, kindsOf_cons_self habout,
          erase_cons_tail (by simpa using hkind), ih]
      · simp [kindsOf_cons_of_ne habout, ih]

theorem kindsOf_erase_of_ne (h : ¬ (c.isContainer = isContainer ∧ c.id = id)) (changes : List Change) :
    kindsOf isContainer id (changes.erase c) = kindsOf isContainer id changes := by
  induction changes with
  | nil => rfl
  | cons d changes ih =>
    by_cases hd : d = c
    · subst hd
      rw [erase_cons_head, kindsOf_cons_of_ne h]
    · rw [erase_cons_tail (by simpa using hd)]
      by_cases habout : d.isContainer = isContainer ∧ d.id = id
      · simp [kindsOf_cons_self habout, ih]
      · simp [kindsOf_cons_of_ne habout, ih]

theorem find?_about (q : ChangeKind → Prop) [DecidablePred q] (changes : List Change) :
    (changes.find? fun c => decide (c.isContainer = isContainer ∧ c.id = id ∧ q c.kind)) =
      ((kindsOf isContainer id changes).find? fun k => decide (q k)).map
        fun kind => ⟨isContainer, kind, id⟩ := by
  induction changes with
  | nil => rfl
  | cons c changes ih =>
    by_cases habout : c.isContainer = isContainer ∧ c.id = id
    · rw [kindsOf_cons_self habout]
      obtain ⟨ic, k, i⟩ := c
      obtain ⟨rfl, rfl⟩ := habout
      by_cases hq : q k
      · simp [hq]
      · rw [List.find?_cons_of_neg (by simpa using hq), List.find?_cons_of_neg (by simpa using hq), ih]
    · rw [kindsOf_cons_of_ne habout, List.find?_cons_of_neg, ih]
      simpa using fun h1 h2 => absurd ⟨h1, h2⟩ habout

theorem kindsOf_pushInsert_self (changes : List Change) :
    kindsOf isContainer id (pushInsert isContainer changes id) =
      insertKinds (kindsOf isContainer id changes) := by
  rw [pushInsert, kindsOf_append, kindsOf_single_self, insertKinds]

theorem kindsOf_pushUpdate_self (isProperty : Bool) (changes : List Change) :
    kindsOf isContainer id (pushUpdate isContainer isProperty changes id) =
      updateKinds isProperty (kindsOf isContainer id changes) := by
  unfold pushUpdate updateKinds
  rw [find?_about fun kind => kind ≠ .delete]
  cases (kindsOf isContainer id changes).find? fun k => decide (k ≠ .delete) with
  | none => simp [kindsOf_append, kindsOf_single_self]
  | some kind =>
    cases kind with
    | insert => rfl
    | update | updateProperty =>
      simp [kindsOf_append, kindsOf_erase_self, kindsOf_single_self]
    | delete => simp [kindsOf_append, kindsOf_single_self]

theorem kindsOf_pushDelete_self (changes : List Change) :
    kindsOf isContainer id (pushDelete isContainer changes id) =
      deleteKinds (kindsOf isContainer id changes) := by
  unfold pushDelete deleteKinds
  rw [find?_about fun kind => kind = .insert ∨ kind = .update]
  cases (kindsOf isContainer id changes).find? fun k => decide (k = .insert ∨ k = .update) with
  | none => simp [kindsOf_append, kindsOf_single_self]
  | some kind =>
    cases kind with
    | insert => simp [kindsOf_erase_self]
    | update =>
      simp [kindsOf_append, kindsOf_erase_self, kindsOf_single_self]
    | updateProperty | delete => simp [kindsOf_append, kindsOf_single_self]

end Kinds

section Others

variable {isContainer isContainer' : Bool} {id id' : Nat}

theorem kindsOf_pushInsert_of_ne (h : ¬ (isContainer' = isContainer ∧ id' = id))
    (changes : List Change) :
    kindsOf isContainer id (pushInsert isContainer' changes id') =
      kindsOf isContainer id changes := by
  rw [pushInsert, kindsOf_append, kindsOf_single_of_ne h, List.append_nil]

theorem kindsOf_pushUpdate_of_ne (isProperty : Bool) (h : ¬ (isContainer' = isContainer ∧ id' = id))
    (changes : List Change) :
    kindsOf isContainer id (pushUpdate isContainer' isProperty changes id') =
      kindsOf isContainer id changes := by
  unfold pushUpdate
  split
  · rfl
  · rw [kindsOf_append, kindsOf_erase_of_ne h, kindsOf_single_of_ne h, List.append_nil]
  · rw [kindsOf_append, kindsOf_erase_of_ne h, kindsOf_single_of_ne h, List.append_nil]
  · rw [kindsOf_append, kindsOf_single_of_ne h, List.append_nil]

theorem kindsOf_pushDelete_of_ne (h : ¬ (isContainer' = isContainer ∧ id' = id))
    (changes : List Change) :
    kindsOf isContainer id (pushDelete isContainer' changes id') =
      kindsOf isContainer id changes := by
  unfold pushDelete
  split
  · rw [kindsOf_erase_of_ne h]
  · rw [kindsOf_append, kindsOf_erase_of_ne h, kindsOf_single_of_ne h, List.append_nil]
  · rw [kindsOf_append, kindsOf_single_of_ne h, List.append_nil]

end Others

/-! ## What an entry says about one id -/

/-- Whether an id is in a list once, as in a hash set, or not at all. -/
def applyIf (ids : List Nat) (id : Nat) (f : List ChangeKind → List ChangeKind)
    (kinds : List ChangeKind) : List ChangeKind :=
  if id ∈ ids then f kinds else kinds

theorem kindsOf_foldl {isContainer : Bool} {id : Nat} {step : List Change → Nat → List Change}
    {f : List ChangeKind → List ChangeKind}
    (hself : ∀ changes, kindsOf isContainer id (step changes id) = f (kindsOf isContainer id changes))
    (hother : ∀ id', id' ≠ id → ∀ changes, kindsOf isContainer id (step changes id') =
      kindsOf isContainer id changes)
    {ids : List Nat} (hnodup : ids.Nodup) (changes : List Change) :
    kindsOf isContainer id (ids.foldl step changes) =
      applyIf ids id f (kindsOf isContainer id changes) := by
  induction ids generalizing changes with
  | nil => rfl
  | cons x ids ih =>
    obtain ⟨hx, hnodup⟩ := nodup_cons.mp hnodup
    rw [foldl_cons, ih hnodup]
    by_cases hid : x = id
    · subst hid
      simp [applyIf, hx, applyIf, hself]
    · rw [hother x hid]
      have hmem : id ∈ x :: ids ↔ id ∈ ids := by
        rw [mem_cons]
        exact ⟨fun h => h.resolve_left fun heq => hid heq.symm, Or.inr⟩
      simp [applyIf, hmem]

/-- The ids of an entry come from hash sets. -/
structure LogEntry.Distinct (entry : LogEntry) : Prop where
  containerInserts : entry.containerInserts.Nodup
  containerUpdates : entry.containerUpdates.Nodup
  containerPropertyChanges : entry.containerPropertyChanges.Nodup
  containerDeletes : entry.containerDeletes.Nodup
  itemInserts : entry.itemInserts.Nodup
  itemUpdates : entry.itemUpdates.Nodup
  itemDeletes : entry.itemDeletes.Nodup

def LogEntry.inserts (entry : LogEntry) (isContainer : Bool) : List Nat :=
  if isContainer then entry.containerInserts else entry.itemInserts

def LogEntry.updates (entry : LogEntry) (isContainer : Bool) : List Nat :=
  if isContainer then entry.containerUpdates else entry.itemUpdates

def LogEntry.propertyChanges (entry : LogEntry) (isContainer : Bool) : List Nat :=
  if isContainer then entry.containerPropertyChanges else []

def LogEntry.deletes (entry : LogEntry) (isContainer : Bool) : List Nat :=
  if isContainer then entry.containerDeletes else entry.itemDeletes

theorem kindsOf_pushAll_self {isContainer : Bool} {id : Nat}
    {inserts updates propertyChanges deletes : List Nat} (hi : inserts.Nodup) (hu : updates.Nodup)
    (hp : propertyChanges.Nodup) (hd : deletes.Nodup) (changes : List Change) :
    kindsOf isContainer id (pushAll isContainer inserts updates propertyChanges deletes changes) =
      applyIf deletes id deleteKinds (applyIf propertyChanges id (updateKinds true)
        (applyIf updates id (updateKinds false)
          (applyIf inserts id insertKinds (kindsOf isContainer id changes)))) := by
  unfold pushAll
  simp [
    kindsOf_foldl kindsOf_pushDelete_self (fun id' hne => kindsOf_pushDelete_of_ne fun h => hne h.2) hd,
    kindsOf_foldl (kindsOf_pushUpdate_self true) (fun id' hne => kindsOf_pushUpdate_of_ne true fun h => hne h.2) hp,
    kindsOf_foldl (kindsOf_pushUpdate_self false) (fun id' hne => kindsOf_pushUpdate_of_ne false fun h => hne h.2) hu,
    kindsOf_foldl kindsOf_pushInsert_self (fun id' hne => kindsOf_pushInsert_of_ne fun h => hne h.2) hi]

theorem kindsOf_foldl_other {isContainer : Bool} {id : Nat} {step : List Change → Nat → List Change}
    (hother : ∀ id' changes, kindsOf isContainer id (step changes id') =
      kindsOf isContainer id changes) (ids : List Nat) (changes : List Change) :
    kindsOf isContainer id (ids.foldl step changes) = kindsOf isContainer id changes := by
  induction ids generalizing changes with
  | nil => rfl
  | cons x ids ih => rw [foldl_cons, ih, hother]

theorem kindsOf_pushAll_other {isContainer isContainer' : Bool} (h : isContainer' ≠ isContainer)
    {id : Nat} (inserts updates propertyChanges deletes : List Nat) (changes : List Change) :
    kindsOf isContainer id (pushAll isContainer' inserts updates propertyChanges deletes changes) =
      kindsOf isContainer id changes := by
  unfold pushAll
  rw [kindsOf_foldl_other fun id' => kindsOf_pushDelete_of_ne fun heq => h heq.1,
    kindsOf_foldl_other fun id' => kindsOf_pushUpdate_of_ne true fun heq => h heq.1,
    kindsOf_foldl_other fun id' => kindsOf_pushUpdate_of_ne false fun heq => h heq.1,
    kindsOf_foldl_other fun id' => kindsOf_pushInsert_of_ne fun heq => h heq.1]

def LogEntry.fold (entry : LogEntry) (isContainer : Bool) (id : Nat) (kinds : List ChangeKind) :
    List ChangeKind :=
  applyIf (entry.deletes isContainer) id deleteKinds
    (applyIf (entry.propertyChanges isContainer) id (updateKinds true)
      (applyIf (entry.updates isContainer) id (updateKinds false)
        (applyIf (entry.inserts isContainer) id insertKinds kinds)))

theorem LogEntry.fold_item (entry : LogEntry) (id : Nat) (kinds : List ChangeKind) :
    entry.fold false id kinds =
      applyIf entry.itemDeletes id deleteKinds (applyIf entry.itemUpdates id (updateKinds false)
        (applyIf entry.itemInserts id insertKinds kinds)) := rfl

theorem kindsOf_deserialize (h : entry.Distinct) (isContainer : Bool) (id : Nat)
    (changes : List Change) :
    kindsOf isContainer id (deserialize changes entry) =
      entry.fold isContainer id (kindsOf isContainer id changes) := by
  unfold deserialize
  cases isContainer with
  | false =>
    rw [kindsOf_pushAll_self h.itemInserts h.itemUpdates nodup_nil h.itemDeletes,
      kindsOf_pushAll_other (by decide)]
    rfl
  | true =>
    rw [kindsOf_pushAll_other (by decide), kindsOf_pushAll_self h.containerInserts
      h.containerUpdates h.containerPropertyChanges h.containerDeletes]
    rfl

theorem kindsOf_deserialize_containers (h : entry.hasItemChanges = false) (id : Nat)
    (changes : List Change) :
    kindsOf false id (deserialize changes entry) = kindsOf false id changes := by
  have hlengths : entry.itemInserts.length + entry.itemUpdates.length + entry.itemDeletes.length =
      0 := by simpa [LogEntry.hasItemChanges] using h
  have hinserts : entry.itemInserts = [] := length_eq_zero_iff.mp (by omega)
  have hupdates : entry.itemUpdates = [] := length_eq_zero_iff.mp (by omega)
  have hdeletes : entry.itemDeletes = [] := length_eq_zero_iff.mp (by omega)
  rw [deserialize, hinserts, hupdates, hdeletes]
  exact kindsOf_pushAll_other Bool.false_ne_true.symm _ _ _ _ _

theorem Log.kindsOf_since {log : Log} {changeId : Nat}
    (h : ∀ item ∈ log, changeId < item.1 → ∀ entry, item.2 = some entry →
      entry.hasItemChanges = false) (id : Nat) :
    kindsOf false id (log.changes false (.since changeId)).changes = [] := by
  unfold Log.changes
  generalize hstart : Changes.empty = changelog
  have hkinds : kindsOf false id changelog.changes = [] := by rw [← hstart]; rfl
  clear hstart
  induction log generalizing changelog with
  | nil => exact hkinds
  | cons item log ih =>
    have hrest := fun i hi => h i (mem_cons_of_mem _ hi)
    rw [filter_cons]
    split
    · rename_i hscans
      refine ih hrest _ ?_
      unfold Changes.visit
      split
      · rename_i hvisit
        have hne : item.1 ≠ changeId := hvisit.resolve_left Bool.false_ne_true
        have hle : changeId ≤ item.1 := of_decide_eq_true hscans
        cases hvalue : item.2 with
        | none => exact hkinds
        | some entry =>
          simp only [Bool.false_eq_true, if_false]
          rw [kindsOf_deserialize_containers (h item mem_cons_self (by omega) entry hvalue), hkinds]
      · exact hkinds
    · exact ih hrest _ hkinds

/-! ## One more entry -/

theorem Log.changes_append (log : Log) (isShareLog : Bool) (query : Query)
    (item : Nat × Option LogEntry) (h : query.scans item.1 = true) :
    Log.changes (log ++ [item]) isShareLog query =
      (log.changes isShareLog query).visit isShareLog query item := by
  rw [Log.changes, filter_append, foldl_append, filter_cons, if_pos h]
  rfl

theorem Log.changes_append_since {log : Log} {changeId id : Nat} (h : changeId < id) :
    (Log.changes (log ++ [(id, some entry)]) false (.since changeId)).changes =
      deserialize (log.changes false (.since changeId)).changes entry := by
  have hscans : (Query.since changeId).scans id = true := decide_eq_true (Nat.le_of_lt h)
  have hne : id ≠ (Query.since changeId).fromChangeId := Nat.ne_of_gt h
  rw [Log.changes_append log false _ _ hscans, Changes.visit, if_pos (Or.inr hne)]
  rfl

end Bearmail.Sync
