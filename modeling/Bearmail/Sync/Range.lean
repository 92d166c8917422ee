import Bearmail.Sync.NetEffect

/-!
# The entries of a range of commits

The sets of a commit are the marks of all containers and items at once, and folding an entry does to each
of them what folding its marks does. So the list of changes of a range tells each object by the net effect
of its history, but for the containers that are stranded.
-/

namespace Bearmail.Sync

open Bearmail.Store (LogCall SyncCollection ChangeLogBuilder)
open List

inductive ObjectId where
  | container (documentId : UInt32)
  | item (id : UInt64)
  deriving DecidableEq

def ObjectId.isContainer : ObjectId → Bool
  | .container _ => true
  | .item _ => false

def ObjectId.toNat : ObjectId → Nat
  | .container documentId => documentId.toNat
  | .item id => id.toNat

def action (collection : SyncCollection) (object : ObjectId) : LogCall → Option Action
  | .containerInsert c documentId =>
    if c = collection ∧ object = .container documentId then some .create else none
  | .itemInsert c container documentId =>
    if c = collection ∧ object = .item (Store.buildId container documentId) then some .create
    else none
  | .containerUpdate c documentId =>
    if c = collection ∧ object = .container documentId then some .update else none
  | .containerPropertyUpdate c documentId =>
    if c = collection ∧ object = .container documentId then some .property else none
  | .itemUpdate c container documentId =>
    if c = collection ∧ object = .item (Store.buildId container documentId) then some .update
    else none
  | .containerDelete c documentId =>
    if c = collection ∧ object = .container documentId then some .delete else none
  | .itemDelete c container documentId =>
    if c = collection ∧ object = .item (Store.buildId container documentId) then some .delete
    else none
  | .vanishedItem .. => none

def actions (collection : SyncCollection) (object : ObjectId) (commit : List LogCall) : List Action :=
  commit.filterMap (action collection object)

/-! ## The sets -/

section Has

variable {α : Type} [DecidableEq α] (ids : Finset α) (id other : α)

def has : Bool := decide (id ∈ ids)

theorem has_insert : has (insert other ids) id = (decide (id = other) || has ids id) := by
  simp [has]

theorem has_erase : has (ids.erase other) id = (!decide (id = other) && has ids id) := by
  simp [has]

theorem has_iff {ids : Finset α} {id : α} : id ∈ ids ↔ has ids id = true := by
  simp [has]

end Has

/-- The sets in which an object is. Items have no properties. -/
def marks (changes : Store.Changes) : ObjectId → Marks
  | .container documentId => {
      inserted := has changes.containerInserts documentId
      updated := has changes.containerUpdates documentId
      property := has changes.containerPropertyChanges documentId
      deleted := has changes.containerDeletes documentId }
  | .item id => {
      inserted := has changes.itemInserts id
      updated := has changes.itemUpdates id
      property := false
      deleted := has changes.itemDeletes id }

def Marks.actIf (marks : Marks) (about : Prop) [Decidable about] (action : Action) : Marks :=
  if about then marks.act action else marks

section Sets

variable (changes : Store.Changes) (object : ObjectId)

theorem marks_logContainerInsert (documentId : UInt32) :
    marks (changes.logContainerInsert documentId) object =
      (marks changes object).actIf (object = .container documentId) .create := by
  unfold Store.Changes.logContainerInsert
  cases object with
  | item id => split <;> rfl
  | container other =>
    by_cases heq : other = documentId
    · subst heq
      cases hdeleted : has changes.containerDeletes other <;>
        simp [has_iff, hdeleted, marks, Marks.actIf, Marks.act, has_insert, has_erase]
    · split <;> simp [marks, Marks.actIf, has_insert, has_erase, heq]

theorem marks_logItemInsert (id : UInt64) : marks (changes.logItemInsert id) object =
      (marks changes object).actIf (object = .item id) .create := by
  unfold Store.Changes.logItemInsert
  cases object with
  | container documentId => split <;> rfl
  | item other =>
    by_cases heq : other = id
    · subst heq
      cases hdeleted : has changes.itemDeletes other <;>
        simp [has_iff, hdeleted, marks, Marks.actIf, Marks.act, has_insert, has_erase]
    · split <;> simp [marks, Marks.actIf, has_insert, has_erase, heq]

theorem marks_logContainerUpdate (documentId : UInt32) :
    marks (changes.logContainerUpdate documentId) object =
      (marks changes object).actIf (object = .container documentId) .update := by
  cases object with
  | item id => rfl
  | container other =>
    by_cases heq : other = documentId <;>
      simp [marks, Marks.actIf, Marks.act, Store.Changes.logContainerUpdate, has_insert, heq]

theorem marks_logContainerPropertyUpdate (documentId : UInt32) :
    marks (changes.logContainerPropertyUpdate documentId) object =
      (marks changes object).actIf (object = .container documentId) .property := by
  cases object with
  | item id => rfl
  | container other =>
    by_cases heq : other = documentId <;>
      simp [marks, Marks.actIf, Marks.act, Store.Changes.logContainerPropertyUpdate, has_insert, heq]

theorem marks_logItemUpdate (id : UInt64) : marks (changes.logItemUpdate id) object =
      (marks changes object).actIf (object = .item id) .update := by
  cases object with
  | container documentId => rfl
  | item other =>
    by_cases heq : other = id <;>
      simp [marks, Marks.actIf, Marks.act, Store.Changes.logItemUpdate, has_insert, heq]

theorem marks_logContainerDelete (documentId : UInt32) :
    marks (changes.logContainerDelete documentId) object =
      (marks changes object).actIf (object = .container documentId) .delete := by
  cases object with
  | item id => rfl
  | container other =>
    by_cases heq : other = documentId <;>
      simp [marks, Marks.actIf, Marks.act, Store.Changes.logContainerDelete, has_insert, has_erase, heq]

theorem marks_logItemDelete (id : UInt64) : marks (changes.logItemDelete id) object =
      (marks changes object).actIf (object = .item id) .delete := by
  cases object with
  | container documentId => rfl
  | item other =>
    by_cases heq : other = id <;>
      simp [marks, Marks.actIf, Marks.act, Store.Changes.logItemDelete, has_insert, has_erase, heq]

end Sets

def logged? (collection : SyncCollection) (builder : ChangeLogBuilder) : Store.Changes :=
  (builder.changes.lookup collection).getD .empty

theorem logged?_change (builder : ChangeLogBuilder) (collection other : SyncCollection)
    (f : Store.Changes → Store.Changes) :
    logged? collection (builder.change other f) =
      if other = collection then f (logged? collection builder) else logged? collection builder := by
  unfold logged? ChangeLogBuilder.change
  by_cases heq : other = collection
  · subst heq
    simp [VecMap.lookup_modify_self, Option.getD_some]
  · simp [heq, VecMap.lookup_modify_of_ne _ _ _ (Ne.symm heq)]

theorem marks_log (collection : SyncCollection) (object : ObjectId) (builder : ChangeLogBuilder)
    (call : LogCall) :
    marks (logged? collection (builder.log call)) object =
      match action collection object call with
      | some act => (marks (logged? collection builder) object).act act
      | none => marks (logged? collection builder) object := by
  have hchange : ∀ (c : SyncCollection) (f : Store.Changes → Store.Changes) (about : Prop)
      [Decidable about] (act : Action),
      (∀ changes, marks (f changes) object = (marks changes object).actIf about act) →
      marks (logged? collection (builder.change c f)) object =
        match (if c = collection ∧ about then some act else none) with
        | some act => (marks (logged? collection builder) object).act act
        | none => marks (logged? collection builder) object := by
    intro c f about _ act hf
    rw [logged?_change]
    by_cases hc : c = collection
    · rw [if_pos hc, hf, Marks.actIf]
      by_cases habout : about
      · rw [if_pos habout, if_pos ⟨hc, habout⟩]
      · rw [if_neg habout, if_neg fun h => habout h.2]
    · rw [if_neg hc, if_neg fun h => hc h.1]
  cases call with
  | containerInsert c documentId =>
    exact hchange _ _ _ _ fun changes => marks_logContainerInsert changes object documentId
  | itemInsert c container documentId =>
    exact hchange _ _ _ _ fun changes => marks_logItemInsert changes object _
  | containerUpdate c documentId =>
    exact hchange _ _ _ _ fun changes => marks_logContainerUpdate changes object documentId
  | containerPropertyUpdate c documentId =>
    exact hchange _ _ _ _ fun changes => marks_logContainerPropertyUpdate changes object documentId
  | itemUpdate c container documentId =>
    exact hchange _ _ _ _ fun changes => marks_logItemUpdate changes object _
  | containerDelete c documentId =>
    exact hchange _ _ _ _ fun changes => marks_logContainerDelete changes object documentId
  | itemDelete c container documentId =>
    exact hchange _ _ _ _ fun changes => marks_logItemDelete changes object _
  | vanishedItem c item => rfl

theorem marks_commit (collection : SyncCollection) (object : ObjectId) (commit : List LogCall) :
    marks (logged? collection (commit.foldl ChangeLogBuilder.log .empty)) object =
      .of (actions collection object commit) := by
  induction commit using List.reverseRecOn with
  | nil => cases object <;> rfl
  | append_singleton commit call ih =>
    have hactions : actions collection object (commit ++ [call]) =
        actions collection object commit ++ (action collection object call).toList := by
      cases hact : action collection object call <;> simp [actions, hact]
    rw [foldl_append, foldl_cons, foldl_nil, marks_log, ih, hactions]
    cases action collection object call with
    | none => simp
    | some act => exact (Marks.of_append_singleton _ act).symm

/-! ## The entry -/

section Listed

variable {α : Type} {toNat : α → Nat} {ids : List Nat} {set : Finset α}

theorem nodup_of_listed (hinj : Function.Injective toNat)
    (h : (ids : Multiset Nat) = set.val.map toNat) : ids.Nodup := by
  rw [← Multiset.coe_nodup, h]
  exact set.nodup.map hinj

theorem applyIf_listed [DecidableEq α] (hinj : Function.Injective toNat)
    (h : (ids : Multiset Nat) = set.val.map toNat) (id : α)
    (f : List ChangeKind → List ChangeKind) (kinds : List ChangeKind) :
    applyIf ids (toNat id) f kinds = if has set id then f kinds else kinds := by
  have hmem : toNat id ∈ ids ↔ has set id = true := by
    rw [← Multiset.mem_coe, h, Multiset.mem_map_of_injective hinj, Finset.mem_val, has_iff]
  by_cases hin : toNat id ∈ ids
  · simp [applyIf, hin, hmem.mp hin]
  · rw [applyIf, if_neg hin, if_neg fun hhas => hin (hmem.mpr hhas)]

theorem forall_listed {p : Nat → Prop} (hp : ∀ id, p (toNat id))
    (h : (ids : Multiset Nat) = set.val.map toNat) : ∀ id ∈ ids, p id := by
  intro id hmem
  rw [← Multiset.mem_coe, h] at hmem
  obtain ⟨x, -, rfl⟩ := Multiset.mem_map.mp hmem
  exact hp x

end Listed

section Lists

variable {changes : Store.Changes} {entry : LogEntry}

theorem injective32 : Function.Injective UInt32.toNat := fun _ _ => UInt32.toNat_inj.mp

theorem injective64 : Function.Injective UInt64.toNat := fun _ _ => UInt64.toNat_inj.mp

variable (h : changes.Lists entry)
include h

theorem distinct_of_lists : entry.Distinct where
  containerInserts := nodup_of_listed injective32 h.containerInserts
  containerUpdates := nodup_of_listed injective32 h.containerUpdates
  containerPropertyChanges := nodup_of_listed injective32 h.containerPropertyChanges
  containerDeletes := nodup_of_listed injective32 h.containerDeletes
  itemInserts := nodup_of_listed injective64 h.itemInserts
  itemUpdates := nodup_of_listed injective64 h.itemUpdates
  itemDeletes := nodup_of_listed injective64 h.itemDeletes

theorem fits_of_lists : ∀ ids ∈ [entry.containerInserts,
    entry.containerUpdates, entry.containerPropertyChanges, entry.containerDeletes,
    entry.itemInserts, entry.itemUpdates, entry.itemDeletes],
    ids.length < 2 ^ 64 ∧ ∀ id ∈ ids, id < 2 ^ 64 := by
  have h32 : ∀ id : UInt32, id.toNat < 2 ^ 64 := fun id =>
    Nat.lt_trans id.toNat_lt (by decide)
  have hids : ∀ ids ∈ [entry.containerInserts, entry.containerUpdates,
      entry.containerPropertyChanges, entry.containerDeletes, entry.itemInserts, entry.itemUpdates,
      entry.itemDeletes], ∀ id ∈ ids, id < 2 ^ 64 := by
    simp only [forall_mem_cons]
    exact ⟨forall_listed h32 h.containerInserts, forall_listed h32 h.containerUpdates,
      forall_listed h32 h.containerPropertyChanges, forall_listed h32 h.containerDeletes,
      forall_listed UInt64.toNat_lt h.itemInserts, forall_listed UInt64.toNat_lt h.itemUpdates,
      forall_listed UInt64.toNat_lt h.itemDeletes, nofun⟩
  exact fun ids hmem => ⟨h.sizes ids hmem, hids ids hmem⟩

theorem fold_of_lists (object : ObjectId) (kinds : List ChangeKind) :
    entry.fold object.isContainer object.toNat kinds = (marks changes object).fold kinds := by
  cases object with
  | container documentId =>
    have hinsert := applyIf_listed injective32 h.containerInserts documentId
    have hupdate := applyIf_listed injective32 h.containerUpdates documentId
    have hproperty := applyIf_listed injective32 h.containerPropertyChanges documentId
    have hdelete := applyIf_listed injective32 h.containerDeletes documentId
    simp only [LogEntry.fold, LogEntry.inserts, LogEntry.updates, LogEntry.propertyChanges,
      LogEntry.deletes, ObjectId.isContainer, ObjectId.toNat, marks, Marks.fold, if_true, hinsert,
      hupdate, hproperty, hdelete]
    rfl
  | item itemId =>
    have hinsert := applyIf_listed injective64 h.itemInserts itemId
    have hupdate := applyIf_listed injective64 h.itemUpdates itemId
    have hdelete := applyIf_listed injective64 h.itemDeletes itemId
    simp only [LogEntry.fold_item, ObjectId.isContainer, ObjectId.toNat, marks, Marks.fold,
      Bool.false_eq_true, if_false, hinsert, hupdate, hdelete]
    rfl

omit h

end Lists

/-! ## The range -/

/-- What a commit has written to the log of a collection, if it has changed anything there. -/
def Logged (collection : SyncCollection) (commit : List LogCall) (value : Option (List UInt8)) :
    Prop :=
  Option.Rel (fun changes bytes => ∃ entry, changes.Lists entry ∧ bytes = Store.serialize entry)
    ((commit.foldl ChangeLogBuilder.log .empty).changes.lookup collection) value

def foldValue (changes : List Change) : Option (List UInt8) → Option (List Change)
  | none => some changes
  | some bytes => (deserializeBytes changes bytes).map Prod.fst

def foldValues (changes : List Change) (values : List (Option (List UInt8))) :
    Option (List Change) :=
  values.foldlM foldValue changes

section Range

variable {collection : SyncCollection}

theorem kindsOf_logged {commit : List LogCall} {value : Option (List UInt8)}
    (h : Logged collection commit value) (changes : List Change) :
    ∃ changes', foldValue changes value = some changes' ∧ ∀ object : ObjectId,
      kindsOf object.isContainer object.toNat changes' =
        (Marks.of (actions collection object commit)).fold
          (kindsOf object.isContainer object.toNat changes) := by
  have hmarks := fun object => marks_commit collection object commit
  unfold Logged at h
  unfold logged? at hmarks
  revert h hmarks
  generalize (commit.foldl ChangeLogBuilder.log .empty).changes.lookup collection = written
  intro h hmarks
  cases h with
  | none =>
    refine ⟨changes, rfl, fun object => ?_⟩
    rw [← hmarks object]
    cases object <;> rfl
  | some h =>
    obtain ⟨entry, hlists, rfl⟩ := h
    refine ⟨deserialize changes entry, ?_, fun object => ?_⟩
    · rw [foldValue, deserializeBytes_serialize changes (fits_of_lists hlists)]
      rfl
    · rw [kindsOf_deserialize (distinct_of_lists hlists), fold_of_lists hlists, ← hmarks object]
      rfl

theorem kindsOf_foldValues {commits : List (List LogCall)} {values : List (Option (List UInt8))}
    (h : List.Forall₂ (Logged collection) commits values) (changes : List Change) :
    ∃ changes', foldValues changes values = some changes' ∧ ∀ object : ObjectId,
      kindsOf object.isContainer object.toNat changes' = (commits.map (actions collection object)).foldl
          (fun kinds commit => (Marks.of commit).fold kinds)
          (kindsOf object.isContainer object.toNat changes) := by
  induction h generalizing changes with
  | nil => exact ⟨changes, rfl, fun _ => rfl⟩
  | cons hfirst _ ih =>
    obtain ⟨changes₁, hfold₁, hkinds₁⟩ := kindsOf_logged hfirst changes
    obtain ⟨changes₂, hfold₂, hkinds₂⟩ := ih changes₁
    refine ⟨changes₂, ?_, fun object => ?_⟩
    · rw [foldValues, foldlM_cons, hfold₁]
      exact hfold₂
    · simp [hkinds₂, hkinds₁, foldl_cons]

/-- Every history of a collection, from the objects that exist, can be folded, and each object is told once,
by its net effect, if and only if no commit destroys a container of which the commits before it have changed
only properties. -/
theorem foldValues_netEffect {existed : ObjectId → Bool} {commits : List (List LogCall)}
    {values : List (Option (List UInt8))}
    (hlives : ∀ object,
      lives (.ofBool (existed object)) (commits.map (actions collection object)) = true)
    (hlogged : List.Forall₂ (Logged collection) commits values) :
    ∃ changes, foldValues [] values = some changes ∧
      ((∀ object : ObjectId, kindsOf object.isContainer object.toNat changes =
        (netEffect (existed object) (commits.flatMap (actions collection object))).toList) ↔
      ∀ object, ¬ Stranded (commits.map (actions collection object))) := by
  obtain ⟨changes, hfold, hkinds⟩ := kindsOf_foldValues hlogged []
  refine ⟨changes, hfold, forall_congr' fun object => ?_⟩
  have htold : kindsOf object.isContainer object.toNat changes =
      told (commits.map (actions collection object)) := hkinds object
  have hflatten : commits.flatMap (actions collection object) =
      (commits.map (actions collection object)).flatten := flatMap_def
  rw [htold]
  exact told_eq_netEffect (hlives object)

theorem logged_of_small {commit : List LogCall} {changes : Store.Changes} {entry : LogEntry}
    {bytes : List UInt8}
    (hwritten : (commit.foldl ChangeLogBuilder.log .empty).changes.lookup collection = some changes)
    (hlists : changes.Lists entry) (hbytes : Store.serialize entry = bytes) :
    Logged collection commit (some bytes) := by
  rw [Logged, hwritten]
  exact .some ⟨entry, hlists, hbytes.symm⟩

theorem lives_of_untouched {standing : Standing} {history : List (List Action)}
    (h : ∀ commit ∈ history, commit = []) : lives standing history = true := by
  induction history with
  | nil => rfl
  | cons commit rest ih =>
    obtain ⟨rfl, hrest⟩ := forall_mem_cons.mp h
    have hpermits : standing.permits [] = true := by cases standing <;> rfl
    rw [lives, hpermits]
    exact ih hrest

end Range

/-! ## A container whose properties change before it is destroyed -/

def propertyThenDelete : List (List LogCall) :=
  [[.containerPropertyUpdate .email 7], [.containerDelete .email 7]]

/-- The list has both for the container, and should have the delete only. -/
theorem told_property_and_delete :
    (∀ object, lives (.ofBool (decide (object = .container 7)))
      (propertyThenDelete.map (actions .email object)) = true) ∧
    ∃ values changes, List.Forall₂ (Logged .email) propertyThenDelete values ∧
      foldValues [] values = some changes ∧
      kindsOf true 7 changes = [.updateProperty, .delete] ∧
      ¬ ∀ object : ObjectId, kindsOf object.isContainer object.toNat changes =
        (netEffect (decide (object = .container 7))
          (propertyThenDelete.flatMap (actions .email object))).toList := by
  refine ⟨fun object => ?_, [some [0, 0, 1, 0, 0, 0, 0, 7], some [0, 0, 0, 1, 0, 0, 0, 7]],
    [⟨true, .updateProperty, 7⟩, ⟨true, .delete, 7⟩], ?_, by decide, by decide,
    fun hall => absurd (hall (.container 7)) (by decide)⟩
  · by_cases hobject : object = .container 7
    · subst hobject
      decide
    · refine lives_of_untouched ?_
      simp [propertyThenDelete, actions, action, hobject]
  · refine .cons ?_ (.cons ?_ .nil)
    · refine @logged_of_small _ _ ⟨∅, ∅, ∅, ∅, ∅, ∅, {7}⟩ ⟨[], [], [7], [], [], [], []⟩ _ rfl
        ⟨rfl, rfl, rfl, rfl, rfl, rfl, rfl, by decide⟩ ?_
      simp [Store.serialize, Leb128.encode_of_lt]
    · refine @logged_of_small _ _ ⟨∅, ∅, ∅, ∅, ∅, {7}, ∅⟩ ⟨[], [], [], [7], [], [], []⟩ _ rfl
        ⟨rfl, rfl, rfl, rfl, rfl, rfl, rfl, by decide⟩ ?_
      simp [Store.serialize, Leb128.encode_of_lt]

def updateThenDelete : List (List LogCall) :=
  [[.containerUpdate .email 7, .itemInsert .email none 1], [.containerDelete .email 7]]

theorem foldValues_netEffect_updateThenDelete :
    ∃ changes, foldValues [] [some [0, 1, 0, 0, 1, 0, 0, 7, 1], some [0, 0, 0, 1, 0, 0, 0, 7]] =
        some changes ∧
      ((∀ object : ObjectId, kindsOf object.isContainer object.toNat changes =
        (netEffect (decide (object = .container 7))
          (updateThenDelete.flatMap (actions .email object))).toList) ↔
      ∀ object, ¬ Stranded (updateThenDelete.map (actions .email object))) := by
  refine @foldValues_netEffect .email (fun object => decide (object = .container 7)) _ _
    (fun object => ?_) (.cons ?_ (.cons ?_ .nil))
  · by_cases hcontainer : object = .container 7
    · subst hcontainer
      decide
    · by_cases hitem : object = .item (Store.buildId none 1)
      · subst hitem
        decide
      · refine lives_of_untouched ?_
        simp [updateThenDelete, actions, action, hcontainer, hitem]
  · refine @logged_of_small _ _ ⟨{1}, ∅, ∅, ∅, {7}, ∅, ∅⟩ ⟨[], [7], [], [], [1], [], []⟩ _ rfl
      ⟨rfl, rfl, rfl, rfl, rfl, rfl, rfl, by decide⟩ ?_
    simp [Store.serialize, Leb128.encode_of_lt]
  · refine @logged_of_small _ _ ⟨∅, ∅, ∅, ∅, ∅, {7}, ∅⟩ ⟨[], [], [], [7], [], [], []⟩ _ rfl
      ⟨rfl, rfl, rfl, rfl, rfl, rfl, rfl, by decide⟩ ?_
    simp [Store.serialize, Leb128.encode_of_lt]

end Bearmail.Sync
