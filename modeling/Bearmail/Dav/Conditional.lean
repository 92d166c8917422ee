import Bearmail.Dav.IfHeader

/-!
# Conditional requests

The conditions of a request are evaluated over resource states that are filled in as they are needed
and kept for the alternatives that follow. Each resource has a complete state, with all that can be
looked up about it, and filling it in never changes that. So an alternative holds or not by itself,
whatever was evaluated before, and a request passes when one alternative holds.
-/

namespace Bearmail.Dav.Lock

open List Option Bool

def ResourceState.isAt (accountId : Nat) (collection : Collection) (path : Text)
    (resource : ResourceState) : Bool :=
  resource.accountId == accountId && resource.collection == collection && resource.path == path

section Conditional

variable (env : Environment) (store : LockStore) (now : Nat)

/-! ## The complete state of a resource -/

def ResourceState.currentEtag (state : ResourceState) : Option Text :=
  state.etag.or (state.fetchEtag env).etag

def lockTokensAt (key : LockKey) (path : Text) : List Text :=
  (store key).elim [] fun data => (data.findLocks now path false).map fun lock => lock.2.urn

def ResourceState.currentLockTokens (state : ResourceState) : List Text :=
  if state.lockTokens.isEmpty then lockTokensAt store now state.lockKey state.path
  else state.lockTokens

def ResourceState.currentSyncToken (state : ResourceState) : Option Text :=
  state.syncToken.or (state.fetchSyncToken env).syncToken

/-- The state with all that can be looked up, without the document that the etag was found by. -/
def ResourceState.complete (state : ResourceState) : ResourceState :=
  if state.collection = .none then { state with documentId := none }
  else
    { state with
      documentId := none
      etag := state.currentEtag env
      lockTokens := state.currentLockTokens store now
      syncToken := state.currentSyncToken env }

def placed (resources : List ResourceState) (accountId : Nat) (collection : Collection)
    (path : Text) : ResourceState :=
  (resources.find? (ResourceState.isAt accountId collection path)).getD
    (if env.hasAccess accountId collection then .ofPlace accountId collection path
      else resourceNotFound)

/-- The state of the resource that an alternative is about: the one of its URI if it has one, and
else the resource of the request. -/
def target (resources : List ResourceState) (if_ : If) : ResourceState :=
  match if_.resource with
  | some uri =>
    match env.validateUri uri with
    | some (some accountId, collection, some path) =>
      let collection :=
        if collection ≠ .fileNode ∧ '/' ∈ path then collection.childCollection.getD collection
        else collection
      placed env resources accountId collection path
    | _ => resourceNotFound
  | none => resources.headD resourceNotFound

/-- An alternative that has conditions, all of which hold. -/
def If.holds (resources : List ResourceState) (if_ : If) : Bool :=
  !if_.list.isEmpty && if_.list.all (Condition.holds ((target env resources if_).complete env store now))

variable {env store now}

@[simp] theorem accountId_complete (state : ResourceState) :
    (state.complete env store now).accountId = state.accountId := by
  unfold ResourceState.complete
  split <;> rfl

@[simp] theorem collection_complete (state : ResourceState) :
    (state.complete env store now).collection = state.collection := by
  unfold ResourceState.complete
  split <;> rfl

@[simp] theorem path_complete (state : ResourceState) :
    (state.complete env store now).path = state.path := by
  unfold ResourceState.complete
  split <;> rfl

variable {state : ResourceState}

theorem currentEtag_fetchEtag (h : state.etag = none) :
    (state.fetchEtag env).currentEtag env = state.currentEtag env := by
  have hagain : ((state.fetchEtag env).fetchEtag env).etag = (state.fetchEtag env).etag := rfl
  rw [ResourceState.currentEtag, ResourceState.currentEtag, hagain, Option.or_self, h, none_or]

theorem fetchLockTokens_eq (h : state.lockTokens.isEmpty = true) : state.fetchLockTokens store now =
      { state with lockTokens := lockTokensAt store now state.lockKey state.path } := by
  have hempty : state.lockTokens = [] := List.isEmpty_iff.mp h
  unfold ResourceState.fetchLockTokens lockTokensAt
  cases store state.lockKey with
  | none => rw [elim_none, ← hempty]
  | some data => rfl

theorem currentLockTokens_fetchLockTokens (h : state.lockTokens.isEmpty = true) :
    (state.fetchLockTokens store now).currentLockTokens store now =
      state.currentLockTokens store now := by
  rw [fetchLockTokens_eq h, ResourceState.currentLockTokens, ResourceState.currentLockTokens, if_pos h]
  exact ite_self _

/-! ## Filling in -/

section Fill

variable (env : Environment) (store : LockStore) (now : Nat)

def ResourceState.fillEtag (list : List Condition) (state : ResourceState) : ResourceState :=
  if list.any needsEtag && state.etag.isNone then state.fetchEtag env else state

def ResourceState.fillLockTokens (list : List Condition) (state : ResourceState) : ResourceState :=
  if list.any needsLockToken && state.lockTokens.isEmpty then state.fetchLockTokens store now
  else state

def ResourceState.fillSyncToken (list : List Condition) (state : ResourceState) : ResourceState :=
  if list.any needsSyncToken && state.syncToken.isNone then state.fetchSyncToken env else state

theorem fill_eq {state : ResourceState} (h : state.collection ≠ .none) (list : List Condition) :
    state.fill env store now list =
      ((state.fillEtag env list).fillLockTokens store now list).fillSyncToken env list := by
  rw [ResourceState.fill, if_neg h]
  rfl

end Fill

variable {list : List Condition} {state : ResourceState}

@[simp] theorem collection_fillEtag : (state.fillEtag env list).collection = state.collection := by
  unfold ResourceState.fillEtag
  split <;> rfl

@[simp] theorem collection_fillLockTokens :
    (state.fillLockTokens store now list).collection = state.collection := by
  unfold ResourceState.fillLockTokens
  split
  · rename_i h
    rw [fetchLockTokens_eq (and_eq_true_iff.mp h).2]
  · rfl

@[simp] theorem etag_fillLockTokens : (state.fillLockTokens store now list).etag = state.etag := by
  unfold ResourceState.fillLockTokens
  split
  · rename_i h
    rw [fetchLockTokens_eq (and_eq_true_iff.mp h).2]
  · rfl

@[simp] theorem etag_fillSyncToken : (state.fillSyncToken env list).etag = state.etag := by
  unfold ResourceState.fillSyncToken
  split <;> rfl

@[simp] theorem lockTokens_fillSyncToken :
    (state.fillSyncToken env list).lockTokens = state.lockTokens := by
  unfold ResourceState.fillSyncToken
  split <;> rfl

variable (hcollection : state.collection ≠ .none)
include hcollection

theorem complete_fillEtag :
    (state.fillEtag env list).complete env store now = state.complete env store now := by
  unfold ResourceState.fillEtag
  split
  · rename_i h
    have hnone : state.etag = none := isNone_iff_eq_none.mp (and_eq_true_iff.mp h).2
    have hcollection' : (state.fetchEtag env).collection ≠ .none := hcollection
    rw [ResourceState.complete, ResourceState.complete, if_neg hcollection, if_neg hcollection',
      currentEtag_fetchEtag hnone]
    rfl
  · rfl

theorem complete_fillLockTokens : (state.fillLockTokens store now list).complete env store now =
      state.complete env store now := by
  unfold ResourceState.fillLockTokens
  split
  · rename_i h
    have hempty := (and_eq_true_iff.mp h).2
    have hcollection' : (state.fetchLockTokens store now).collection ≠ .none := by
      rwa [fetchLockTokens_eq hempty]
    rw [ResourceState.complete, ResourceState.complete, if_neg hcollection, if_neg hcollection',
      currentLockTokens_fetchLockTokens hempty, fetchLockTokens_eq hempty]
    rfl
  · rfl

theorem complete_fillSyncToken :
    (state.fillSyncToken env list).complete env store now = state.complete env store now := by
  unfold ResourceState.fillSyncToken
  split
  · rename_i h
    have hnone : state.syncToken = none :=
      isNone_iff_eq_none.mp (and_eq_true_iff.mp h).2
    have hcollection' : (state.fetchSyncToken env).collection ≠ .none := hcollection
    have hsync : (state.fetchSyncToken env).currentSyncToken env = state.currentSyncToken env := by
      rw [ResourceState.currentSyncToken, ResourceState.currentSyncToken, hnone]
      rfl
    rw [ResourceState.complete, ResourceState.complete, if_neg hcollection, if_neg hcollection', hsync]
    rfl
  · rfl

omit hcollection

theorem complete_fill (list : List Condition) (state : ResourceState) :
    (state.fill env store now list).complete env store now = state.complete env store now := by
  by_cases hcollection : state.collection = .none
  · simp [ResourceState.fill, hcollection]
  · rw [fill_eq env store now hcollection, complete_fillSyncToken (by simpa using hcollection),
      complete_fillLockTokens (by simpa using hcollection), complete_fillEtag hcollection]

variable (hcollection : state.collection ≠ .none)
include hcollection

theorem etag_fill (hneeds : list.any needsEtag = true) :
    (state.fill env store now list).etag = state.currentEtag env := by
  rw [fill_eq env store now hcollection, etag_fillSyncToken, etag_fillLockTokens,
    ResourceState.fillEtag, hneeds, Bool.true_and, ResourceState.currentEtag]
  cases hetag : state.etag with
  | none => rfl
  | some tag => exact hetag

theorem lockTokens_fill (hneeds : list.any needsLockToken = true) :
    (state.fill env store now list).lockTokens = state.currentLockTokens store now := by
  have hetag : (state.fillEtag env list).currentLockTokens store now =
      state.currentLockTokens store now := by
    unfold ResourceState.fillEtag
    split <;> rfl
  rw [fill_eq env store now hcollection, lockTokens_fillSyncToken, ← hetag,
    ResourceState.fillLockTokens, hneeds, Bool.true_and, ResourceState.currentLockTokens]
  split
  · rename_i h
    rw [fetchLockTokens_eq h]
  · rfl

theorem syncToken_fill (hneeds : list.any needsSyncToken = true) :
    (state.fill env store now list).syncToken = state.currentSyncToken env := by
  have hbefore : ((state.fillEtag env list).fillLockTokens store now list).currentSyncToken env =
      state.currentSyncToken env := by
    unfold ResourceState.fillLockTokens
    split
    · rename_i h
      rw [fetchLockTokens_eq (and_eq_true_iff.mp h).2]
      unfold ResourceState.fillEtag
      split <;> rfl
    · unfold ResourceState.fillEtag
      split <;> rfl
  rw [fill_eq env store now hcollection, ← hbefore, ResourceState.fillSyncToken, hneeds,
    Bool.true_and, ResourceState.currentSyncToken]
  cases hsync : ((state.fillEtag env list).fillLockTokens store now list).syncToken with
  | none => rfl
  | some token => exact hsync

omit hcollection

/-- A condition that a state was filled in for holds as it does with all that can be looked up. -/
theorem holds_fill {condition : Condition} (h : condition ∈ list) :
    condition.holds (state.fill env store now list) =
      condition.holds (state.complete env store now) := by
  by_cases hcollection : state.collection = .none
  · rw [ResourceState.fill, ResourceState.complete, if_pos hcollection, if_pos hcollection]
    cases condition <;> rfl
  rw [ResourceState.complete, if_neg hcollection]
  cases condition with
  | stateToken isNot token =>
    by_cases hsync : davsyncPrefix.isPrefixOf token = true
    · have hneeds : list.any needsSyncToken = true := List.any_eq_true.mpr ⟨_, h, hsync⟩
      have hextract : tryExtractSyncId token =
          some ((token.drop davsyncPrefix.length).takeWhile (· ≠ ':')) := by
        rw [tryExtractSyncId, stripPrefix, if_pos hsync]
        rfl
      rw [Condition.holds, Condition.holds, hextract]
      rw [syncToken_fill hcollection hneeds]
    · have hneeds : list.any needsLockToken = true :=
        List.any_eq_true.mpr ⟨_, h, by rw [needsLockToken, eq_false_of_not_eq_true hsync]; rfl⟩
      have hextract : tryExtractSyncId token = none := by
        rw [tryExtractSyncId, stripPrefix, if_neg hsync]
        rfl
      rw [Condition.holds, Condition.holds, hextract]
      rw [lockTokens_fill hcollection hneeds]
  | eTag isNot tag | existence isNot =>
    have hneeds : list.any needsEtag = true := List.any_eq_true.mpr ⟨_, h, rfl⟩
    rw [Condition.holds, Condition.holds, etag_fill hcollection hneeds]

/-! ## The alternatives -/

/-- The resources of a request while its alternatives are evaluated: those it began with, and behind
them others that an alternative was about. -/
def Tracks (env : Environment) (store : LockStore) (now : Nat)
    (original current : List ResourceState) : Prop :=
  ∃ added : List ResourceState, current.map (ResourceState.complete env store now) =
      (original ++ added).map (ResourceState.complete env store now) ∧
    ∀ state ∈ added, ∃ accountId collection path,
      env.hasAccess accountId collection = true ∧ state = .ofPlace accountId collection path

variable {original current : List ResourceState}

theorem isAt_complete (accountId : Nat) (collection : Collection) (path : Text)
    (resource : ResourceState) :
    (resource.complete env store now).isAt accountId collection path =
      resource.isAt accountId collection path := by
  simp [ResourceState.isAt]

theorem tracks_refl (original : List ResourceState) : Tracks env store now original original :=
  ⟨[], by rw [List.append_nil], fun _ h => absurd h not_mem_nil⟩

variable (h : Tracks env store now original current)
include h

theorem Tracks.set {position : Nat} (hstate : current[position]? = some state) (list : List Condition) :
    Tracks env store now original (current.set position (state.fill env store now list)) := by
  obtain ⟨added, hmap, hadded⟩ := h
  refine ⟨added, ?_, hadded⟩
  rw [map_set, complete_fill, ← hmap]
  refine ext_getElem? fun i => ?_
  by_cases hi : position = i
  · subst hi
    obtain ⟨hlt, -⟩ := List.getElem?_eq_some_iff.mp hstate
    rw [List.getElem?_set_self (by simpa using hlt), List.getElem?_map, hstate]
    rfl
  · rw [List.getElem?_set_ne hi]

theorem Tracks.find?_eq (accountId : Nat) (collection : Collection) (path : Text) :
    (current.find? (ResourceState.isAt accountId collection path)).map
        (ResourceState.complete env store now) =
      (original.find? (ResourceState.isAt accountId collection path)).map
        (ResourceState.complete env store now) ∨
    original.find? (ResourceState.isAt accountId collection path) = none ∧
      env.hasAccess accountId collection = true ∧
      (current.find? (ResourceState.isAt accountId collection path)).map
        (ResourceState.complete env store now) =
          some ((ResourceState.ofPlace accountId collection path).complete env store now) := by
  obtain ⟨added, hmap, hadded⟩ := h
  have hcomp : ResourceState.isAt accountId collection path ∘ ResourceState.complete env store now =
      ResourceState.isAt accountId collection path :=
    funext (isAt_complete accountId collection path)
  have hfind := congrArg (List.find? (ResourceState.isAt accountId collection path)) hmap
  rw [List.find?_map, List.find?_map, hcomp, List.find?_append] at hfind
  cases hfirst : original.find? (ResourceState.isAt accountId collection path) with
  | some state =>
    rw [hfirst] at hfind
    exact Or.inl hfind
  | none =>
    rw [hfirst] at hfind
    cases hlast : added.find? (ResourceState.isAt accountId collection path) with
    | none =>
      rw [hlast] at hfind
      exact Or.inl hfind
    | some state =>
      obtain ⟨accountId', collection', path', haccess, rfl⟩ :=
        hadded state (List.mem_of_find?_eq_some hlast)
      have hat := List.find?_some hlast
      simp only [ResourceState.isAt, ResourceState.ofPlace, and_eq_true, beq_iff_eq] at hat
      obtain ⟨⟨rfl, rfl⟩, rfl⟩ := hat
      rw [hlast] at hfind
      exact Or.inr ⟨rfl, haccess, hfind⟩

theorem Tracks.push {accountId : Nat}
    {collection : Collection} {path : Text} (haccess : env.hasAccess accountId collection = true) :
    Tracks env store now original (current ++ [.ofPlace accountId collection path]) := by
  obtain ⟨added, hmap, hadded⟩ := h
  refine ⟨added ++ [.ofPlace accountId collection path], ?_, ?_⟩
  · rw [List.map_append, hmap, ← List.map_append, append_assoc]
  · rintro state hstate
    rcases mem_append.mp hstate with hstate | hstate
    · exact hadded state hstate
    · exact ⟨accountId, collection, path, haccess, mem_singleton.mp hstate⟩

theorem Tracks.head (hne : original ≠ []) :
    ∃ state, current[0]? = some state ∧ state.complete env store now =
      (original.headD resourceNotFound).complete env store now := by
  obtain ⟨added, hmap, -⟩ := h
  cases original with
  | nil => exact absurd rfl hne
  | cons resource rest =>
    cases current with
    | nil => cases hmap
    | cons state others =>
      exact ⟨state, rfl, (cons_eq_cons.mp hmap).1⟩

omit h

/-- A state was looked for, and it is among the resources as far as it is known, or there is no such
resource. -/
inductive Located (env : Environment) (store : LockStore) (now : Nat)
    (original : List ResourceState) (goal : ResourceState) :
    List ResourceState × Option Nat → Prop where
  | unknown {resources : List ResourceState} (h : Tracks env store now original resources)
    (hgoal : goal = resourceNotFound) : Located env store now original goal (resources, none)
  | known {resources : List ResourceState} {position : Nat} {state : ResourceState}
    (h : Tracks env store now original resources) (hstate : resources[position]? = some state)
    (hgoal : state.complete env store now = goal.complete env store now) :
    Located env store now original goal (resources, some position)

theorem Tracks.locatePlace (h : Tracks env store now original current) (accountId : Nat)
    (collection : Collection) (path : Text) :
    Located env store now original (placed env original accountId collection path)
      (match current.findIdx? (ResourceState.isAt accountId collection path) with
      | some position => (current, some position)
      | none =>
        if env.hasAccess accountId collection then
          (current ++ [.ofPlace accountId collection path], some current.length)
        else (current, none)) := by
  have hfind := h.find?_eq accountId collection path
  rw [List.find?_eq_bind_findIdx?_getElem?] at hfind
  cases hindex : current.findIdx? (ResourceState.isAt accountId collection path) with
  | some index =>
    obtain ⟨hlt, -⟩ := List.findIdx?_eq_some_iff_getElem.mp hindex
    rw [hindex, bind_some, List.getElem?_eq_getElem hlt] at hfind
    refine .known h (List.getElem?_eq_getElem hlt) ?_
    rcases hfind with hfind | ⟨hnone, haccess, hfind⟩
    · obtain ⟨state, hstate, hcomplete⟩ := map_eq_some_iff.mp hfind.symm
      simp [placed, hstate, hcomplete]
    · rw [placed, hnone, if_pos haccess]
      exact some_inj.mp hfind
  | none =>
    rw [hindex] at hfind
    have hnone : original.find? (ResourceState.isAt accountId collection path) = none := by
      rcases hfind with hfind | ⟨-, -, hfind⟩
      · exact map_eq_none_iff.mp hfind.symm
      · cases hfind
    rw [placed, hnone]
    split
    · rename_i haccess
      exact .known (h.push haccess) List.getElem?_concat_length rfl
    · exact .unknown h rfl

/-- What `locate` finds is the target of the alternative, as far as its state is known. -/
theorem Tracks.locate (h : Tracks env store now original current) (hne : original ≠ []) (if_ : If) :
    Located env store now original (target env original if_) (Lock.locate env current if_) := by
  unfold Lock.locate target
  cases if_.resource with
  | none =>
    obtain ⟨state, hstate, hcomplete⟩ := h.head hne
    obtain ⟨hlt, -⟩ := List.getElem?_eq_some_iff.mp hstate
    rw [if_neg (by simpa using ne_nil_of_length_pos hlt)]
    exact .known h hstate hcomplete
  | some uri =>
    dsimp only
    generalize env.validateUri uri = place
    match place with
    | some (some accountId, collection, some path) => exact h.locatePlace accountId _ path
    | some (some _, _, none) => exact .unknown h rfl
    | some (none, _, _) => exact .unknown h rfl
    | none => exact .unknown h rfl

/-- The alternatives are evaluated one by one, as if none had been evaluated before. -/
theorem evaluate_eq_any_of_tracks (hne : original ≠ []) (alternatives : List If)
    (h : Tracks env store now original current) :
    evaluate env store now current alternatives =
      alternatives.any (If.holds env store now original) := by
  induction alternatives generalizing current with
  | nil => rfl
  | cons if_ rest ih =>
    rw [evaluate, any_cons, If.holds]
    by_cases hempty : if_.list.isEmpty = true
    · rw [hempty, ih h]
      rfl
    · rw [eq_false_of_not_eq_true hempty]
      have hlocated := h.locate hne if_
      generalize locate env current if_ = located at hlocated
      cases hlocated with
      | unknown htracks hgoal =>
        dsimp only
        rw [hgoal, ih htracks]
        rfl
      | @known resources position state htracks hstate hgoal =>
        have hall : if_.list.all (Condition.holds (state.fill env store now if_.list)) =
            if_.list.all (Condition.holds (state.complete env store now)) := by
          rw [Bool.eq_iff_iff, List.all_eq_true, List.all_eq_true]
          exact forall₂_congr fun condition hcondition => by rw [holds_fill hcondition]
        simp [hstate, hall, hgoal, ih (htracks.set hstate if_.list)]

theorem evaluate_eq_any (resource : ResourceState) (resources : List ResourceState)
    (alternatives : List If) :
    evaluate env store now (resource :: resources) alternatives =
      alternatives.any (If.holds env store now (resource :: resources)) :=
  evaluate_eq_any_of_tracks (cons_ne_nil _ _) alternatives (tracks_refl _)

/-! ## The headers -/

section Satisfied

variable (env : Environment) (store : LockStore) (now : Nat) (resource : ResourceState)
  (resources : List ResourceState)

def IfField.Satisfied : IfField → Prop
  | .if_ value =>
    ∃ if_ ∈ parseIf none value, if_.list ≠ [] ∧ ∀ condition ∈ if_.list,
      condition.holds ((target env (resource :: resources) if_).complete env store now) = true
  | .ifMatch value =>
    if value = ['*'] then (resource.complete env store now).etag ≠ none
    else ∃ tag ∈ listedTags value, (resource.complete env store now).etag = some tag
  | .ifNoneMatch value =>
    if value = ['*'] then (resource.complete env store now).etag = none
    else ∀ tag ∈ listedTags value, (resource.complete env store now).etag ≠ some tag

end Satisfied

variable {resource : ResourceState} {resources : List ResourceState}

theorem holds_iff {if_ : If} : If.holds env store now (resource :: resources) if_ = true ↔
      if_.list ≠ [] ∧ ∀ condition ∈ if_.list, condition.holds
        ((target env (resource :: resources) if_).complete env store now) = true := by
  simp [If.holds, and_eq_true, List.all_eq_true, isEmpty_eq_false_iff]

theorem listedTags_ne_nil (value : Text) : listedTags value ≠ [] := by
  rw [listedTags, Ne, map_eq_nil_iff]
  exact splitOn_ne_nil ',' value

theorem holds_untagged_iff {list : List Condition} :
    If.holds env store now (resource :: resources) ⟨none, list⟩ = true ↔ list ≠ [] ∧ ∀ condition ∈ list,
        condition.holds (resource.complete env store now) = true := holds_iff

theorem any_alternatives_iff (field : IfField) :
    field.alternatives.any (If.holds env store now (resource :: resources)) = true ↔
      field.Satisfied env store now resource resources := by
  cases field with
  | if_ value =>
    rw [List.any_eq_true]
    exact exists_congr fun if_ => and_congr_right fun _ => holds_iff
  | ifMatch value =>
    rw [IfField.alternatives, IfField.Satisfied, parseIfMatch]
    split
    · simp [holds_untagged_iff, Condition.holds, isSome_iff_ne_none]
    · simp [holds_untagged_iff, Condition.holds]
  | ifNoneMatch value =>
    rw [IfField.alternatives, IfField.Satisfied, parseIfMatch]
    split
    · simp [holds_untagged_iff, Condition.holds]
    · simp [holds_untagged_iff, Condition.holds, listedTags_ne_nil]

theorem evaluate_iff_satisfied (fields : List IfField) :
    evaluate env store now (resource :: resources) (fields.flatMap IfField.alternatives) = true ↔
      ∃ field ∈ fields, field.Satisfied env store now resource resources := by
  rw [evaluate_eq_any, any_flatMap, List.any_eq_true]
  exact exists_congr fun field => and_congr_right fun _ => any_alternatives_iff field

theorem evaluate_of_ok {headers : RequestHeaders} {method : DavMethod} (hne : headers.if_ ≠ [])
    (hok : validateHeaders env store now headers method resources = .ok ()) :
    evaluate env store now resources headers.if_ = true := by
  have hsome : ¬ headers.if_.isEmpty = true := fun h => hne (List.isEmpty_iff.mp h)
  rw [validateHeaders, if_neg (fun h => hsome h.2)] at hok
  split at hok
  · cases hok
  · dsimp only at hok
    split at hok
    · assumption
    · split at hok <;> cases hok

/-- A request that passes has a header that is satisfied, unless its headers are parsed to nothing.
An If header is parsed to the lists that are written in it; a tag goes with the first list behind
it, and the other lists are about the resource of the request. -/
theorem passes_satisfied :
    (∀ (env : Environment) (store : LockStore) (now : Nat) (headers : RequestHeaders)
        (method : DavMethod) (resource : ResourceState) (resources : List ResourceState)
        (fields : List IfField),
      validateHeaders env store now { headers with if_ := fields.flatMap IfField.alternatives }
        method (resource :: resources) = .ok () →
      (∀ field ∈ fields, field.alternatives = []) ∨
        ∃ field ∈ fields, field.Satisfied env store now resource resources) ∧
    ∀ (productions : List Production) (text : Text), RendersIf productions text →
      parseIf none text = productions.flatMap Production.parsed := by
  refine ⟨?_, fun productions text => parseIf_rendered⟩
  rintro env store now headers method resource resources fields hok
  by_cases hnone : fields.flatMap IfField.alternatives = []
  · exact Or.inl (flatMap_eq_nil_iff.mp hnone)
  · exact Or.inr ((evaluate_iff_satisfied fields).mp (evaluate_of_ok hnone hok))

/-- An If-Match header with the etag of a file is satisfied, and its If-None-Match header then does
not matter. The second list of a tagged production has lost its tag. -/
theorem not_passes_each_satisfied :
    (¬ ∀ (env : Environment) (store : LockStore) (now : Nat) (headers : RequestHeaders)
        (method : DavMethod) (resource : ResourceState) (resources : List ResourceState)
        (fields : List IfField),
      validateHeaders env store now { headers with if_ := fields.flatMap IfField.alternatives }
        method (resource :: resources) = .ok () →
      ∀ field ∈ fields, field.Satisfied env store now resource resources) ∧
    ¬ ∀ (productions : List Production) (text : Text), RendersIf productions text →
      parseIf none text = productions.flatMap Production.tagged := by
  constructor
  · intro h
    have hfields := h ⟨fun _ => none, fun _ _ => true, fun _ _ _ => some 7, fun _ _ _ => none,
      fun _ _ => 0⟩ (fun _ => none) 0 ⟨none, .none, .none, none, false, []⟩ .DELETE
      ⟨1, .fileNode, some 7, some ['e'], [], none, ['f']⟩ [] [.ifMatch ['e'], .ifNoneMatch ['e']]
      (by decide) (.ifNoneMatch ['e']) (by simp)
    exact hfields ['e'] (by decide) (by decide)
  · intro h
    have hblank : Blank [] := fun _ h => absurd h not_mem_nil
    have hlist : ∀ c : Char, c ≠ '>' →
        RendersList [.stateToken false [c]] ['<', c, '>', ')'] := fun c hc =>
      .plain hblank (@RendersPlain.token [c] (by simpa using hc.symm)) (.close hblank)
    have hrenders : RendersIf
        [⟨some ['r'], [.stateToken false ['a']], [[.stateToken false ['b']]]⟩]
        (['<', 'r', '>'] ++ ['(', '<', 'a', '>', ')', '(', '<', 'b', '>', ')'] ++ []) :=
      .cons (@RendersTag.some ['r'] [] hblank (by decide))
        (.cons hblank (hlist 'a' (by decide)) (.cons hblank (hlist 'b' (by decide)) .nil))
        (.nil hblank)
    have hparsed := h _ _ hrenders
    rw [parseIf_rendered hrenders] at hparsed
    exact absurd hparsed (by decide)

end Conditional

end Bearmail.Dav.Lock
