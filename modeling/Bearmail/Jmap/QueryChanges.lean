import Bearmail.Jmap.EmailQuery
import Bearmail.Lib.Splice

/-!
# Changes to the results of a query

`query_changes` of `jmap/src/changes/query.rs` for e-mails. The answer is made from the changes to
the e-mails, and not from the two lists of results: what was created or updated is listed with its
index in the new results, and what was updated or destroyed is to be removed.
-/

namespace Bearmail.Jmap

open Sync Splice
open Bool
open List hiding after

variable {K : Type}

/-! ## Requests and responses -/

structure QueryChangesRequest (K : Type) where
  filter : List (Filter (EmailFilter K))
  sort : Option (List (Comparator (EmailComparator K)))
  sinceQueryState : State
  maxChanges : Option Nat
  upToId : Option Nat
  calculateTotal : Option Bool
  arguments : QueryArguments

def QueryChangesRequest.toQuery (request : QueryChangesRequest K) : EmailQueryRequest K where
  filter := request.filter
  sort := request.sort
  position := none
  anchor := none
  anchorOffset := none
  limit := none
  calculateTotal := request.calculateTotal
  arguments := request.arguments

def QueryChangesRequest.isMutable (request : QueryChangesRequest K) : Bool :=
  (request.filter.any fun filter => !filter.isImmutable) ||
    (request.sort.getD []).any fun comparator => !comparator.property.isImmutable

abbrev AddedItem := Nat × Nat

structure QueryChangesResponse where
  oldQueryState : State
  newQueryState : State
  total : Option Nat
  removed : List Nat
  added : List AddedItem
  deriving DecidableEq

inductive QueryChangesError where
  | changes (error : ChangesError)
  | query (error : EmailQueryError)
  deriving DecidableEq

/-- An account at some time. Its cache has been fetched, so that it has the state of the log. -/
structure Account (K : Type) where
  store : Mailstore K
  /-- all commits, also those that are no longer in the log -/
  history : History
  cut : Option Nat
  ascending : Ascending history
  current : store.cache.ids.Current history

def Account.log (account : Account K) : Log := recorded account.cut account.history

def Account.ids (account : Account K) : CacheIds := account.store.cache.ids

def Account.reader (account : Account K) : Reader :=
  account.store.readable.map fun readable doc =>
    decide (doc ∈ account.store.cache.sharedMessages readable)

/-! ## The answer -/

def ChangesResponse.hasChanges (changes : ChangesResponse) : Bool :=
  !changes.created.isEmpty || !changes.updated.isEmpty || !changes.destroyed.isEmpty

/-- The loop for queries whose results never move: it stops at `upToId`. -/
def addedUpTo (created : List Nat) (upToId : Option Nat) : Nat → List Nat → List AddedItem
  | _, [] => []
  | index, id :: ids =>
    let item := if id ∈ created then [(id, index)] else []
    if upToId = some id then item else item ++ addedUpTo created upToId (index + 1) ids

def addedItems (isMutable : Bool) (upToId : Option Nat) (changes : ChangesResponse)
    (ids : List Nat) : List AddedItem :=
  if isMutable then
    ids.zipIdx.filter fun item => decide (item.1 ∈ changes.created ∨ item.1 ∈ changes.updated)
  else addedUpTo changes.created upToId 0 ids

def removedIds (isMutable : Bool) (changes : ChangesResponse) : List Nat :=
  (if isMutable then changes.updated else []) ++ changes.destroyed

def QueryChangesResponse.ofChanges (changes : ChangesResponse) : QueryChangesResponse :=
  ⟨changes.oldState, changes.newState, none, [], []⟩

section

variable [DecidableEq K] (core : QueryCore) (request : QueryChangesRequest K) (account : Account K)

def queryChanges : Except QueryChangesError QueryChangesResponse :=
  match changes .email account.reader core.changesMaxResults account.log account.ids
      request.sinceQueryState request.maxChanges with
  | .error error => .error (.changes error)
  | .ok changes =>
    let response := QueryChangesResponse.ofChanges changes
    if !changes.hasChanges && !request.calculateTotal.getD false then .ok response
    else
      match emailQuery core request.toQuery account.store with
      | .error error => .error (.query error)
      | .ok results =>
        if changes.hasChanges then
          .ok { response with
            added := addedItems request.isMutable request.upToId changes results.ids
            removed := removedIds request.isMutable changes
            total := results.total }
        else .ok { response with total := results.total }

end

/-! ## What the client does -/

def QueryChangesResponse.apply (response : QueryChangesResponse) (ids : List Nat) : List Nat :=
  spliceAll (ids.filter fun id => !decide (id ∈ response.removed)) response.added

def resultsUpTo (id : Option Nat) (ids : List Nat) : List Nat :=
  match id with
  | some id => through id ids
  | none => ids

/-- The items come in the order of their indexes. Behind them the client has the new results, and
their state. -/
structure Tracks (id : Option Nat) (old : List Nat) (new : QueryResponse)
    (response : QueryChangesResponse) : Prop where
  ascending : response.added.Pairwise fun item item' => item.2 < item'.2
  ids : resultsUpTo id (response.apply old) = resultsUpTo id new.ids
  state : response.newQueryState = new.queryState

/-- What should hold of two states of an account, for every answer. -/
def Followed [DecidableEq K] (core : QueryCore) (request : QueryChangesRequest K)
    (old new : Account K) : Prop :=
  ∀ oldResults newResults response, emailQuery core request.toQuery old.store = .ok oldResults →
    emailQuery core request.toQuery new.store = .ok newResults →
    request.sinceQueryState = oldResults.queryState →
    queryChanges core request new = .ok response →
    Tracks request.upToId oldResults.ids newResults response

/-! ## What has to hold of the results -/

/-- The changes to e-mails behind a change that the reader hears about. -/
def Account.changed (account : Account K) (since : Nat) : List Change :=
  (partFold false (after since account.history)).filter fun change =>
    account.reader.allows change.id

def insertedKinds (isMutable : Bool) : List ChangeKind :=
  if isMutable then [.insert, .update, .updateProperty] else [.insert]

def removedKinds (isMutable : Bool) : List ChangeKind :=
  if isMutable then [.update, .updateProperty, .delete] else [.delete]

def without (changed : List Change) (kinds : List ChangeKind) (ids : List Nat) : List Nat :=
  ids.filter fun id => !decide (id ∈ idsOf changed kinds)

/-- The results that are not inserted are those that are not removed, in the same order. -/
def Undisturbed (isMutable : Bool) (id : Option Nat) (changed : List Change) (old new : List Nat) :
    Prop :=
  let stay := without changed (removedKinds isMutable) old
  let rest := without changed (insertedKinds isMutable)
  match id with
  | some id => if id ∈ new then rest (through id new) <+: stay else rest new = stay
  | none => rest new = stay

section Lists

variable {changed : List Change} {changes : ChangesResponse}

theorem mem_idsOf_append {first second : List ChangeKind} {id : Nat} :
    id ∈ idsOf changed (first ++ second) ↔ id ∈ idsOf changed first ∨ id ∈ idsOf changed second := by
  simp [idsOf, or_and_right, and_or_left, exists_or]

structure ChangesResponse.Lists (changes : ChangesResponse) (changed : List Change) : Prop where
  created : changes.created = idsOf changed [.insert]
  updated : changes.updated = idsOf changed [.update, .updateProperty]
  destroyed : changes.destroyed = idsOf changed [.delete]

theorem addedUpTo_eq_marked (created : List Nat) (id : Option Nat) (index : Nat) (ids : List Nat) :
    addedUpTo created id index ids =
      marked (fun a => decide (a ∈ created)) index (resultsUpTo id ids) := by
  induction ids generalizing index with
  | nil =>
    cases id with
    | none | some id => rfl
  | cons a ids ih =>
    have hitem : (if a ∈ created then [(a, index)] else []) =
        if decide (a ∈ created) = true then [(a, index)] else [] := by simp
    cases id with
    | none =>
      rw [addedUpTo, ih]
      dsimp [resultsUpTo]
      rw [marked_cons, hitem]
    | some id =>
      rw [addedUpTo]
      dsimp [resultsUpTo]
      rw [through]
      by_cases ha : a = id
      · rw [if_pos (by rw [ha]), if_pos ha, marked_cons, hitem]
        exact (List.append_nil _).symm
      · rw [if_neg (by simpa using Ne.symm ha), if_neg ha, ih, marked_cons, hitem]
        rfl

variable (h : changes.Lists changed)
include h

theorem addedItems_eq_marked (isMutable : Bool) (id : Option Nat) (ids : List Nat) :
    addedItems isMutable id changes ids =
      marked (fun a => decide (a ∈ idsOf changed (insertedKinds isMutable))) 0
        (if isMutable then ids else resultsUpTo id ids) := by
  cases isMutable with
  | false =>
    change addedUpTo changes.created id 0 ids = _
    rw [addedUpTo_eq_marked, h.created]
    rfl
  | true =>
    have hinserted : ∀ a, (a ∈ changes.created ∨ a ∈ changes.updated) ↔
        a ∈ idsOf changed (insertedKinds true) := by
      intro a
      rw [h.created, h.updated]
      exact (@mem_idsOf_append changed [.insert] [.update, .updateProperty] a).symm
    change (ids.zipIdx.filter fun item =>
      decide (item.1 ∈ changes.created ∨ item.1 ∈ changes.updated)) = _
    simp only [hinserted]
    rfl

theorem mem_removedIds (isMutable : Bool) (id : Nat) :
    id ∈ removedIds isMutable changes ↔ id ∈ idsOf changed (removedKinds isMutable) := by
  cases isMutable with
  | false =>
    change id ∈ changes.destroyed ↔ _
    rw [h.destroyed]
    exact Iff.rfl
  | true =>
    change id ∈ changes.updated ++ changes.destroyed ↔ _
    rw [mem_append, h.updated, h.destroyed]
    exact (@mem_idsOf_append changed [.update, .updateProperty] [.delete] id).symm

/-- With all the changes in the answer, the client has the new results exactly when the others
have not been disturbed. -/
theorem apply_iff_undisturbed (isMutable : Bool) (id : Option Nat)
    (old : List Nat) {new : List Nat} (hnew : new.Nodup) {response : QueryChangesResponse}
    (hadded : response.added = addedItems isMutable id changes new)
    (hremoved : response.removed = removedIds isMutable changes) :
    resultsUpTo id (response.apply old) = resultsUpTo id new ↔
      Undisturbed isMutable id changed old new := by
  have hstay : (old.filter fun a => !decide (a ∈ response.removed)) =
      without changed (removedKinds isMutable) old := by
    rw [hremoved, without]
    simp [mem_removedIds h]
  rw [QueryChangesResponse.apply, hstay, hadded, addedItems_eq_marked h]
  unfold Undisturbed
  generalize without changed (removedKinds isMutable) old = stay
  generalize hinserted : (fun a => decide (a ∈ idsOf changed (insertedKinds isMutable))) = c
  have hrest : ∀ l, without changed (insertedKinds isMutable) l = l.filter fun a => !c a := by
    intro l
    rw [without, ← hinserted]
  have hwhole : spliceAll stay (marked c 0 new) = new ↔
      without changed (insertedKinds isMutable) new = stay := by
    have hiff := spliceAll_marked c stay new []
    rw [List.append_nil, List.append_nil] at hiff
    rw [hrest]
    exact hiff.trans eq_comm
  cases id with
  | none =>
    have hsame : (if isMutable = true then new else resultsUpTo none new) = new := by
      cases isMutable with
      | false | true => rfl
    rw [hsame]
    exact hwhole
  | some u =>
    dsimp [resultsUpTo]
    by_cases hmem : u ∈ new
    · obtain ⟨behind, hsplit⟩ := @through_isPrefix Nat _ u new
      rw [if_pos hmem, through_eq_iff_of_mem hmem, hrest]
      cases isMutable with
      | false =>
        have hiff := spliceAll_marked_prefix c stay (through u new) [] fun _ h => nomatch h
        rw [List.append_nil] at hiff
        exact hiff
      | true =>
        have hiff := spliceAll_marked_prefix c stay (through u new) behind
          (notMem_through_of_nodup hnew hsplit)
        rw [hsplit] at hiff
        exact hiff
    · have hsame : (if isMutable = true then new else through u new) = new := by
        rw [through_of_notMem hmem, ite_self]
      rw [if_neg hmem, through_eq_iff_of_notMem hmem, hsame]
      exact hwhole

omit h

end Lists

/-! ## What the changes are -/

section Changes

variable {account : Account K} {since maxResults : Nat} {maxChanges : Option Nat}
  {response : ChangesResponse}

theorem changesPage_email (reader : Reader) (sinceState newState : State) (max : Nat)
    (changelog : Changes) (changed : List Change)
    (hchanged : ((partOf false changelog.changes).filter fun change => reader.allows change.id) =
      changed) :
    let page := changesPage .email reader sinceState newState max 0 changelog
    page.hasMoreChanges = decide (max < changed.length) ∧ page.Lists (changed.take max) ∧
      (newState ≠ .initial → page.hasMoreChanges = false → page.newState = newState) ∧
      (∀ changeId, page.hasMoreChanges = true → page.newState ≠ .exact changeId) := by
  subst hchanged
  refine ⟨rfl, ⟨rfl, rfl, rfl⟩, ?_, ?_⟩
  · intro hstate hmore
    dsimp only [changesPage] at hmore ⊢
    rw [hmore, if_neg Bool.false_ne_true, if_neg hstate]
  · intro changeId hmore
    dsimp only [changesPage] at hmore ⊢
    rw [hmore]
    exact fun heq => nomatch heq

theorem changes_email (h : changes .email account.reader maxResults account.log account.ids
      (.exact since) maxChanges = .ok response) :
    response.hasMoreChanges =
        decide (effectiveMax maxResults maxChanges < (account.changed since).length) ∧
      response.Lists ((account.changed since).take (effectiveMax maxResults maxChanges)) ∧
      (response.hasMoreChanges = false → response.newState = account.ids.getState false) ∧
      (response.hasMoreChanges = true → response.newState ≠ account.ids.getState false) := by
  have hmember : ¬(MethodObject.email.membersOnly && account.reader.isSome) = true :=
    Bool.false_ne_true
  unfold changes at h
  dsimp only at h
  rw [if_neg hmember] at h
  have hcached : (cachedState .email account.ids).getD .initial = account.ids.getState false := rfl
  rw [hcached] at h
  split at h
  · rename_i hstate
    cases h
    have hsince : account.ids.part false = since := by
      simpa [CacheIds.getState] using hstate
    have hnone : account.changed since = [] := by
      rw [Account.changed, ← hsince, Account.ids, account.current false]
      rfl
    rw [hnone, take_nil]
    exact ⟨rfl, ⟨rfl, rfl, rfl⟩, fun _ => rfl, fun hmore => nomatch hmore⟩
  · unfold checkLog at h
    split at h
    · cases h
    · rename_i htruncated
      split at h
      · cases h
      · cases h
        have hchanged : ((partOf false (account.log.changes false (.since since)).changes).filter
            fun change => account.reader.allows change.id) = account.changed since := by
          obtain ⟨base, -, hscan⟩ := @changes_since since account.cut account.history
            false account.ascending (cut_le_of_since (eq_false_iff.mpr htruncated))
          rw [Account.log, hscan.changes, effects_false, partOf_foldAll]
          rfl
        obtain ⟨hmore, hlists, hlast, hnot⟩ := changesPage_email account.reader (.exact since)
          (account.ids.getState false) (effectiveMax maxResults maxChanges) _ _ hchanged
        have hexact : account.ids.getState false ≠ .initial := fun hinitial => nomatch hinitial
        exact ⟨hmore, hlists, hlast hexact, hnot _⟩

end Changes

/-! ## The answer and the results -/

section Answer

variable [DecidableEq K] {core : QueryCore} {request : QueryChangesRequest K}

/-- The parts of an answer. Without changes they are empty, as are the lists they are made from. -/
theorem queryChanges_parts {account : Account K} {response : QueryChangesResponse}
    {results : QueryResponse} (hresults : emailQuery core request.toQuery account.store = .ok results)
    (h : queryChanges core request account = .ok response) :
    ∃ changes, Jmap.changes .email account.reader core.changesMaxResults account.log account.ids
        request.sinceQueryState request.maxChanges = .ok changes ∧
      response.newQueryState = changes.newState ∧
      response.added = addedItems request.isMutable request.upToId changes results.ids ∧
      response.removed = removedIds request.isMutable changes := by
  unfold queryChanges at h
  split at h
  · cases h
  · rename_i changes hchanges
    refine ⟨changes, hchanges, ?_⟩
    rw [hresults] at h
    dsimp only at h
    have hempty : changes.hasChanges = false →
        addedItems request.isMutable request.upToId changes results.ids = [] ∧
          removedIds request.isMutable changes = [] := by
      intro hnone
      rw [ChangesResponse.hasChanges] at hnone
      simp only [or_eq_false_iff, not_eq_false', List.isEmpty_iff] at hnone
      obtain ⟨⟨hcreated, hupdated⟩, hdestroyed⟩ := hnone
      have hlists : changes.Lists [] := ⟨hcreated, hupdated, hdestroyed⟩
      rw [addedItems_eq_marked hlists, removedIds, hupdated, hdestroyed, ite_self]
      exact ⟨filter_eq_nil_iff.mpr fun _ _ => Bool.false_ne_true, rfl⟩
    split at h
    · rename_i hnone
      obtain ⟨hnone, -⟩ := and_eq_true_iff.mp hnone
      obtain ⟨hadded, hremoved⟩ := hempty (by simpa using hnone)
      cases h
      exact ⟨rfl, hadded.symm, hremoved.symm⟩
    · split at h
      · cases h
        exact ⟨rfl, rfl, rfl⟩
      · rename_i hnone
        obtain ⟨hadded, hremoved⟩ := hempty (eq_false_iff.mpr hnone)
        cases h
        exact ⟨rfl, hadded.symm, hremoved.symm⟩

/-- A client that follows the answer has the new results and their state exactly when all changes
fit in the answer and have disturbed no other result. -/
theorem queryChanges_tracks (old new : Account K) (oldResults newResults : QueryResponse)
    (response : QueryChangesResponse)
    (hold : emailQuery core request.toQuery old.store = .ok oldResults)
    (hnew : emailQuery core request.toQuery new.store = .ok newResults)
    (hsince : request.sinceQueryState = oldResults.queryState)
    (h : queryChanges core request new = .ok response) :
    Tracks request.upToId oldResults.ids newResults response ↔
      (new.changed (old.ids.part false)).length ≤
          effectiveMax core.changesMaxResults request.maxChanges ∧
        Undisturbed request.isMutable request.upToId (new.changed (old.ids.part false))
          oldResults.ids newResults.ids := by
  obtain ⟨-, holdState⟩ := emailQuery_fromStart rfl rfl hold
  obtain ⟨hnodup, hnewState⟩ := emailQuery_fromStart rfl rfl hnew
  obtain ⟨changes, hchanges, hstate, hadded, hremoved⟩ := queryChanges_parts hnew h
  have hexact : old.store.cache.ids.getState false = .exact (old.ids.part false) := rfl
  rw [hsince, holdState, hexact] at hchanges
  obtain ⟨hmore, hlists, hlast, hnot⟩ := changes_email hchanges
  rcases Nat.lt_or_ge (effectiveMax core.changesMaxResults request.maxChanges)
    (new.changed (old.ids.part false)).length with hlt | hle
  · -- the state is one between the old and the new one
    rw [decide_eq_true hlt] at hmore
    refine ⟨fun htracks => absurd ?_ (hnot hmore), fun hfits => absurd hfits.1 (Nat.not_le_of_lt hlt)⟩
    rw [← hstate, htracks.state, hnewState]
    rfl
  · rw [decide_eq_false (Nat.not_lt_of_le hle)] at hmore
    rw [take_of_length_le hle] at hlists
    have hiff := apply_iff_undisturbed hlists request.isMutable request.upToId oldResults.ids hnodup
      hadded hremoved
    constructor
    · exact fun htracks => ⟨hle, hiff.mp htracks.ids⟩
    · intro hfits
      refine ⟨?_, hiff.mpr hfits.2, ?_⟩
      · rw [hadded, addedItems_eq_marked hlists]
        exact marked_ascending _ _ _
      · rw [hstate, hlast hmore, hnewState]
        rfl

end Answer

/-! ## Examples -/

def Account.opened (items : List (MessageCache K)) (search : Search.SearchBackend)
    (history : History) (ascending : Ascending history) : Account K where
  store :=
    { accountId := 7
      cache := ⟨items, .build (recorded none history)⟩
      readable := none
      search }
  history
  cut := none
  ascending
  current := by
    have hcut : ∀ k, (none : Option Nat) = some k → k ∈ history.map Prod.fst :=
      fun _ h => nomatch h
    exact (build_follows ascending hcut).2

def plainCore : QueryCore where
  detect text := (text, .unknown)
  parseHeader name := some (name, false)
  queryMaxResults := 100
  changesMaxResults := 100

def emptyIndex : Search.SearchBackend :=
  Search.internalFts Search.plainNlp fun _ _ => ⟨[], []⟩

def inThread3 (documentId : Nat) (keywords : List String) (h : documentId < 2 ^ 32) :
    MessageCache String :=
  ⟨documentId, 3, [0], keywords, h⟩

def itemEntry (inserts deletes : List Nat) : LogEntry := ⟨[], [], [], [], inserts, [], deletes⟩

def loneMessage : Account String :=
  .opened [inThread3 1 [] (by decide)] emptyIndex [(1, itemEntry [idOf 3 1] [])] (by simp [Ascending])

/-- A flagged message 2 has been added to the thread. -/
def twoMessages : Account String :=
  .opened [inThread3 1 [] (by decide), inThread3 2 ["$flagged"] (by decide)] emptyIndex
    [(1, itemEntry [idOf 3 1] []), (2, itemEntry [idOf 3 2] [])] (by simp [Ascending])

def secondMessage : Account String :=
  .opened [inThread3 2 ["$flagged"] (by decide)] emptyIndex
    [(1, itemEntry [idOf 3 1] []), (2, itemEntry [idOf 3 2] []), (3, itemEntry [] [idOf 3 1])]
    (by simp [Ascending])

def sampleRequest (since : Nat) (filter : List (EmailFilter String)) (maxChanges : Option Nat)
    (collapseThreads : Bool) : QueryChangesRequest String where
  filter := filter.map .property
  sort := none
  sinceQueryState := .exact since
  maxChanges
  upToId := none
  calculateTotal := none
  arguments := ⟨some collapseThreads⟩

def sampleResults (changeId : Nat) (ids : List Nat) : QueryResponse :=
  ⟨.exact changeId, 0, ids, none, none⟩

theorem queryChanges_tracks_flagged :
    Tracks none [] (sampleResults 2 [idOf 3 2])
      ⟨.exact 1, .exact 2, none, [], [(idOf 3 2, 0)]⟩ :=
  (@queryChanges_tracks String _ plainCore (sampleRequest 1 [.hasKeyword "$flagged"] none false)
    loneMessage twoMessages (sampleResults 1 []) (sampleResults 2 [idOf 3 2])
    ⟨.exact 1, .exact 2, none, [], [(idOf 3 2, 0)]⟩
    (by decide +kernel) (by decide +kernel) rfl (by decide +kernel)).mpr
    ⟨by decide, by
      change without _ _ _ = without _ _ _
      decide⟩

theorem collapsed_twoMessages :
    emailQuery plainCore (sampleRequest 2 [] none true).toQuery twoMessages.store =
      .ok (sampleResults 2 [idOf 3 1]) := by
  have hmask : twoMessages.store.mask = insert 1 {2} := by decide
  have hsort : (insert 1 {2} : Finset Nat).sort (· ≤ ·) = [1, 2] := by
    rw [Finset.sort_insert (· ≤ ·) (by decide) (by decide), Finset.sort_singleton]
  have hsearch : twoMessages.store.search.queryAccount
      ⟨.email, [(Search.accountFilter 7).toFilter], [], twoMessages.store.mask⟩ = .ok [1, 2] := by
    rw [← hsort]
    rfl
  rw [@emailQuery_of_search _ String _ plainCore _ _ [] [] rfl rfl hsearch]
  decide

/-- Message 1 comes into the results with the flag on message 2; message 2 takes the place of message
1 when that is destroyed; and the changes may stop half way. -/
theorem queryChanges_untracked :
    ¬Followed plainCore
        (sampleRequest 1 [.someInThreadHaveKeyword "$flagged", .notKeyword "$flagged"] none false)
        loneMessage twoMessages ∧
      ¬Followed plainCore (sampleRequest 2 [] none true) twoMessages secondMessage ∧
      ¬Followed plainCore (sampleRequest 1 [.hasKeyword "$flagged"] (some 1) false)
        loneMessage secondMessage := by
  refine ⟨fun h => ?_, fun h => ?_, fun h => ?_⟩
  · have htracks := h (sampleResults 1 []) (sampleResults 2 [idOf 3 1])
      ⟨.exact 1, .exact 2, none, [], []⟩ (by decide +kernel) (by decide +kernel) rfl
      (by decide +kernel)
    exact absurd htracks.ids (by decide)
  · have htracks := h (sampleResults 2 [idOf 3 1]) (sampleResults 3 [idOf 3 2])
      ⟨.exact 2, .exact 3, none, [idOf 3 1], []⟩ collapsed_twoMessages (by decide +kernel) rfl
      (by decide +kernel)
    exact absurd htracks.ids (by decide)
  · have htracks := h (sampleResults 1 []) (sampleResults 3 [idOf 3 2])
      ⟨.exact 1, .intermediate 2 3 1, none, [], [(idOf 3 2, 0)]⟩ (by decide +kernel)
      (by decide +kernel) rfl (by decide +kernel)
    exact absurd htracks.state (by decide)

end Bearmail.Jmap
