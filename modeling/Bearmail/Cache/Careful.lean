import Bearmail.Cache.Update
import Bearmail.Lib.Runs

/-!
# Careful steps

What a cache has of a document can be newer than its change id: documents are read after the change id
was. When such a document is deleted, the log names it no more, and it stays cached. And an update that
waits for the lock goes on from another cache than that for which it has read the log. `Careful` rules
out just this, and a calendar account without a calendar. Here is the invariant that careful steps keep.
-/

namespace Bearmail.Cache

open Sync
open Option
open List hiding after

/-! ## Careful steps -/

def documentKey (collection : SyncCollection) (resource : DavResource) : Bool × Nat :=
  (resource.isContainer && !collection.hasNoChildren, resource.documentId)

/-- Of a cache that a call has or makes: the change id, and the resources that it will not read again. -/
def Phase.held (collection : SyncCollection) : Phase → Option (Nat × List DavResource)
  | .fetched cache | .buildingItems cache | .built cache =>
    some (cache.highestChangeId, cache.resources)
  | .scanned cache changes => some (changes.toChangeId, unnamed cache changes)
  | .updating _ cache changes _ updated =>
    some (changes.toChangeId, unnamed cache changes ++ updated.entries.filterMap Sigma.snd)
  | _ => none
where
  unnamed (cache : DavResources) (changes : Changes) : List DavResource :=
    cache.resources.filter fun resource =>
      let key := documentKey collection resource
      decide (kindsOf key.1 key.2 changes.changes = [])

/-- No document is deleted that was inserted behind the change id. -/
def Spared (collection : SyncCollection) (history : History) (writes : List Write) (changeId : Nat)
    (resources : List DavResource) : Prop :=
  ∀ resource ∈ resources, ∀ write ∈ writes, write.kind = .delete →
    write.key = documentKey collection resource →
      ChangeKind.insert ∉ said history changeId write.key

def CarefulCommit (collection : SyncCollection) (server : Server) (writes : List Write) : Prop :=
  (∀ cache ∈ server.slot,
    Spared collection server.history writes cache.highestChangeId cache.resources) ∧
  ∀ call phase, server.calls.lookup call = some phase → ∀ held ∈ phase.held collection,
    Spared collection server.history writes held.1 held.2

/-- The changes that were read are all that tell the cache from the store at their end. -/
def CarefulAcquire (collection : SyncCollection) (server : Server) (cache : DavResources)
    (changes : Changes) : Prop :=
  cache.highestChangeId < changes.toChangeId →
  (∀ key : Bool × Nat, Valid collection key → kindsOf key.1 key.2 changes.changes = [] →
    saidBetween server.history cache.highestChangeId changes.toChangeId key = [] ∨
      cached collection cache.resources key = server.documents.lookup key) ∧
  (collection = .calendarEventNotification → Fitting cache.resources changes.changes)

variable (config : Config)

def Careful (server : Server) : Step → Prop
  | .commit _ writes => CarefulCommit config.collection server writes
  | .readContainers call => ∀ cache, server.calls.lookup call = some (.buildingContainers cache false) →
      archives server.documents true ≠ []
  | .acquire call => ∀ cache changes, server.calls.lookup call = some (.scanned cache changes) →
    CarefulAcquire config.collection server (base server cache) changes
  | _ => True

variable {config} {collection : SyncCollection} {server server' : Server}

/-! ## Deciding -/

instance (collection : SyncCollection) (key : Bool × Nat) : Decidable (Valid collection key) :=
  inferInstanceAs (Decidable (key.1 = true → collection.isCalcard = true))

instance (collection : SyncCollection) (history : History) (writes : List Write) (changeId : Nat)
    (resources : List DavResource) :
    Decidable (Spared collection history writes changeId resources) :=
  inferInstanceAs (Decidable (∀ resource ∈ resources, ∀ write ∈ writes, write.kind = .delete →
    write.key = documentKey collection resource →
      ChangeKind.insert ∉ said history changeId write.key))

instance (collection : SyncCollection) (server : Server) (writes : List Write) :
    Decidable (CarefulCommit collection server writes) :=
  inferInstanceAs (Decidable (_ ∧ _))

instance (resources : List DavResource) (changes : List Change) :
    Decidable (Fitting resources changes) :=
  decidable_of_iff ((∀ change ∈ changes, change.isContainer = false → change.kind = .insert →
      cached .calendarEventNotification resources (false, change.id) = none) ∧
    ∀ change ∈ changes, change.isContainer = false → change.kind = .delete →
      change.id ≠ scheduleInboxId ∧ change.id ≠ scheduleOutboxId) <| by
    constructor
    · exact fun h => ⟨fun id hid => h.1 _ (mem_kindsOf.mp hid) rfl rfl,
        fun id hid => h.2 _ (mem_kindsOf.mp hid) rfl rfl⟩
    · rintro ⟨hinserts, hdeletes⟩
      constructor
      · rintro ⟨isContainer, kind, id⟩ hmem rfl rfl
        exact hinserts id (mem_kindsOf.mpr hmem)
      · rintro ⟨isContainer, kind, id⟩ hmem rfl rfl
        exact hdeletes id (mem_kindsOf.mpr hmem)

variable {resources : List DavResource} {key : Bool × Nat} {cache : DavResources} {call : Nat}
  {changes : Changes}

theorem cached_eq_lookup {documents : Documents}
    (h : key.2 ∉ documents.keys.map Prod.snd ++ resources.map DavResource.documentId) :
    cached collection resources key = documents.lookup key := by
  rw [mem_append, not_or] at h
  have hlookup : documents.lookup key = none :=
    AList.lookup_eq_none.mpr fun hmem => h.1 (List.mem_map_of_mem hmem)
  rw [hlookup, cached, map_eq_none_iff, List.find?_eq_none]
  intro resource hmem hkey
  refine h.2 (List.mem_map.mpr ⟨resource, hmem, ?_⟩)
  exact (Prod.mk.inj (of_decide_eq_true hkey)).2

instance (collection : SyncCollection) (server : Server) (cache : DavResources) (changes : Changes) :
    Decidable (CarefulAcquire collection server cache changes) :=
  decidable_of_iff (cache.highestChangeId < changes.toChangeId →
    (∀ id ∈ server.documents.keys.map Prod.snd ++ cache.resources.map DavResource.documentId,
      ∀ isContainer, Valid collection (isContainer, id) →
      kindsOf isContainer id changes.changes = [] →
      saidBetween server.history cache.highestChangeId changes.toChangeId (isContainer, id) = [] ∨
        cached collection cache.resources (isContainer, id) =
          server.documents.lookup (isContainer, id)) ∧
    (collection = .calendarEventNotification → Fitting cache.resources changes.changes)) <| by
    refine imp_congr_right fun _ => and_congr_left fun _ => ⟨?_, ?_⟩
    · rintro h ⟨isContainer, id⟩ hvalid hnone
      by_cases hmem : id ∈ server.documents.keys.map Prod.snd ++
          cache.resources.map DavResource.documentId
      · exact h id hmem isContainer hvalid hnone
      · exact Or.inr (cached_eq_lookup hmem)
    · exact fun h id _ isContainer => h (isContainer, id)

instance decidableContainers {p : Prop} [Decidable p] :
    (phase : Option Phase) → Decidable (∀ cache, phase = some (.buildingContainers cache false) → p)
  | some (.buildingContainers cache false) => decidable_of_iff p ⟨fun h _ _ => h, fun h => h cache rfl⟩
  | some (.buildingContainers _ true) => isTrue fun _ heq => nomatch heq
  | some (.fetched _) => isTrue fun _ heq => nomatch heq
  | some (.building ..) => isTrue fun _ heq => nomatch heq
  | some (.creating _) => isTrue fun _ heq => nomatch heq
  | some (.buildingItems _) => isTrue fun _ heq => nomatch heq
  | some (.built _) => isTrue fun _ heq => nomatch heq
  | some (.scanned ..) => isTrue fun _ heq => nomatch heq
  | some (.updating ..) => isTrue fun _ heq => nomatch heq
  | some (.returned _) => isTrue fun _ heq => nomatch heq
  | some .panicked => isTrue fun _ heq => nomatch heq
  | none => isTrue fun _ heq => nomatch heq

instance decidableScanned {p : DavResources → Changes → Prop}
    [∀ cache changes, Decidable (p cache changes)] : (phase : Option Phase) →
      Decidable (∀ cache changes, phase = some (.scanned cache changes) → p cache changes)
  | some (.scanned cache changes) =>
    decidable_of_iff (p cache changes)
      ⟨fun h _ _ heq => by cases heq; exact h, fun h => h cache changes rfl⟩
  | some (.fetched _) => isTrue fun _ _ heq => nomatch heq
  | some (.building ..) => isTrue fun _ _ heq => nomatch heq
  | some (.buildingContainers ..) => isTrue fun _ _ heq => nomatch heq
  | some (.creating _) => isTrue fun _ _ heq => nomatch heq
  | some (.buildingItems _) => isTrue fun _ _ heq => nomatch heq
  | some (.built _) => isTrue fun _ _ heq => nomatch heq
  | some (.updating ..) => isTrue fun _ _ heq => nomatch heq
  | some (.returned _) => isTrue fun _ _ heq => nomatch heq
  | some .panicked => isTrue fun _ _ heq => nomatch heq
  | none => isTrue fun _ _ heq => nomatch heq

instance (config : Config) (server : Server) : (l : Step) → Decidable (Careful config server l)
  | .commit _ writes =>
    inferInstanceAs (Decidable (CarefulCommit config.collection server writes))
  | .readContainers call =>
    inferInstanceAs (Decidable (∀ cache,
      server.calls.lookup call = some (.buildingContainers cache false) →
        archives server.documents true ≠ []))
  | .acquire call =>
    inferInstanceAs (Decidable (∀ cache changes,
      server.calls.lookup call = some (.scanned cache changes) →
        CarefulAcquire config.collection server (base server cache) changes))
  | .truncate _ => isTrue trivial
  | .evict => isTrue trivial
  | .start _ => isTrue trivial
  | .readId _ => isTrue trivial
  | .createDefault .. => isTrue trivial
  | .readItems _ => isTrue trivial
  | .publish _ => isTrue trivial
  | .readLog _ => isTrue trivial
  | .readNext _ => isTrue trivial
  | .finish _ => isTrue trivial
  | .fail _ => isTrue trivial

/-! ## Invariants -/

/-- A cache that is right but for the changes that were read. -/
structure Pending (collection : SyncCollection) (server : Server) (cache : DavResources)
    (changes : Changes) : Prop where
  shape : Shape collection cache.resources
  describes : Describes collection cache.resources cache.paths
  scan : ∃ changeId, Scan server.history changeId changes
  lt : cache.highestChangeId < changes.toChangeId
  unnamed : ∀ key, Valid collection key → kindsOf key.1 key.2 changes.changes = [] →
    Agrees server changes.toChangeId key (cached collection cache.resources key)

def PhaseOk (collection : SyncCollection) (server : Server) : Phase → Prop
  | .fetched cache | .built cache => CacheOk collection server cache
  | .buildingContainers cache _ => collection.isCalcard = true ∧
    ∃ lock changeId, cache = emptyCache lock changeId ∧ Known server.history changeId
  | .buildingItems cache => ∃ containers lock changeId,
    cache = containers.foldl DavResources.addContainer (emptyCache lock changeId) ∧
      Started collection server containers lock changeId
  | .scanned cache changes => Pending collection server cache changes
  | .updating _ cache changes todo updated => Pending collection server cache changes ∧
    Reading collection server changes.toChangeId changes.changes todo updated ∧
      (collection = .calendarEventNotification → Fitting cache.resources changes.changes)
  | _ => True

structure Inv (collection : SyncCollection) (server : Server) : Prop where
  world : World collection server
  slot : ∀ cache, server.slot = some cache → CacheOk collection server cache
  calls : ∀ call phase, server.calls.lookup call = some phase → PhaseOk collection server phase

/-! ## Steps that commit nothing -/

structure Same (server server' : Server) : Prop where
  documents : server'.documents = server.documents
  history : server'.history = server.history

variable (h : Same server server')
include h

theorem Agrees.same {changeId : Nat} {value : Option DavResourceMetadata}
    (hagrees : Agrees server changeId key value) : Agrees server' changeId key value := by
  rw [Agrees, h.history, h.documents]
  exact hagrees

theorem CacheOk.same (hok : CacheOk collection server cache) :
    CacheOk collection server' cache :=
  ⟨hok.shape, hok.describes, h.history ▸ hok.known, fun key hvalid => (hok.coherent key hvalid).same h⟩

theorem PhaseOk.same {phase : Phase}
    (hok : PhaseOk collection server phase) : PhaseOk collection server' phase := by
  have hpending : ∀ cache changes, Pending collection server cache changes →
      Pending collection server' cache changes := fun cache changes hpending =>
    ⟨hpending.shape, hpending.describes, h.history ▸ hpending.scan, hpending.lt, fun key hvalid hnone =>
      (hpending.unnamed key hvalid hnone).same h⟩
  cases phase with
  | fetched cache | built cache => exact CacheOk.same h hok
  | building lock isFirstCheck | creating lock | returned cache | panicked => trivial
  | buildingContainers cache isFirstCheck =>
    obtain ⟨hcalcard, lock, changeId, heq, hknown⟩ := hok
    exact ⟨hcalcard, lock, changeId, heq, h.history ▸ hknown⟩
  | buildingItems cache =>
    obtain ⟨containers, lock, changeId, heq, hstarted⟩ := hok
    exact ⟨containers, lock, changeId, heq, h.history ▸ hstarted.known, hstarted.none, hstarted.kind,
      hstarted.nodup, fun hcalcard id => (hstarted.agrees hcalcard id).same h⟩
  | scanned cache changes => exact hpending cache changes hok
  | updating lock cache changes todo updated =>
    obtain ⟨hok, hreading, hfitting⟩ := hok
    refine ⟨hpending cache changes hok, ⟨hreading.rest, ?_, hreading.complete⟩, hfitting⟩
    intro k value hlookup
    obtain ⟨key, hvalid, heq, hagrees, hvalue⟩ := hreading.sound k value hlookup
    exact ⟨key, hvalid, heq, hagrees.same h, hvalue⟩

theorem World.same (hworld : World collection server)
    (hlog : ∃ cut, server'.log = recorded cut server.history ∧
      ∀ k, cut = some k → k ∈ server.history.map Prod.fst) : World collection server' where
  ascending := h.history ▸ hworld.ascending
  positive := h.history ▸ hworld.positive
  fresh := h.history ▸ hworld.fresh
  distinct := h.history ▸ hworld.distinct
  noProperties := h.history ▸ hworld.noProperties
  noUpdates := h.history ▸ hworld.noUpdates
  valid := h.history ▸ hworld.valid
  log := h.history ▸ hlog
  documents := by rw [h.history, h.documents]; exact hworld.documents
  fits := by rw [h.documents]; exact hworld.fits

omit h

theorem Inv.set (h : Inv collection server) (hsame : Same server server')
    (hlog : server'.log = server.log)
    (hslot : ∀ cache, server'.slot = some cache →
      server.slot = some cache ∨ CacheOk collection server cache)
    (hcalls : ∀ call phase, server'.calls.lookup call = some phase →
      server.calls.lookup call = some phase ∨ PhaseOk collection server phase) :
    Inv collection server' := by
  refine ⟨h.world.same hsame (hlog ▸ h.world.log), fun cache hcache => ?_, fun call phase hphase => ?_⟩
  · exact ((hslot cache hcache).elim (h.slot cache) fun hok => hok).same hsame
  · exact ((hcalls call phase hphase).elim (h.calls call phase) fun hok => hok).same hsame

theorem Inv.setCall (h : Inv collection server) (call : Nat) (phase : Phase)
    (hok : PhaseOk collection server phase) : Inv collection (server.setCall call phase) := by
  refine h.set ⟨rfl, rfl⟩ rfl (fun cache hcache => Or.inl hcache) fun other found hfound => ?_
  rcases Tables.of_insert hfound with ⟨-, rfl⟩ | ⟨-, hold⟩
  · exact Or.inr hok
  · exact Or.inl hold

theorem Inv.setLocks (h : Inv collection server) (locks : Nat → UpdateLock)
    (lastLock : Nat) : Inv collection { server with locks, lastLock } :=
  h.set ⟨rfl, rfl⟩ rfl (fun _ hcache => Or.inl hcache) fun _ _ hphase => Or.inl hphase

theorem Inv.setRevision (h : Inv collection server) (lock revision : Nat) :
    Inv collection (server.setRevision lock revision) := h.setLocks _ _

theorem Inv.release (h : Inv collection server) (lock : Nat) :
    Inv collection (server.release lock) := h.setLocks _ _

theorem Inv.setSlot (h : Inv collection server) (slot : Option DavResources)
    (hok : ∀ cache, slot = some cache → CacheOk collection server cache) :
    Inv collection { server with slot } :=
  h.set ⟨rfl, rfl⟩ rfl (fun cache hcache => Or.inr (hok cache hcache)) fun _ _ hphase => Or.inl hphase

theorem inv_truncate (h : Inv collection server) {maxEntries : Nat}
    (hstep : truncate server maxEntries = some server') : Inv collection server' := by
  cases hstep
  have hsame : Same server { server with log := server.log.deleteChanges maxEntries } := ⟨rfl, rfl⟩
  refine ⟨h.world.same hsame ?_, fun cache hcache => (h.slot cache hcache).same hsame,
    fun call phase hphase => (h.calls call phase hphase).same hsame⟩
  obtain ⟨cut, hlog, hcut⟩ := h.world.log
  rw [hlog]
  exact recorded_deleteChanges h.world.ascending hcut maxEntries

theorem inv_start (h : Inv collection server) (hstep : start server call = some server') :
    Inv collection server' := by
  unfold start at hstep
  split at hstep
  · cases hstep
  cases hslot : server.slot with
  | none =>
    rw [hslot] at hstep
    cases hstep
    exact (h.setCall call (.building (server.lastLock + 1) true) trivial).setLocks _ _
  | some cache =>
    rw [hslot] at hstep
    cases hstep
    exact h.setCall call _ (h.slot cache hslot)

/-! ## Builds -/

theorem World.lastChangeId (hworld : World collection server) :
    Known server.history server.lastChangeId ∧ after server.lastChangeId server.history = [] := by
  obtain ⟨cut, hlog, hcut⟩ := hworld.log
  have hlast := recorded_lastChangeId hworld.ascending hcut
  rw [← hlog] at hlast
  unfold Server.lastChangeId
  cases hid : server.log.lastChangeId with
  | none =>
    rw [hid] at hlast
    have hnil : server.history = [] := hlast
    rw [hnil]
    exact ⟨Or.inl rfl, rfl⟩
  | some changeId =>
    rw [hid] at hlast
    exact ⟨Or.inr hlast.1, hlast.2⟩

theorem inv_readId (h : Inv config.collection server)
    (hstep : readId config server call = some server') : Inv config.collection server' := by
  have hknown := h.world.lastChangeId.1
  unfold readId at hstep
  split at hstep
  · rename_i lock isFirstCheck hphase
    split at hstep
    · rename_i hcalcard
      cases hstep
      exact (h.setRevision lock _).setCall call _ ⟨hcalcard, lock, _, rfl, hknown⟩
    · rename_i hcalcard
      cases hstep
      refine h.setCall call _ ⟨[], lock, _, rfl, hknown, fun _ => rfl, ?_, nodup_nil, ?_⟩
      · exact fun resource hmem => by cases hmem
      · exact fun heq => absurd heq hcalcard
  · cases hstep

theorem started_archives (hworld : World collection server) (hcollection : collection.isCalcard = true)
    {changeId : Nat} (hknown : Known server.history changeId) (lock : Nat) :
    Started collection server (archives server.documents true) lock changeId := by
  have hkind := fits_archives hworld true
  have hnodup := nodup_archives server.documents true
  refine ⟨hknown, fun hnot => ?_, hkind, hnodup, fun _ id => Or.inr (Option.ext fun data => ?_)⟩
  · rw [hcollection] at hnot
    cases hnot
  · have hshape : Shape collection (archives server.documents true ++ []) :=
      shape_append hcollection hkind (fun _ hmem => (nomatch hmem)) hnodup nodup_nil
    rw [List.append_nil] at hshape
    rw [cached_eq_some hshape fun _ => hcollection]
    exact ⟨fun hmem => mem_archives.mp hmem.1,
      fun hlookup => ⟨mem_archives.mpr hlookup, hworld.fits _ _ hlookup⟩⟩

theorem insertPath_ne_nil (paths : List DavPath) (path : DavPath) : insertPath paths path ≠ [] := by
  unfold insertPath
  split
  · rename_i hany
    obtain ⟨other, hmem, -⟩ := List.any_eq_true.mp hany
    exact ne_nil_of_mem hmem
  · simp

theorem foldl_addContainer_ne_nil {containers : List DavResource}
    (h : containers ≠ [] ∨ cache.paths ≠ []) :
    (containers.foldl DavResources.addContainer cache).paths ≠ [] := by
  induction containers generalizing cache with
  | nil => exact h.resolve_left fun hne => hne rfl
  | cons resource containers ih => exact ih (Or.inr (insertPath_ne_nil _ _))

theorem inv_readContainers (h : Inv config.collection server)
    (hcareful : Careful config server (.readContainers call))
    (hstep : readContainers server call = some server') : Inv config.collection server' := by
  unfold readContainers at hstep
  split at hstep
  · rename_i cache isFirstCheck hphase
    obtain ⟨hcalcard, lock, changeId, rfl, hknown⟩ := h.calls call _ hphase
    dsimp only at hstep
    split at hstep
    · rename_i hnone
      cases isFirstCheck with
      | true =>
        cases hstep
        exact h.setCall call (.creating _) trivial
      | false => exact absurd hnone (foldl_addContainer_ne_nil (Or.inl (hcareful _ hphase)))
    · cases hstep
      exact h.setCall call _ ⟨_, lock, changeId, rfl, started_archives h.world hcalcard hknown lock⟩
  · cases hstep

theorem highestChangeId_foldl (add : DavResources → DavResource → DavResources)
    (h : ∀ cache resource, (add cache resource).highestChangeId = cache.highestChangeId)
    (resources : List DavResource) (cache : DavResources) :
    (resources.foldl add cache).highestChangeId = cache.highestChangeId := by
  induction resources generalizing cache with
  | nil => rfl
  | cons resource resources ih => exact (ih _).trans (h cache resource)

theorem cacheOk_addItems (hworld : World config.collection server) {containers : List DavResource}
    {lock changeId : Nat} (h : Started config.collection server containers lock changeId)
    {built : DavResources} (hadd : addItems config server.documents
      (containers.foldl DavResources.addContainer (emptyCache lock changeId)) = some built) :
    CacheOk config.collection server built ∧ built.highestChangeId = changeId := by
  have hresources : ∀ resource ∈ containers, resource.containerName.isSome := by
    intro resource hmem
    cases hcalcard : config.collection.isCalcard with
    | true => exact (isContainer_of_fits hcalcard _ (h.kind resource hmem)).2
    | false => rw [h.none hcalcard] at hmem; cases hmem
  have hcontainers := foldl_addContainer (fun _ => none) hresources (emptyCache lock changeId)
  have hcalcard : config.collection.isCalcard = true →
      some ((archives server.documents false).foldl (DavResources.addItem containers.length)
        (containers.foldl DavResources.addContainer (emptyCache lock changeId))) = some built →
      CacheOk config.collection server built ∧ built.highestChangeId = changeId := by
    rintro hcalcard hbuilt
    cases hbuilt
    refine ⟨cacheOk_calcard hcalcard hworld h, ?_⟩
    rw [highestChangeId_foldl (DavResources.addItem _) fun _ _ => rfl, hcontainers]
    rfl
  have hlength : (containers.foldl DavResources.addContainer
      (emptyCache lock changeId)).resources.length = containers.length := by
    rw [hcontainers]
    simp [emptyCache]
  unfold addItems at hadd
  cases hcollection : config.collection with
  | calendar | addressBook =>
    rw [hcollection, hlength] at hadd
    exact hcollection ▸ hcalcard (by rw [hcollection]; rfl) hadd
  | fileNode =>
    rw [hcollection] at hadd hworld h
    obtain ⟨paths, hpaths, rfl⟩ := map_eq_some_iff.mp hadd
    rw [h.none rfl]
    exact ⟨cacheOk_files hworld hpaths h.known, rfl⟩
  | calendarEventNotification =>
    rw [hcollection] at hadd hworld h
    cases hadd
    have hitems : ((archives server.documents false).map fun resource =>
        resourceFromScheduling resource.documentId false) = archives server.documents false :=
      (map_congr_left fun resource hmem =>
        (archives_scheduling hworld resource hmem).symm).trans (List.map_id _)
    rw [h.none rfl, hitems]
    refine ⟨cacheOk_scheduling hworld lock changeId h.known, ?_⟩
    exact highestChangeId_foldl DavResources.addScheduling (fun _ _ => rfl) _ _

theorem inv_readItems (h : Inv config.collection server)
    (hstep : readItems config server call = some server') : Inv config.collection server' := by
  unfold readItems at hstep
  split at hstep
  · rename_i cache hphase
    obtain ⟨containers, lock, changeId, rfl, hstarted⟩ := h.calls call _ hphase
    split at hstep
    · cases hstep
      exact h.setCall call .panicked trivial
    · rename_i built hadd
      have hok := (cacheOk_addItems h.world hstarted hadd).1
      split at hstep
      · cases hstep
        exact h.setCall call (.built built) hok
      · cases hstep
        exact (h.setCall call (.built built) hok).setRevision _ _
  · cases hstep

theorem inv_publish (h : Inv collection server) (hstep : publish server call = some server') :
    Inv collection server' := by
  unfold publish at hstep
  split at hstep
  · rename_i cache hphase
    cases hstep
    have hok : CacheOk collection server cache := h.calls call _ hphase
    exact (h.setSlot (some cache) fun found hfound => Option.some.inj hfound ▸ hok).setCall call
      (.returned cache) trivial
  · cases hstep

/-! ## Updates -/

theorem pending_changes (hworld : World collection server) (hok : CacheOk collection server cache)
    (htruncated : (server.log.changes false (.since cache.highestChangeId)).isTruncated = false)
    (hne : (server.log.changes false (.since cache.highestChangeId)).changes ≠ []) :
    Pending collection server cache (server.log.changes false (.since cache.highestChangeId)) := by
  obtain ⟨hscan, -⟩ := (hworld.scan htruncated).2 hne
  refine ⟨hok.shape, hok.describes, ⟨_, hscan⟩, hscan.lt, fun key hvalid hnone => ?_⟩
  rw [hscan.said] at hnone
  refine (hok.coherent key hvalid).imp_left fun hnamed => ?_
  rwa [hworld.said_of_between hscan.lt.le hnone] at hnamed

theorem inv_readLog (h : Inv collection server) (hstep : readLog server call = some server') :
    Inv collection server' := by
  unfold readLog at hstep
  split at hstep
  · rename_i cache hphase
    dsimp only at hstep
    split at hstep
    · cases hstep
      exact h.setCall call (.building _ _) trivial
    · rename_i htruncated
      split at hstep
      · cases hstep
        exact h.setCall call (.returned _) trivial
      · rename_i hne
        cases hstep
        refine h.setCall call (.scanned _ _) ?_
        exact pending_changes h.world (h.calls call _ hphase) (Bool.eq_false_iff.mpr htruncated) hne
  · cases hstep

/-- The cache that is updated is that for which the log was read, or the one that is cached now. -/
theorem base_eq (server : Server) (cache : DavResources) :
    base server cache = cache ∨ server.slot = some (base server cache) := by
  unfold base
  split
  · exact Or.inl rfl
  · cases server.slot with
    | none => exact Or.inl rfl
    | some current => exact Or.inr rfl

theorem pending_base (h : Inv collection server) (hpending : Pending collection server cache changes)
    (hlt : (base server cache).highestChangeId < changes.toChangeId)
    (hcareful : CarefulAcquire collection server (base server cache) changes) :
    Pending collection server (base server cache) changes := by
  rcases base_eq server cache with heq | hslot
  · rw [heq]
    exact hpending
  · have hok := h.slot _ hslot
    refine ⟨hok.shape, hok.describes, hpending.scan, hlt, fun key hvalid hnone => ?_⟩
    rcases (hcareful hlt).1 key hvalid hnone with hsaid | hsame
    · refine (hok.coherent key hvalid).imp_left fun hnamed => ?_
      rwa [h.world.said_of_between hlt.le hsaid] at hnamed
    · exact Or.inr hsame

theorem inv_acquire (h : Inv config.collection server) (hcareful : Careful config server (.acquire call))
    (hstep : acquire server call = some server') :
    Inv config.collection server' := by
  unfold acquire at hstep
  split at hstep
  · rename_i cache changes hphase
    have hpending : Pending config.collection server cache changes := h.calls call _ hphase
    dsimp only at hstep
    split at hstep
    · cases hstep
    split at hstep
    · cases hstep
      exact h.setCall call (.returned _) trivial
    · rename_i hgoes
      cases hstep
      have hlt : (base server cache).highestChangeId < changes.toChangeId := by
        unfold base
        split
        · exact hpending.lt
        · rename_i hstale
          exact Nat.lt_of_not_le fun hle => hgoes ⟨hstale, hle⟩
      refine (h.setCall call (.updating cache.updateLock (base server cache) changes
        changes.changes ∅) ?_).setLocks _ _
      have hacquire := hcareful cache changes hphase
      exact ⟨pending_base h hpending hlt hacquire, Reading.start _ _, (hacquire hlt).2⟩
  · cases hstep

theorem inv_readNext (h : Inv config.collection server)
    (hstep : readNext config server call = some server') : Inv config.collection server' := by
  unfold readNext at hstep
  split at hstep
  · rename_i lock cache changes change todo updated hphase
    obtain ⟨hpending, hreading, hfitting⟩ := h.calls call _ hphase
    obtain ⟨changeId, hscan⟩ := hpending.scan
    split at hstep
    · cases hstep
    · cases hstep
      exact h.setCall call (.updating _ _ _ _ _) ⟨hpending, hreading.process h.world hscan, hfitting⟩
  · cases hstep

theorem cacheOk_finish (hworld : World config.collection server) {lock : Nat} {todo : List Change}
    {updated : Updated}
    (hok : PhaseOk config.collection server (.updating lock cache changes todo updated))
    {new : DavResources} (hnew : new = rebuildScheduling cache changes ∧
        config.collection = .calendarEventNotification ∨
      rebuild config { cache with updateLock := lock } changes updated = some new ∧ todo = [] ∧
        config.collection ≠ .calendarEventNotification) :
    CacheOk config.collection server new ∧ new.highestChangeId = changes.toChangeId := by
  obtain ⟨hpending, hreading, hfitting⟩ := hok
  obtain ⟨changeId, hscan⟩ := hpending.scan
  rcases hnew with ⟨rfl, hcollection⟩ | ⟨hrebuild, rfl, hcollection⟩
  · rw [hcollection] at hworld hpending ⊢
    exact cacheOk_rebuildScheduling hworld hpending.shape hscan (hfitting hcollection) hpending.unnamed
  · have hshape : Shape config.collection { cache with updateLock := lock }.resources := hpending.shape
    exact cacheOk_rebuild hcollection hshape hpending.describes hscan.known hreading
      hpending.unnamed hrebuild

theorem finish_cases (hstep : finish config server call = some server') :
    ∃ lock cache changes todo updated,
      server.calls.lookup call = some (.updating lock cache changes todo updated) ∧
      ((∃ new : DavResources, server' = { ((server.setRevision new.updateLock
            new.highestChangeId).setCall call (.returned new)).release lock with slot := some new } ∧
          (new = rebuildScheduling cache changes ∧ config.collection = .calendarEventNotification ∨
          rebuild config { cache with updateLock := lock } changes updated = some new ∧ todo = [] ∧
            config.collection ≠ .calendarEventNotification)) ∨
        (rebuild config { cache with updateLock := lock } changes updated = none ∧
          server' = (server.setCall call .panicked).release lock)) := by
  unfold finish at hstep
  split at hstep
  · rename_i lock cache changes todo updated hphase
    refine ⟨lock, cache, changes, todo, updated, hphase, ?_⟩
    obtain ⟨result, hresult, rfl⟩ := map_eq_some_iff.mp hstep
    split at hresult
    · rename_i hcollection
      cases hresult
      exact Or.inl ⟨_, rfl, Or.inl ⟨rfl, hcollection⟩⟩
    · rename_i hcollection
      split at hresult
      · rename_i htodo
        cases hresult
        cases hrebuild : rebuild config { cache with updateLock := lock } changes updated with
        | none => exact Or.inr ⟨rfl, rfl⟩
        | some new => exact Or.inl ⟨new, rfl, Or.inr ⟨rfl, htodo, hcollection⟩⟩
      · cases hresult
  · cases hstep

theorem inv_finish (h : Inv config.collection server)
    (hstep : finish config server call = some server') : Inv config.collection server' := by
  obtain ⟨lock, cache, changes, todo, updated, hphase, hcases⟩ := finish_cases hstep
  rcases hcases with ⟨new, rfl, hnew⟩ | ⟨-, rfl⟩
  · have hok := (cacheOk_finish h.world (h.calls call _ hphase) hnew).1
    have hslot := h.setSlot (some new) fun found hfound => Option.some.inj hfound ▸ hok
    exact ((hslot.setRevision _ _).setCall call (.returned new) trivial).release lock
  · exact (h.setCall call .panicked trivial).release lock

theorem inv_fail (h : Inv collection server) (hstep : fail server call = some server') :
    Inv collection server' := by
  unfold fail at hstep
  split at hstep
  · cases hstep
  · cases hstep
  · cases hstep
    exact (h.setCall call .panicked trivial).release _
  · cases hstep
    exact h.setCall call .panicked trivial

/-! ## Commits -/

theorem documentKey_eq {resource : DavResource} (hvalid : Valid collection key)
    (h : keyOf collection resource = cacheKey collection key) :
    documentKey collection resource = key := by
  obtain ⟨isContainer, id⟩ := key
  obtain ⟨hcontainer, hid⟩ := Prod.mk.inj h
  refine Prod.ext ?_ hid
  cases collection with
  | fileNode =>
    cases isContainer with
    | true => cases hvalid rfl
    | false => exact Bool.and_false _
  | calendar | addressBook => simpa [SyncCollection.hasNoChildren, documentKey] using hcontainer
  | calendarEventNotification =>
    simpa [SyncCollection.hasNoChildren, documentKey] using hcontainer

section Commit

variable {changeId newId : Nat} {writes : List Write}

theorem Agrees.commit_of_spared (h : Committed config server newId writes server')
    (hlt : changeId < newId) (hspared : Spared collection server.history writes changeId resources)
    {value : Option DavResourceMetadata}
    (hvalue : value ≠ none → ∃ resource ∈ resources, documentKey collection resource = key)
    (hagrees : Agrees server changeId key value) : Agrees server' changeId key value := by
  refine hagrees.commit h hlt fun hdelete hne => ?_
  obtain ⟨resource, hmem, hkey⟩ := hvalue hne
  exact hspared resource hmem _ hdelete rfl hkey.symm

theorem exists_of_cached (hvalid : Valid collection key) (h : cached collection resources key ≠ none) :
    ∃ resource ∈ resources, documentKey collection resource = key := by
  obtain ⟨data, hdata⟩ := ne_none_iff_exists'.mp h
  obtain ⟨resource, hfound, -⟩ := map_eq_some_iff.mp hdata
  refine ⟨resource, List.mem_of_find?_eq_some hfound, documentKey_eq hvalid ?_⟩
  simpa using List.find?_some hfound

theorem CacheOk.commit (h : Committed config server newId writes server')
    (hspared : Spared collection server.history writes cache.highestChangeId cache.resources)
    (hok : CacheOk collection server cache) : CacheOk collection server' cache := by
  refine ⟨hok.shape, hok.describes, h.history ▸ hok.known.append _, fun key hvalid => ?_⟩
  exact (hok.coherent key hvalid).commit_of_spared h (h.lt hok.known) hspared (exists_of_cached hvalid)

theorem Pending.commit (h : Committed config server newId writes server')
    (hspared : Spared collection server.history writes changes.toChangeId resources)
    (hresources : ∀ resource ∈ Phase.held.unnamed collection cache changes, resource ∈ resources)
    (hok : Pending collection server cache changes) : Pending collection server' cache changes := by
  obtain ⟨changeId, hscan⟩ := hok.scan
  refine ⟨hok.shape, hok.describes, ⟨changeId, hscan.commit h⟩, hok.lt, fun key hvalid hnone => ?_⟩
  refine (hok.unnamed key hvalid hnone).commit_of_spared h (h.lt hscan.known) hspared fun hne => ?_
  obtain ⟨resource, hmem, rfl⟩ := exists_of_cached hvalid hne
  exact ⟨resource, hresources resource (mem_filter.mpr ⟨hmem, decide_eq_true hnone⟩), rfl⟩

theorem resources_foldl_addContainer (containers : List DavResource) (cache : DavResources) :
    (containers.foldl DavResources.addContainer cache).resources = cache.resources ++ containers := by
  induction containers generalizing cache with
  | nil => exact (List.append_nil _).symm
  | cons resource containers ih =>
    rw [foldl_cons, ih]
    exact append_assoc _ _ _

theorem PhaseOk.commit (h : Committed config server newId writes server') {phase : Phase}
    (hspared : ∀ held ∈ phase.held collection, Spared collection server.history writes held.1 held.2)
    (hok : PhaseOk collection server phase) : PhaseOk collection server' phase := by
  cases phase with
  | fetched cache | built cache => exact CacheOk.commit h (hspared _ rfl) hok
  | building lock isFirstCheck | creating lock | returned cache | panicked => trivial
  | buildingContainers cache isFirstCheck =>
    obtain ⟨hcalcard, lock, changeId, heq, hknown⟩ := hok
    exact ⟨hcalcard, lock, changeId, heq, h.history ▸ hknown.append _⟩
  | buildingItems cache =>
    obtain ⟨containers, lock, changeId, rfl, hstarted⟩ := hok
    have hkept := hspared _ rfl
    rw [highestChangeId_foldl DavResources.addContainer fun _ _ => rfl,
      resources_foldl_addContainer] at hkept
    refine ⟨containers, lock, changeId, rfl, h.history ▸ hstarted.known.append _, hstarted.none,
      hstarted.kind, hstarted.nodup, fun hcalcard id => ?_⟩
    exact (hstarted.agrees hcalcard id).commit_of_spared h (h.lt hstarted.known) hkept
      (exists_of_cached fun _ => hcalcard)
  | scanned cache changes =>
    exact Pending.commit h (hspared _ rfl) (fun _ hmem => hmem) hok
  | updating lock cache changes todo updated =>
    obtain ⟨hpending, hreading, hfitting⟩ := hok
    have hkept := hspared _ rfl
    refine ⟨hpending.commit h hkept fun _ hmem => mem_append_left _ hmem,
      ⟨hreading.rest, fun k value hlookup => ?_, hreading.complete⟩, hfitting⟩
    obtain ⟨key, hvalid, heq, hagrees, hvalue⟩ := hreading.sound k value hlookup
    refine ⟨key, hvalid, heq, ?_, hvalue⟩
    obtain ⟨changeId, hscan⟩ := hpending.scan
    refine hagrees.commit_of_spared h (h.lt hscan.known) hkept fun hne => ?_
    cases value with
    | none => exact absurd rfl hne
    | some resource =>
      refine ⟨resource, mem_append_right _ (mem_filterMap.mpr
        ⟨⟨k, some resource⟩, Tables.mem_entries.mpr hlookup, rfl⟩), documentKey_eq hvalid ?_⟩
      rw [hreading.keyOf_eq hlookup, heq]

theorem inv_commit (h : Inv config.collection server)
    (hcareful : CarefulCommit config.collection server writes)
    (hstep : commit config server newId writes = some server') : Inv config.collection server' := by
  have hcommitted := committed_of_commit hstep
  refine ⟨h.world.commit hcommitted, fun cache hcache => ?_, fun call phase hphase => ?_⟩
  · rw [hcommitted.eq] at hcache
    exact (h.slot cache hcache).commit hcommitted (hcareful.1 cache hcache)
  · rw [hcommitted.eq] at hphase
    exact (h.calls call phase hphase).commit hcommitted (hcareful.2 call phase hphase)

theorem carefulCommit_of_no_delete (h : ∀ write ∈ writes, write.kind ≠ .delete) :
    CarefulCommit collection server writes :=
  ⟨fun _ _ _ _ write hwrite hkind => absurd hkind (h write hwrite),
    fun _ _ _ _ _ _ _ write hwrite hkind => absurd hkind (h write hwrite)⟩

theorem inv_createDefault (h : Inv config.collection server) {changeId id : Nat}
    (hstep : createDefault config server call changeId id = some server') :
    Inv config.collection server' := by
  unfold createDefault at hstep
  split at hstep
  · split at hstep
    · cases hstep
      exact h.setCall call (.building _ _) trivial
    · obtain ⟨created, hcommit, rfl⟩ := map_eq_some_iff.mp hstep
      refine (inv_commit h (carefulCommit_of_no_delete fun write hwrite => ?_) hcommit).setCall call
        (.building _ _) trivial
      rw [mem_singleton.mp hwrite]
      exact fun hkind => nomatch hkind
  · cases hstep

end Commit

/-! ## Runs -/

theorem inv_step {l : Step} (h : Inv config.collection server) (hcareful : Careful config server l)
    (hstep : step config server l = some server') : Inv config.collection server' := by
  cases l with
  | commit changeId writes => exact inv_commit h hcareful hstep
  | truncate maxEntries => exact inv_truncate h hstep
  | evict =>
    cases hstep
    exact h.setSlot none fun _ hcache => nomatch hcache
  | start call => exact inv_start h hstep
  | readId call => exact inv_readId h hstep
  | readContainers call => exact inv_readContainers h hcareful hstep
  | createDefault call changeId id => exact inv_createDefault h hstep
  | readItems call => exact inv_readItems h hstep
  | publish call => exact inv_publish h hstep
  | readLog call => exact inv_readLog h hstep
  | acquire call => exact inv_acquire h hcareful hstep
  | readNext call => exact inv_readNext h hstep
  | finish call => exact inv_finish h hstep
  | fail call => exact inv_fail h hstep

theorem world_emptyServer (collection : SyncCollection) : World collection emptyServer where
  ascending := List.Pairwise.nil
  positive := fun _ hmem => by cases hmem
  fresh := fun _ => List.Pairwise.nil
  distinct := fun _ hmem => by cases hmem
  noProperties := fun _ hmem => by cases hmem
  noUpdates := fun _ _ hmem => by cases hmem
  valid := fun _ hmem => by cases hmem
  log := ⟨none, rfl, fun _ hk => by cases hk⟩
  documents := fun _ => rfl
  fits := fun _ _ hdata => by cases hdata

theorem inv_emptyServer (collection : SyncCollection) : Inv collection emptyServer :=
  ⟨world_emptyServer collection, fun _ hcache => (by cases hcache), fun _ _ hphase => (by cases hphase)⟩

theorem inv_run {ls : List Step} (hcareful : Runs.Along (step config) (Careful config) emptyServer ls)
    (hrun : Runs.run (step config) emptyServer ls = some server) : Inv config.collection server :=
  Runs.run_invariant (Inv config.collection) (fun _ _ _ h hl hstep => inv_step h hl hstep) hcareful
    (inv_emptyServer config.collection) hrun

end Bearmail.Cache
