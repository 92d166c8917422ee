import Bearmail.Cache.Careful

/-!
# Calls without a commit

While nothing is committed, what a call has read of the log is all that there is (`Current`), and what it
returns is as a full build (`SameView`).
-/

namespace Bearmail.Cache

open Sync

variable {config : Config} {collection : SyncCollection} {server server' : Server}

/-! ## Full builds -/

/-- The same resources, each once, under the same paths. -/
structure SameView (collection : SyncCollection) (cache full : DavResources) : Prop where
  resources : cache.resources.Perm full.resources
  once : (cache.resources.map (keyOf collection)).Nodup
  paths : UniquePaths collection full.resources → ∀ s, cache.byPath s = full.byPath s

theorem sameView_of_mem {cache full : DavResources} (h : Shape collection cache.resources)
    (hfull : Shape collection full.resources)
    (hdescribes : Describes collection cache.resources cache.paths)
    (hdescribesFull : Describes collection full.resources full.paths)
    (hmem : ∀ resource, resource ∈ cache.resources ↔ resource ∈ full.resources) :
    SameView collection cache full := by
  refine ⟨?_, h.nodup, fun hunique s => Option.ext fun resource => ?_⟩
  · exact (List.perm_ext_iff_of_nodup h.nodup.of_map hfull.nodup.of_map).mpr hmem
  · have hunique' : UniquePaths collection cache.resources :=
      fun resource hresource resource' hresource' s his his' =>
        hunique resource ((hmem resource).mp hresource) resource' ((hmem resource').mp hresource') s
          (his.of_mem hmem) (his'.of_mem hmem)
    rw [byPath_iff hdescribes hunique', byPath_iff hdescribesFull hunique, hmem resource]
    exact and_congr_right fun _ =>
      ⟨fun his => his.of_mem hmem, fun his => his.of_mem fun other => (hmem other).symm⟩

structure UpToDate (collection : SyncCollection) (server : Server) (cache : DavResources) : Prop where
  ok : CacheOk collection server cache
  said : ∀ key, said server.history cache.highestChangeId key = []

theorem UpToDate.mem (hworld : World collection server) {cache : DavResources}
    (h : UpToDate collection server cache) (resource : DavResource) :
    resource ∈ cache.resources ↔ resource ∈ storeResources collection server.documents :=
  mem_of_cached hworld h.ok.shape
    (fun key hvalid => (h.ok.coherent key hvalid).resolve_left fun hne => hne (h.said key)) resource

theorem said_of_after {history : History} {changeId : Nat} (h : after changeId history = [])
    (key : Bool × Nat) : said history changeId key = [] := by
  rw [said, h]
  rfl

theorem NoOrphans.of_mem {resources resources' : List DavResource}
    (hmem : ∀ resource, resource ∈ resources ↔ resource ∈ resources') (h : NoOrphans resources) :
    NoOrphans resources' := by
  rintro id name parentId ⟨resource, hresource, hrest⟩
  obtain ⟨name', parentId', parent, hparent, hrest'⟩ :=
    h id name parentId ⟨resource, (hmem resource).mpr hresource, hrest⟩
  exact ⟨name', parentId', parent, (hmem parent).mp hparent, hrest'⟩

theorem addItems_isSome (hworld : World config.collection server)
    (hclosed : config.collection = .fileNode → NoOrphans (archives server.documents false))
    (cache : DavResources) : ∃ built, addItems config server.documents cache = some built := by
  unfold addItems
  cases hcollection : config.collection with
  | calendar | addressBook | calendarEventNotification => exact ⟨_, rfl⟩
  | fileNode =>
    have hkind : ∀ resource ∈ archives server.documents false, ∃ name size parentId acls,
        resource.data = .file name size parentId acls := by
      intro resource hmem
      have hfits := fits_archives hworld false resource hmem
      rw [hcollection] at hfits
      obtain ⟨id, data⟩ := resource
      cases data <;> first | exact ⟨_, _, _, _, rfl⟩ | cases hfits
    obtain ⟨paths, hpaths⟩ := Option.isSome_iff_exists.mp
      (buildNestedHierarchy_isSome hkind (hclosed hcollection) config.order)
    exact ⟨_, by rw [hpaths]; rfl⟩

theorem fullBuild_upToDate (hworld : World config.collection server)
    (hcontainers : config.collection.isCalcard = true → archives server.documents true ≠ [])
    (hclosed : config.collection = .fileNode → NoOrphans (archives server.documents false)) :
    ∃ full, fullBuild config server = some full ∧ UpToDate config.collection server full := by
  obtain ⟨hknown, hafter⟩ := hworld.lastChangeId
  have hbuilt : ∀ containers, Started config.collection server containers 0 server.lastChangeId → ∃ full,
        addItems config server.documents (containers.foldl DavResources.addContainer
          (emptyCache 0 server.lastChangeId)) = some full ∧
        UpToDate config.collection server full := by
    intro containers hstarted
    obtain ⟨full, hfull⟩ := addItems_isSome hworld hclosed (containers.foldl
      DavResources.addContainer (emptyCache 0 server.lastChangeId))
    obtain ⟨hok, hid⟩ := cacheOk_addItems hworld hstarted hfull
    exact ⟨full, hfull, hok, fun key => said_of_after (hid ▸ hafter) key⟩
  unfold fullBuild
  split
  · rename_i hcalcard
    have hne : (addContainers server.documents (emptyCache 0 server.lastChangeId)).paths ≠ [] :=
      foldl_addContainer_ne_nil (Or.inl (hcontainers hcalcard))
    rw [if_neg hne]
    exact hbuilt _ (started_archives hworld hcalcard hknown 0)
  · rename_i hcalcard
    refine hbuilt [] ⟨hknown, fun _ => rfl, fun _ hmem => (nomatch hmem), List.nodup_nil, ?_⟩
    exact fun heq => absurd heq hcalcard

theorem mem_storeResources_files (hworld : World collection server) (hcollection : collection = .fileNode)
    (resource : DavResource) :
    resource ∈ storeResources collection server.documents ↔
      resource ∈ archives server.documents false := by
  rw [storeResources, if_neg (by rw [hcollection]; decide), List.append_nil, List.mem_append,
    or_iff_right]
  intro hmem
  have hfits := fits_archives hworld true resource hmem
  rw [hcollection] at hfits
  cases hfits

theorem sameView_of_upToDate (hworld : World config.collection server) {cache : DavResources}
    (h : UpToDate config.collection server cache)
    (hcontainers : config.collection.isCalcard = true → archives server.documents true ≠ []) :
    ∃ full, fullBuild config server = some full ∧ SameView config.collection cache full := by
  have hclosed : config.collection = .fileNode → NoOrphans (archives server.documents false) := by
    intro hcollection
    refine (h.ok.describes.closed hcollection).of_mem fun resource => ?_
    rw [h.mem hworld, mem_storeResources_files hworld hcollection]
  obtain ⟨full, hfull, hupToDate⟩ := fullBuild_upToDate hworld hcontainers hclosed
  refine ⟨full, hfull, sameView_of_mem h.ok.shape hupToDate.ok.shape h.ok.describes
    hupToDate.ok.describes fun resource => ?_⟩
  rw [h.mem hworld, hupToDate.mem hworld]

/-! ## Steps that commit nothing -/

def Quiet (config : Config) : Step → Prop
  | .commit .. => False
  | .createDefault .. => config.defaultContainer = none
  | _ => True

/-- What a call has read of the log is all that there is. -/
def Current (collection : SyncCollection) (server : Server) : Phase → Prop
  | .buildingContainers cache _ | .buildingItems cache | .built cache =>
    after cache.highestChangeId server.history = []
  | .scanned _ changes | .updating _ _ changes _ _ =>
    after changes.toChangeId server.history = []
  | .returned cache => UpToDate collection server cache
  | _ => True

theorem Current.same (h : Same server server') {phase : Phase}
    (hcurrent : Current collection server phase) : Current collection server' phase := by
  have hafter : ∀ changeId, after changeId server.history = [] →
      after changeId server'.history = [] := fun changeId hnil => by rw [h.history]; exact hnil
  cases phase with
  | returned cache => exact ⟨hcurrent.ok.same h, h.history ▸ hcurrent.said⟩
  | buildingContainers cache isFirstCheck | buildingItems cache | built cache
  | scanned cache changes | updating lock cache changes todo updated => exact hafter _ hcurrent
  | fetched cache | building lock isFirstCheck | creating lock | panicked => trivial

structure Goes (collection : SyncCollection) (server server' : Server) (call : Nat) (phase : Phase) :
    Prop where
  same : Same server server'
  calls : server'.calls = server.calls.insert call phase
  current : (∀ before, server.calls.lookup call = some before → Current collection server before) →
    Current collection server phase

theorem after_le {history : History} {changeId changeId' : Nat} (hle : changeId ≤ changeId')
    (h : after changeId history = []) : after changeId' history = [] := by
  rw [← after_after hle, h]
  rfl

section Goes

variable {call : Nat}

theorem goes_start (hstep : start server call = some server') :
    ∃ phase, Goes collection server server' call phase := by
  unfold start at hstep
  split at hstep
  · cases hstep
  split at hstep
  · cases hstep
    exact ⟨.fetched _, ⟨rfl, rfl⟩, rfl, fun _ => trivial⟩
  · cases hstep
    exact ⟨.building _ _, ⟨rfl, rfl⟩, rfl, fun _ => trivial⟩

theorem goes_readId (hworld : World config.collection server)
    (hstep : readId config server call = some server') :
    ∃ phase, Goes config.collection server server' call phase := by
  have hafter := hworld.lastChangeId.2
  unfold readId at hstep
  split at hstep
  · split at hstep
    · cases hstep
      exact ⟨.buildingContainers _ _, ⟨rfl, rfl⟩, rfl, fun _ => hafter⟩
    · cases hstep
      exact ⟨.buildingItems _, ⟨rfl, rfl⟩, rfl, fun _ => hafter⟩
  · cases hstep

theorem goes_readContainers (hstep : readContainers server call = some server') :
    ∃ phase, Goes collection server server' call phase := by
  unfold readContainers at hstep
  split at hstep
  · rename_i cache isFirstCheck hphase
    have hid : (addContainers server.documents cache).highestChangeId = cache.highestChangeId :=
      highestChangeId_foldl DavResources.addContainer (fun _ _ => rfl) _ _
    have hcurrent : (∀ before, server.calls.lookup call = some before →
        Current collection server before) →
        after (addContainers server.documents cache).highestChangeId server.history = [] :=
      fun hbefore => by rw [hid]; exact hbefore _ hphase
    dsimp only at hstep
    split at hstep
    · split at hstep
      · cases hstep
        exact ⟨.creating _, ⟨rfl, rfl⟩, rfl, fun _ => trivial⟩
      · cases hstep
        exact ⟨.built _, ⟨rfl, rfl⟩, rfl, hcurrent⟩
    · cases hstep
      exact ⟨.buildingItems _, ⟨rfl, rfl⟩, rfl, hcurrent⟩
  · cases hstep

theorem goes_createDefault {changeId id : Nat} (hquiet : config.defaultContainer = none)
    (hstep : createDefault config server call changeId id = some server') :
    ∃ phase, Goes collection server server' call phase := by
  unfold createDefault at hstep
  rw [hquiet] at hstep
  split at hstep
  · cases hstep
    exact ⟨.building _ _, ⟨rfl, rfl⟩, rfl, fun _ => trivial⟩
  · cases hstep

theorem goes_readItems (h : Inv config.collection server)
    (hstep : readItems config server call = some server') :
    ∃ phase, Goes config.collection server server' call phase := by
  unfold readItems at hstep
  split at hstep
  · rename_i cache hphase
    obtain ⟨containers, lock, changeId, rfl, hstarted⟩ := h.calls call _ hphase
    split at hstep
    · cases hstep
      exact ⟨.panicked, ⟨rfl, rfl⟩, rfl, fun _ => trivial⟩
    · rename_i built hadd
      have hid := (cacheOk_addItems h.world hstarted hadd).2
      have hcurrent : (∀ before, server.calls.lookup call = some before →
          Current config.collection server before) → after built.highestChangeId server.history = [] := by
        intro hbefore
        have hafter := hbefore _ hphase
        rw [Current, highestChangeId_foldl DavResources.addContainer fun _ _ => rfl] at hafter
        rw [hid]
        exact hafter
      split at hstep
      all_goals
        cases hstep
        exact ⟨.built _, ⟨rfl, rfl⟩, rfl, hcurrent⟩
  · cases hstep

variable (h : Inv collection server)
include h

theorem goes_publish (hstep : publish server call = some server') :
    ∃ phase, Goes collection server server' call phase := by
  unfold publish at hstep
  split at hstep
  · rename_i cache hphase
    cases hstep
    exact ⟨.returned cache, ⟨rfl, rfl⟩, rfl, fun hbefore =>
      ⟨h.calls call _ hphase, said_of_after (hbefore _ hphase)⟩⟩
  · cases hstep

theorem goes_readLog (hstep : readLog server call = some server') :
    ∃ phase, Goes collection server server' call phase := by
  unfold readLog at hstep
  split at hstep
  · rename_i cache hphase
    dsimp only at hstep
    split at hstep
    · cases hstep
      exact ⟨.building _ _, ⟨rfl, rfl⟩, rfl, fun _ => trivial⟩
    · rename_i htruncated
      obtain ⟨hsaid, hscan⟩ := h.world.scan (Bool.eq_false_iff.mpr htruncated)
      split at hstep
      · rename_i hnone
        cases hstep
        refine ⟨.returned cache, ⟨rfl, rfl⟩, rfl, fun _ => ⟨h.calls call _ hphase, fun key => ?_⟩⟩
        rw [← hsaid, hnone]
        rfl
      · rename_i hne
        cases hstep
        exact ⟨.scanned _ _, ⟨rfl, rfl⟩, rfl, fun _ => (hscan hne).2⟩
  · cases hstep

theorem goes_acquire (hstep : acquire server call = some server') :
    ∃ phase, Goes collection server server' call phase := by
  unfold acquire at hstep
  split at hstep
  · rename_i cache changes hphase
    dsimp only at hstep
    split at hstep
    · cases hstep
    split at hstep
    · rename_i hcond
      cases hstep
      refine ⟨.returned _, ⟨rfl, rfl⟩, rfl, fun hbefore => ?_⟩
      -- the cache has no change of its own behind what was read
      cases hslot : server.slot with
      | none =>
        have hpending : Pending collection server cache changes := h.calls call _ hphase
        rw [hslot] at hcond
        exact absurd hpending.lt (Nat.not_lt_of_le hcond.2)
      | some current =>
        rw [hslot] at hcond
        exact ⟨h.slot current hslot, said_of_after (after_le hcond.2 (hbefore _ hphase))⟩
    · cases hstep
      refine ⟨.updating _ _ _ _ _, ⟨rfl, rfl⟩, rfl, fun hbefore => ?_⟩
      have hafter : after changes.toChangeId server.history = [] := hbefore _ hphase
      exact hafter
  · cases hstep

omit h

theorem goes_readNext (hstep : readNext config server call = some server') :
    ∃ phase, Goes collection server server' call phase := by
  unfold readNext at hstep
  split at hstep
  · rename_i lock cache changes change todo updated hphase
    split at hstep
    · cases hstep
    · cases hstep
      refine ⟨.updating _ _ _ _ _, ⟨rfl, rfl⟩, rfl, fun hbefore => ?_⟩
      have hafter : after changes.toChangeId server.history = [] := hbefore _ hphase
      exact hafter
  · cases hstep

theorem goes_finish (h : Inv config.collection server)
    (hstep : finish config server call = some server') :
    ∃ phase, Goes config.collection server server' call phase := by
  obtain ⟨lock, cache, changes, todo, updated, hphase, hcases⟩ := finish_cases hstep
  rcases hcases with ⟨new, rfl, hnew⟩ | ⟨-, rfl⟩
  · obtain ⟨hok, hid⟩ := cacheOk_finish h.world (h.calls call _ hphase) hnew
    refine ⟨.returned new, ⟨rfl, rfl⟩, rfl, fun hbefore => ⟨hok, said_of_after ?_⟩⟩
    rw [hid]
    exact hbefore _ hphase
  · exact ⟨.panicked, ⟨rfl, rfl⟩, rfl, fun _ => trivial⟩

theorem goes_fail (hstep : fail server call = some server') :
    ∃ phase, Goes collection server server' call phase := by
  unfold fail at hstep
  split at hstep
  · cases hstep
  · cases hstep
  all_goals
    cases hstep
    exact ⟨.panicked, ⟨rfl, rfl⟩, rfl, fun _ => trivial⟩

end Goes

def Step.call : Step → Option Nat
  | .commit .. | .truncate _ | .evict => none
  | .start call | .readId call | .readContainers call | .createDefault call _ _ | .readItems call
  | .publish call | .readLog call | .acquire call | .readNext call | .finish call | .fail call =>
    some call

theorem goes_step (h : Inv config.collection server) {l : Step} (hquiet : Quiet config l)
    (hstep : step config server l = some server') :
    match l.call with
    | none => Same server server' ∧ server'.calls = server.calls
    | some call => ∃ phase, Goes config.collection server server' call phase := by
  cases l with
  | commit changeId writes => exact absurd hquiet id
  | truncate maxEntries | evict => cases hstep; exact ⟨⟨rfl, rfl⟩, rfl⟩
  | start call => exact goes_start hstep
  | readId call => exact goes_readId h.world hstep
  | readContainers call => exact goes_readContainers hstep
  | createDefault call changeId id => exact goes_createDefault hquiet hstep
  | readItems call => exact goes_readItems h hstep
  | publish call => exact goes_publish h hstep
  | readLog call => exact goes_readLog h hstep
  | acquire call => exact goes_acquire h hstep
  | readNext call => exact goes_readNext hstep
  | finish call => exact goes_finish h hstep
  | fail call => exact goes_fail hstep

/-- The state of a call that began when nothing was committed any more. -/
structure QuietInv (config : Config) (documents : Documents) (call : Nat) (server : Server) :
    Prop where
  inv : Inv config.collection server
  documents : server.documents = documents
  current : ∀ phase, server.calls.lookup call = some phase → Current config.collection server phase

theorem quietInv_step {documents : Documents} {call : Nat}
    (h : QuietInv config documents call server) {l : Step} (hcareful : Careful config server l)
    (hquiet : Quiet config l) (hstep : step config server l = some server') :
    QuietInv config documents call server' := by
  refine ⟨inv_step h.inv hcareful hstep, ?_, ?_⟩
  · have hgoes := goes_step h.inv hquiet hstep
    cases hcall : l.call with
    | none => rw [hcall] at hgoes; exact hgoes.1.documents.trans h.documents
    | some other =>
      rw [hcall] at hgoes
      obtain ⟨phase, hgoes⟩ := hgoes
      exact hgoes.same.documents.trans h.documents
  · intro phase hphase
    have hgoes := goes_step h.inv hquiet hstep
    cases hcall : l.call with
    | none =>
      rw [hcall] at hgoes
      rw [hgoes.2] at hphase
      exact (h.current phase hphase).same hgoes.1
    | some other =>
      rw [hcall] at hgoes
      obtain ⟨next, hgoes⟩ := hgoes
      rw [hgoes.calls] at hphase
      rcases Tables.of_insert hphase with ⟨rfl, rfl⟩ | ⟨-, hold⟩
      · exact (hgoes.current h.current).same hgoes.same
      · exact (h.current phase hold).same hgoes.same

end Bearmail.Cache
