import Bearmail.Cache.Quiet

/-!
# What a call returns

After careful steps, a call that begins when nothing is committed any more returns the resources of the
store (`fetch_coherent`). It does return: only a lock that another call holds stops it, and only a folder
that is not there ends it, which would also end a full build.
-/

namespace Bearmail.Cache

open Sync
open Option

variable {config : Config} {collection : SyncCollection} {server server' : Server}

/-! ## Calls that go on -/

/-- By its own steps a call comes to an end and returns a cache. -/
def Returns (config : Config) (server : Server) (call : Nat) : Prop :=
  ∃ (rest : List Step) (final : Server) (cache : DavResources), (∀ l ∈ rest, l.call = some call) ∧
    Runs.run (step config) server rest = some final ∧ final.result call = some cache

variable {cache : DavResources} {changes : Changes} {updated : Updated}

section Returns

variable {call : Nat}

theorem Returns.step {l : Step} (hcall : l.call = some call)
    (hstep : Cache.step config server l = some server') (h : Returns config server' call) :
    Returns config server call := by
  obtain ⟨rest, final, cache, hrest, hrun, hresult⟩ := h
  refine ⟨l :: rest, final, cache, fun l' hl' => ?_, ?_, hresult⟩
  · rcases List.mem_cons.mp hl' with rfl | hlater
    · exact hcall
    · exact hrest l' hlater
  · rw [Runs.run, hstep]
    exact hrun

theorem returns_of_returned (h : server.calls.lookup call = some (.returned cache)) :
    Returns config server call :=
  ⟨[], server, cache, fun _ hl => (nomatch hl), rfl, by rw [Server.result, h]⟩

theorem lookup_setCall (server : Server) (call : Nat) (phase : Phase) :
    (server.setCall call phase).calls.lookup call = some phase := AList.lookup_insert _

/-! ## Builds -/

theorem returns_of_built (h : server.calls.lookup call = some (.built cache)) :
    Returns config server call := by
  have hstep : step config server (.publish call) =
      some { server.setCall call (.returned cache) with slot := some cache } := by
    change publish server call = _
    rw [publish, h]
  exact Returns.step rfl hstep (returns_of_returned (lookup_setCall server call _))

theorem returns_of_buildingItems (hworld : World config.collection server)
    (hclosed : config.collection = .fileNode → NoOrphans (archives server.documents false))
    (h : server.calls.lookup call = some (.buildingItems cache)) : Returns config server call := by
  obtain ⟨built, hbuilt⟩ := addItems_isSome hworld hclosed cache
  by_cases hcalcard : config.collection.isCalcard = true
  · have hstep : step config server (.readItems call) = some (server.setCall call (.built built)) := by
      change readItems config server call = _
      simp [readItems, h, hbuilt, if_pos hcalcard]
    exact Returns.step rfl hstep (returns_of_built (lookup_setCall server call _))
  · have hstep : step config server (.readItems call) =
        some ((server.setRevision cache.updateLock cache.highestChangeId).setCall call
          (.built built)) := by
      change readItems config server call = _
      simp [readItems, h, hbuilt, if_neg hcalcard]
    exact Returns.step rfl hstep (returns_of_built (lookup_setCall _ call _))

theorem returns_of_building (hinv : Inv config.collection server)
    (hcontainers : config.collection.isCalcard = true → archives server.documents true ≠ [])
    (hclosed : config.collection = .fileNode → NoOrphans (archives server.documents false))
    {lock : Nat} {isFirstCheck : Bool}
    (h : server.calls.lookup call = some (.building lock isFirstCheck)) :
    Returns config server call := by
  by_cases hcalcard : config.collection.isCalcard = true
  · have hread : readId config server call = some ((server.setRevision lock
        server.lastChangeId).setCall call
          (.buildingContainers (emptyCache lock server.lastChangeId) isFirstCheck)) := by
      simp [readId, h, if_pos hcalcard]
    refine Returns.step (l := .readId call) rfl hread ?_
    have hread' : readContainers ((server.setRevision lock server.lastChangeId).setCall call
        (.buildingContainers (emptyCache lock server.lastChangeId) isFirstCheck)) call =
        some (((server.setRevision lock server.lastChangeId).setCall call
          (.buildingContainers (emptyCache lock server.lastChangeId) isFirstCheck)).setCall call
            (.buildingItems (addContainers server.documents
              (emptyCache lock server.lastChangeId)))) := by
      rw [readContainers, lookup_setCall]
      exact if_neg (foldl_addContainer_ne_nil (Or.inl (hcontainers hcalcard)))
    refine Returns.step (l := .readContainers call) rfl hread' ?_
    refine returns_of_buildingItems ?_ hclosed (lookup_setCall _ call _)
    refine World.same ?_ hinv.world hinv.world.log
    exact ⟨rfl, rfl⟩
  · have hread : readId config server call = some (server.setCall call
        (.buildingItems (emptyCache lock server.lastChangeId))) := by
      simp [readId, h, if_neg hcalcard]
    refine Returns.step (l := .readId call) rfl hread ?_
    refine returns_of_buildingItems ?_ hclosed (lookup_setCall _ call _)
    refine World.same ?_ hinv.world hinv.world.log
    exact ⟨rfl, rfl⟩

/-! ## Updates -/

theorem Reading.stored (hcollection : collection ≠ .calendarEventNotification)
    (hpending : Pending collection server cache changes)
    (h : Reading collection server changes.toChangeId changes.changes [] updated)
    (hafter : after changes.toChangeId server.history = []) {key : Bool × Nat}
    (hvalid : Valid collection key) :
    Cache.cached collection (newResources collection cache.resources updated) key =
      server.documents.lookup key := by
  have hnone : said server.history changes.toChangeId key = [] := said_of_after hafter key
  rw [h.cached hcollection hpending.shape hvalid]
  cases hfound : updated.lookup (cacheKey collection key) with
  | none =>
    refine (hpending.unnamed key hvalid ?_).resolve_left fun hne => hne hnone
    by_contra hne
    rcases h.complete key hvalid hne with htodo | hread
    · exact htodo rfl
    · exact hread hfound
  | some value =>
    obtain ⟨key', hvalid', heq, hagrees, -⟩ := h.sound _ _ hfound
    cases cacheKey_injective hvalid' hvalid heq
    exact hagrees.resolve_left fun hne => hne hnone

theorem Shape.filesOf (hcollection : collection = .fileNode) {resources : List DavResource}
    (h : Shape collection resources) : Files resources := by
  subst hcollection
  exact h.files

theorem rebuild_isSome (hworld : World config.collection server)
    (hcollection : config.collection ≠ .calendarEventNotification)
    (hclosed : config.collection = .fileNode → NoOrphans (archives server.documents false))
    (hpending : Pending config.collection server cache changes)
    (h : Reading config.collection server changes.toChangeId changes.changes [] updated)
    (hafter : after changes.toChangeId server.history = []) (lock : Nat) :
    ∃ new, rebuild config { cache with updateLock := lock } changes updated = some new := by
  have hshape := h.shape hcollection hpending.shape
  have hnodup : ({ cache with updateLock := lock }.resources.map (keyOf config.collection)).Nodup :=
    hpending.shape.nodup
  rw [rebuild_eq hnodup]
  split
  · split
    · rename_i hfiles
      have hmem : ∀ resource, resource ∈ archives server.documents false ↔
          resource ∈ newResources config.collection cache.resources updated := by
        intro resource
        rw [mem_of_cached hworld hshape fun key hvalid =>
          h.stored hcollection hpending hafter hvalid]
        exact (mem_storeResources_files hworld hfiles resource).symm
      obtain ⟨paths, hpaths⟩ := isSome_iff_exists.mp (buildNestedHierarchy_isSome
        (hshape.filesOf hfiles).kind ((hclosed hfiles).of_mem hmem) config.order)
      exact ⟨_, by rw [hpaths]; rfl⟩
    · exact ⟨_, rfl⟩
  · exact ⟨_, rfl⟩

theorem returns_of_finish (new : DavResources) (lock : Nat) (hfinish : finish config server call =
      some { ((server.setRevision new.updateLock new.highestChangeId).setCall call
        (.returned new)).release lock with slot := some new }) : Returns config server call :=
  Returns.step (l := .finish call) rfl hfinish (returns_of_returned (lookup_setCall _ call _))

theorem returns_of_updating (hcollection : config.collection ≠ .calendarEventNotification)
    (hclosed : config.collection = .fileNode → NoOrphans (archives server.documents false))
    {lock : Nat} {todo : List Change} (hinv : Inv config.collection server)
    (hafter : after changes.toChangeId server.history = [])
    (h : server.calls.lookup call = some (.updating lock cache changes todo updated)) :
    Returns config server call := by
  induction todo generalizing server updated with
  | nil =>
    obtain ⟨hpending, hreading, -⟩ := hinv.calls call _ h
    obtain ⟨new, hnew⟩ := rebuild_isSome hinv.world hcollection hclosed hpending hreading hafter lock
    refine returns_of_finish new lock ?_
    simp [finish, h, if_neg hcollection, hnew]
  | cons change todo ih =>
    have hread : readNext config server call = some (server.setCall call
        (.updating lock cache changes todo (process config server.documents updated change))) := by
      simp [readNext, h, if_neg hcollection]
    refine Returns.step (l := .readNext call) rfl hread ?_
    exact ih hclosed (inv_readNext hinv hread) hafter (lookup_setCall server call _)

theorem returns_of_scheduling (hcollection : config.collection = .calendarEventNotification)
    {lock : Nat} {todo : List Change}
    (h : server.calls.lookup call = some (.updating lock cache changes todo updated)) :
    Returns config server call := by
  refine returns_of_finish (rebuildScheduling cache changes) lock ?_
  simp [finish, h, if_pos hcollection]

theorem returns_of_scanned
    (hclosed : config.collection = .fileNode → NoOrphans (archives server.documents false))
    (hinv : Inv config.collection server) (hafter : after changes.toChangeId server.history = [])
    (hfree : ∀ lock, (server.locks lock).holder = none) (hslot : server.slot = some cache)
    (h : server.calls.lookup call = some (.scanned cache changes)) :
    Returns config server call := by
  have hbase : base server cache = cache := by
    unfold base
    rw [hslot]
    split <;> rfl
  have hpending : Pending config.collection server cache changes := hinv.calls call _ h
  have hgoes : ¬ ((server.locks cache.updateLock).revision ≠ cache.highestChangeId ∧
      changes.toChangeId ≤ (server.slot.getD cache).highestChangeId) := by
    rintro ⟨-, hle⟩
    rw [hslot] at hle
    exact Nat.not_lt_of_le hle hpending.lt
  obtain ⟨locks, hacquire⟩ : ∃ locks, acquire server call = some { server.setCall call
      (.updating cache.updateLock cache changes changes.changes ∅) with locks } := by
    simp [acquire, h, hfree, if_neg hgoes, hbase]
  refine Returns.step (l := .acquire call) rfl hacquire ?_
  by_cases hcollection : config.collection = .calendarEventNotification
  · exact returns_of_scheduling hcollection (lookup_setCall server call _)
  · refine returns_of_updating hcollection hclosed ?_ hafter (lookup_setCall server call _)
    refine (hinv.setCall call (.updating cache.updateLock cache changes changes.changes ∅)
      ?_).setLocks _ _
    exact ⟨hpending, Reading.start _ _, fun heq => absurd heq hcollection⟩

variable (hcontainers : config.collection.isCalcard = true → archives server.documents true ≠ [])
include hcontainers

theorem returns_of_fetched
    (hclosed : config.collection = .fileNode → NoOrphans (archives server.documents false))
    (hinv : Inv config.collection server) (hfree : ∀ lock, (server.locks lock).holder = none)
    (hslot : server.slot = some cache) (h : server.calls.lookup call = some (.fetched cache)) :
    Returns config server call := by
  cases hread : readLog server call with
  | none =>
    simp only [readLog, h] at hread
    split at hread
    · cases hread
    · split at hread <;> cases hread
  | some next =>
    refine Returns.step (l := .readLog call) rfl hread ?_
    have hnext := inv_readLog hinv hread
    simp only [readLog, h] at hread
    split at hread
    · cases hread
      exact returns_of_building hnext hcontainers hclosed (lookup_setCall server call _)
    · rename_i htruncated
      split at hread
      · cases hread
        exact returns_of_returned (lookup_setCall server call _)
      · rename_i hne
        cases hread
        obtain ⟨-, hscan⟩ := hinv.world.scan (Bool.eq_false_iff.mpr htruncated)
        exact returns_of_scanned hclosed hnext (hscan hne).2 hfree hslot (lookup_setCall server call _)

theorem returns_of_start
    (hclosed : config.collection = .fileNode → NoOrphans (archives server.documents false))
    (hinv : Inv config.collection server) (hfree : ∀ lock, (server.locks lock).holder = none)
    (h : server.calls.lookup call = none) : ∃ next, start server call = some next ∧
      Returns config next call := by
  have hnew : ¬ (server.calls.lookup call).isSome = true := by rw [h]; decide
  cases hstart : start server call with
  | none =>
    rw [start, if_neg hnew] at hstart
    split at hstart <;> cases hstart
  | some next =>
    refine ⟨next, rfl, ?_⟩
    have hnext := inv_start hinv hstart
    rw [start, if_neg hnew] at hstart
    split at hstart
    · rename_i cache hslot
      cases hstart
      exact returns_of_fetched hcontainers hclosed hnext hfree hslot (lookup_setCall server call _)
    · cases hstart
      exact returns_of_building hnext hcontainers hclosed (lookup_setCall server call _)

omit hcontainers

end Returns

/-! ## What a call returns -/

theorem result_eq_some {call : Nat} (h : server.result call = some cache) :
    server.calls.lookup call = some (.returned cache) := by
  unfold Server.result at h
  split at h
  · rename_i heq
    cases h
    exact heq
  · cases h

theorem closed_of_fullBuild (hworld : World config.collection server)
    (h : (fullBuild config server).isSome) (hcollection : config.collection = .fileNode) :
    NoOrphans (archives server.documents false) := by
  obtain ⟨full, hfull⟩ := isSome_iff_exists.mp h
  simp only [fullBuild, addItems, hcollection] at hfull
  obtain ⟨paths, hpaths, -⟩ := map_eq_some_iff.mp hfull
  exact (describes_buildNestedHierarchy (shape_files (hcollection ▸ hworld)).files hpaths).closed rfl

theorem upToDate_of_quiet {rest : List Step} {call : Nat} {final : Server}
    (hinv : Inv config.collection server) (hnew : server.calls.lookup call = none)
    (hcareful : Runs.Along (step config) (Careful config) server (.start call :: rest))
    (hquiet : ∀ l ∈ rest, Quiet config l)
    (hrun : Runs.run (step config) server (.start call :: rest) = some final)
    (hresult : final.result call = some cache) :
    World config.collection final ∧ final.documents = server.documents ∧
      UpToDate config.collection final cache := by
  have hquiet' : ∀ l ∈ .start call :: rest, Quiet config l := by
    intro l hl
    rcases List.mem_cons.mp hl with rfl | hlater
    · exact trivial
    · exact hquiet l hlater
  have hfinal : QuietInv config server.documents call final := by
    refine Runs.run_invariant (QuietInv config server.documents call)
      (fun _ _ _ h hcond hstep => quietInv_step h hcond.1 hcond.2 hstep)
      (hcareful.and (Runs.along_of_forall hquiet' server)) ⟨hinv, rfl, fun phase hphase => ?_⟩ hrun
    rw [hnew] at hphase
    cases hphase
  exact ⟨hfinal.inv.world, hfinal.documents, hfinal.current _ (result_eq_some hresult)⟩

/-- After careful steps, a call that begins when nothing is committed any more returns what a full
build of the store has. -/
theorem fetch_coherent {ls : List Step} {call : Nat}
    (hbefore : Runs.run (step config) emptyServer ls = some server)
    (hcareful : Runs.Along (step config) (Careful config) emptyServer ls)
    (hnew : server.calls.lookup call = none)
    (hcontainers : config.collection.isCalcard = true → archives server.documents true ≠ []) :
    (∀ rest final cache, Runs.Along (step config) (Careful config) server (.start call :: rest) →
      (∀ l ∈ rest, Quiet config l) →
      Runs.run (step config) server (.start call :: rest) = some final →
      final.result call = some cache →
      ∃ full, fullBuild config final = some full ∧ SameView config.collection cache full) ∧
    ((∀ lock, (server.locks lock).holder = none) → (fullBuild config server).isSome →
      ∃ next, start server call = some next ∧ Returns config next call) := by
  have hinv := inv_run hcareful hbefore
  refine ⟨fun rest final cache hrest hquiet hrun hresult => ?_, fun hfree hfull => ?_⟩
  · obtain ⟨hworld, hdocuments, hupToDate⟩ :=
      upToDate_of_quiet hinv hnew hrest hquiet hrun hresult
    refine sameView_of_upToDate hworld hupToDate fun hcalcard => ?_
    rw [hdocuments]
    exact hcontainers hcalcard
  · exact returns_of_start hcontainers (closed_of_fullBuild hinv.world hfull) hinv hfree hnew

/-! ## Overlapping updates -/

def firstSeen : HashOrder where
  nodes edges := (edges.flatMap fun edge => [edge.1, edge.2]).dedup
  orders edges := by
    refine ⟨List.nodup_dedup _, fun v => ?_⟩
    rw [List.mem_dedup, List.mem_flatMap, Topological.IsNode]
    simp [eq_comm]

def calendarConfig : Config := ⟨.calendar, firstSeen, none⟩

/-- Two calls read overlapping changes of a calendar, and update the cache one after the other. -/
def twoUpdates : List Step :=
  [.commit 1 [.insert true 1 (.calendar "home" [] [])], .start 0, .readId 0, .readContainers 0,
    .readItems 0, .publish 0, .commit 2 [.insert false 5 (.calendarEvent [⟨"a.ics", 1⟩] 0 0)],
    .start 1, .readLog 1, .commit 3 [.insert false 6 (.calendarEvent [⟨"b.ics", 1⟩] 0 0),
      .update false 5 (.calendarEvent [⟨"c.ics", 1⟩] 0 0)], .start 2, .readLog 2, .acquire 1,
    .readNext 1, .finish 1, .acquire 2, .readNext 2, .readNext 2, .finish 2]

theorem fetch_coherent_twoUpdates : ∃ server final cache full,
    Runs.run (step calendarConfig) emptyServer twoUpdates = some server ∧
      Runs.run (step calendarConfig) server [.start 3, .readLog 3] = some final ∧
      final.result 3 = some cache ∧ fullBuild calendarConfig final = some full ∧
      SameView .calendar cache full := by
  obtain ⟨server, hserver⟩ := isSome_iff_exists.mp
    (show (Runs.run (step calendarConfig) emptyServer twoUpdates).isSome by decide)
  have hfinal : ∀ server ∈ Runs.run (step calendarConfig) emptyServer twoUpdates,
      server.calls.lookup 3 = none ∧ archives server.documents true ≠ [] ∧
      Runs.Along (step calendarConfig) (Careful calendarConfig) server [.start 3, .readLog 3] ∧
      ((Runs.run (step calendarConfig) server [.start 3, .readLog 3]).bind
        fun final => final.result 3).isSome := by
    decide
  obtain ⟨hnew, hcontainers, hcareful, hsome⟩ := hfinal server hserver
  obtain ⟨cache, hcache⟩ := isSome_iff_exists.mp hsome
  obtain ⟨final, hrun, hresult⟩ := bind_eq_some_iff.mp hcache
  have hquiet : ∀ l ∈ [Step.readLog 3], Quiet calendarConfig l := fun l hl =>
    List.mem_singleton.mp hl ▸ (trivial : Quiet calendarConfig (.readLog 3))
  obtain ⟨full, hfull, hview⟩ := (fetch_coherent hserver (by decide) hnew
    fun _ => hcontainers).1 [.readLog 3] final cache hcareful hquiet hrun hresult
  exact ⟨server, final, cache, full, hserver, hrun, hresult, hfull, hview⟩

def schedulingConfig : Config := ⟨.calendarEventNotification, firstSeen, none⟩

/-- The same for scheduling messages: the later update inserts again what the earlier one has. -/
def twoInserts : List Step :=
  [.start 0, .readId 0, .readItems 0, .publish 0,
    .commit 1 [.insert false 9 (resourceFromScheduling 9 false).data], .start 1, .readLog 1,
    .commit 2 [.insert false 10 (resourceFromScheduling 10 false).data], .start 2, .readLog 2,
    .acquire 1, .finish 1, .acquire 2, .finish 2]

theorem message_twice : ∃ server final cache full,
    Runs.run (step schedulingConfig) emptyServer twoInserts = some server ∧
      Runs.run (step schedulingConfig) server [.start 3, .readLog 3] = some final ∧
      final.result 3 = some cache ∧ fullBuild schedulingConfig final = some full ∧
      UniquePaths .calendarEventNotification full.resources ∧
      ¬ (cache.resources.map (keyOf .calendarEventNotification)).Nodup ∧
      ¬ cache.resources.Perm full.resources := by
  have hfinal : (Runs.run (step schedulingConfig) emptyServer twoInserts).isSome ∧
      ∀ server ∈ Runs.run (step schedulingConfig) emptyServer twoInserts,
        (Runs.run (step schedulingConfig) server [.start 3, .readLog 3]).isSome ∧
        ∀ final ∈ Runs.run (step schedulingConfig) server [.start 3, .readLog 3],
          (final.result 3).isSome ∧ (fullBuild schedulingConfig final).isSome ∧
          (∀ cache ∈ final.result 3, cache.resources.length = 5 ∧
            ¬ (cache.resources.map (keyOf .calendarEventNotification)).Nodup) ∧
          ∀ full ∈ fullBuild schedulingConfig final, full.resources.length = 4 ∧
            ∀ resource ∈ full.resources, ∀ resource' ∈ full.resources,
              (pathFromScheduling resource.documentId 0 resource.isContainer).path =
                (pathFromScheduling resource'.documentId 0 resource'.isContainer).path →
              resource = resource' := by
    decide
  obtain ⟨hsome, hserver⟩ := hfinal
  obtain ⟨server, hrun⟩ := isSome_iff_exists.mp hsome
  obtain ⟨hsome, hrest⟩ := hserver server hrun
  obtain ⟨final, hrunRest⟩ := isSome_iff_exists.mp hsome
  obtain ⟨hreturned, hbuilt, hcache, hfull⟩ := hrest final hrunRest
  obtain ⟨cache, hresult⟩ := isSome_iff_exists.mp hreturned
  obtain ⟨full, hbuild⟩ := isSome_iff_exists.mp hbuilt
  obtain ⟨hlength, htwice⟩ := hcache cache hresult
  obtain ⟨hlengthFull, hpaths⟩ := hfull full hbuild
  refine ⟨server, final, cache, full, hrun, hrunRest, hresult, hbuild, ?_, htwice, fun hperm => ?_⟩
  · intro resource hmem resource' hmem' s his his'
    exact hpaths resource hmem resource' hmem' (his.symm.trans his')
  · have heq := hperm.length_eq
    rw [hlength, hlengthFull] at heq
    cases heq

end Bearmail.Cache
