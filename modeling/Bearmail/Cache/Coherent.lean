import Bearmail.Cache.World

/-!
# Coherent caches

A cache is coherent when each document is in it as it is in the store, or is named by the log behind the
change id of the cache (`CacheOk`). Here is that full builds are coherent (`cacheOk_addItems`), also when
documents change while they are read, and that a coherent cache has just the resources of the store when
the log names nothing (`mem_of_cached`).
-/

namespace Bearmail.Cache

open Sync
open List Option

variable {config : Config} {collection : SyncCollection} {server : Server}

/-! ## Keys of resources -/

def keyOf (collection : SyncCollection) (resource : DavResource) : Bool × Nat :=
  (collection.hasNoChildren || resource.isContainer, resource.documentId)

def cacheKey (collection : SyncCollection) (key : Bool × Nat) : Bool × Nat :=
  (collection.hasNoChildren || key.1, key.2)

def cached (collection : SyncCollection) (resources : List DavResource) (key : Bool × Nat) :
    Option DavResourceMetadata :=
  (resources.find? fun resource => decide (keyOf collection resource = cacheKey collection key)).map
    DavResource.data

def folders : List DavResource :=
  [resourceFromScheduling scheduleInboxId true, resourceFromScheduling scheduleOutboxId true]

variable {resource : DavResource} {isContainer : Bool}

theorem isContainer_of_mem_folders (h : resource ∈ folders) : resource.isContainer = true := by
  rcases mem_cons.mp h with rfl | hrest
  · rfl
  · rw [mem_singleton.mp hrest]
    rfl

theorem cacheKey_injective {key key' : Bool × Nat} (h : Valid collection key)
    (h' : Valid collection key') (heq : cacheKey collection key = cacheKey collection key') :
    key = key' := by
  obtain ⟨container, id⟩ := key
  obtain ⟨container', id'⟩ := key'
  obtain ⟨hcontainer, rfl⟩ := Prod.mk.inj heq
  cases collection with
  | fileNode =>
    cases container <;> cases container' <;> first | rfl | cases h rfl | cases h' rfl
  | calendar | addressBook | calendarEventNotification =>
    simpa [SyncCollection.hasNoChildren] using hcontainer

theorem keyOf_of_fits (resource : DavResource)
    (h : fits collection isContainer resource.documentId resource.data = true) :
    keyOf collection resource = cacheKey collection (isContainer, resource.documentId) := by
  obtain ⟨id, data⟩ := resource
  cases collection with
  | fileNode => rfl
  | calendar | addressBook => cases isContainer <;> cases data <;> first | rfl | cases h
  | calendarEventNotification =>
    cases isContainer with
    | true => cases data <;> cases h
    | false =>
      have hdata : data = (resourceFromScheduling id false).data := by simpa [fits] using h
      rw [hdata]
      rfl

/-- The resources of a cache: no two of one document, and each of the kind of its collection. -/
structure Shape (collection : SyncCollection) (resources : List DavResource) : Prop where
  nodup : (resources.map (keyOf collection)).Nodup
  kind : ∀ resource ∈ resources,
    (∃ isContainer, fits collection isContainer resource.documentId resource.data = true) ∨
      (collection = .calendarEventNotification ∧ resource ∈ folders)
  folders : collection = .calendarEventNotification → ∀ resource ∈ folders, resource ∈ resources

section Shape

variable {resources : List DavResource}

theorem Shape.eq (h : Shape collection resources) {resource' : DavResource}
    (hmem : resource ∈ resources) (hmem' : resource' ∈ resources)
    (hkey : keyOf collection resource = keyOf collection resource') : resource = resource' :=
  inj_on_of_nodup_map h.nodup hmem hmem' hkey

theorem cached_eq_some (h : Shape collection resources) {key : Bool × Nat}
    (hvalid : Valid collection key) {data : DavResourceMetadata} :
    cached collection resources key = some data ↔
      (⟨key.2, data⟩ : DavResource) ∈ resources ∧ fits collection key.1 key.2 data = true := by
  rw [cached, map_eq_some_iff]
  constructor
  · rintro ⟨⟨id, data⟩, hfound, rfl⟩
    have hmem := List.mem_of_find?_eq_some hfound
    have hkey : keyOf collection ⟨id, data⟩ = cacheKey collection key := by
      simpa using List.find?_some hfound
    have hid : id = key.2 := (Prod.mk.inj hkey).2
    subst hid
    refine ⟨hmem, ?_⟩
    rcases h.kind _ hmem with ⟨isContainer, hfits⟩ | ⟨rfl, hfolder⟩
    · rw [keyOf_of_fits _ hfits] at hkey
      have hsame := cacheKey_injective (valid_of_fits hfits : Valid collection (isContainer, key.2))
        hvalid hkey
      rw [← hsame]
      exact hfits
    · -- the folders are no documents
      have htrue : true = key.1 := by
        have hcontainer := (Prod.mk.inj hkey).1
        rwa [isContainer_of_mem_folders hfolder] at hcontainer
      cases hvalid htrue.symm
  · rintro ⟨hmem, hfits⟩
    have hkey := keyOf_of_fits ⟨key.2, data⟩ hfits
    obtain ⟨found, hfound⟩ := isSome_iff_exists.mp (List.find?_isSome
      (p := fun resource => decide (keyOf collection resource = cacheKey collection key)).mpr
      ⟨_, hmem, decide_eq_true hkey⟩)
    have hfoundKey : keyOf collection found = cacheKey collection key := by
      simpa using List.find?_some hfound
    have heq := h.eq (List.mem_of_find?_eq_some hfound) hmem (hfoundKey.trans hkey.symm)
    exact ⟨found, hfound, by rw [heq]⟩

end Shape

/-! ## The store -/

theorem mem_archives {documents : Documents} : resource ∈ archives documents isContainer ↔
      documents.lookup (isContainer, resource.documentId) = some resource.data := by
  rw [archives, List.mem_map]
  constructor
  · rintro ⟨⟨⟨container, id⟩, data⟩, hentry, rfl⟩
    obtain ⟨hmem, hcontainer⟩ := mem_filter.mp hentry
    rw [← of_decide_eq_true hcontainer]
    exact Tables.mem_entries.mp hmem
  · intro hlookup
    refine ⟨⟨(isContainer, resource.documentId), resource.data⟩, mem_filter.mpr ⟨?_, ?_⟩, rfl⟩
    · exact Tables.mem_entries.mpr hlookup
    · exact decide_eq_true rfl

theorem nodup_archives (documents : Documents) (isContainer : Bool) :
    ((archives documents isContainer).map DavResource.documentId).Nodup := by
  have hentries : (documents.entries.filter fun entry => decide (entry.1.1 = isContainer)).Pairwise
      fun entry entry' => entry.1 ≠ entry'.1 :=
    (pairwise_map.mp documents.nodupKeys).filter _
  rw [archives, List.map_map, List.Nodup, pairwise_map]
  refine hentries.imp_of_mem fun {entry entry'} hmem hmem' hne hid => hne (Prod.ext ?_ hid)
  have hcontainer := of_decide_eq_true (mem_filter.mp hmem).2
  have hcontainer' := of_decide_eq_true (mem_filter.mp hmem').2
  exact hcontainer.trans hcontainer'.symm

def storeResources (collection : SyncCollection) (documents : Documents) : List DavResource :=
  archives documents true ++ archives documents false ++
    if collection = .calendarEventNotification then folders else []

variable {resources : List DavResource}

/-- A cache without anything that the log would name has the resources of the store. -/
theorem mem_of_cached (hworld : World collection server) (h : Shape collection resources)
    (hcached : ∀ key, Valid collection key →
      cached collection resources key = server.documents.lookup key) (resource : DavResource) :
    resource ∈ resources ↔ resource ∈ storeResources collection server.documents := by
  have hstored : ∀ isContainer, resource ∈ archives server.documents isContainer →
      resource ∈ resources := by
    intro isContainer hmem
    have hlookup := mem_archives.mp hmem
    have hvalid := valid_of_fits (hworld.fits _ _ hlookup)
    rw [← hcached _ hvalid] at hlookup
    exact ((cached_eq_some h hvalid).mp hlookup).1
  constructor
  · intro hmem
    rcases h.kind resource hmem with ⟨isContainer, hfits⟩ | ⟨hscheduling, hfolder⟩
    · have hvalid : Valid collection (isContainer, resource.documentId) := valid_of_fits hfits
      have hlookup := (cached_eq_some h hvalid).mpr ⟨hmem, hfits⟩
      rw [hcached _ hvalid] at hlookup
      refine mem_append_left _ ?_
      cases isContainer with
      | true => exact mem_append_left _ (mem_archives.mpr hlookup)
      | false => exact mem_append_right _ (mem_archives.mpr hlookup)
    · refine mem_append_right _ ?_
      rw [if_pos hscheduling]
      exact hfolder
  · intro hmem
    rcases mem_append.mp hmem with hstore | hfolder
    · exact (mem_append.mp hstore).elim (hstored true) (hstored false)
    · split at hfolder
      · rename_i hscheduling
        exact h.folders hscheduling resource hfolder
      · cases hfolder

/-! ## Caches -/

def Coherent (collection : SyncCollection) (server : Server) (changeId : Nat)
    (resources : List DavResource) : Prop :=
  ∀ key, Valid collection key → Agrees server changeId key (cached collection resources key)

structure CacheOk (collection : SyncCollection) (server : Server) (cache : DavResources) : Prop where
  shape : Shape collection cache.resources
  describes : Describes collection cache.resources cache.paths
  known : Known server.history cache.highestChangeId
  coherent : Coherent collection server cache.highestChangeId cache.resources

theorem Shape.calcard (h : Shape collection resources)
    (hcollection : collection.isCalcard = true) : Calcard resources := by
  have hname : ∀ resource ∈ resources, resource.IsCalcard ∧
      resource.containerName.isSome = resource.isContainer := by
    intro resource hmem
    rcases h.kind resource hmem with ⟨isContainer, hfits⟩ | ⟨rfl, -⟩
    · obtain ⟨id, data⟩ := resource
      cases collection with
      | fileNode | calendarEventNotification => cases hcollection
      | calendar | addressBook =>
        cases isContainer <;> cases data <;> first | exact ⟨trivial, rfl⟩ | cases hfits
    · cases hcollection
  refine ⟨fun resource hmem => (hname resource hmem).1,
    fun resource hmem resource' hmem' hsome hsome' hid => h.eq hmem hmem' ?_⟩
  rw [(hname resource hmem).2] at hsome
  rw [(hname resource' hmem').2] at hsome'
  rw [keyOf, keyOf, hsome, hsome', hid]

theorem Shape.files (h : Shape .fileNode resources) :
    Files resources := by
  refine ⟨fun resource hmem => ?_, ?_⟩
  · rcases h.kind resource hmem with ⟨isContainer, hfits⟩ | ⟨heq, -⟩
    · obtain ⟨id, data⟩ := resource
      cases isContainer <;> cases data <;> first | exact ⟨_, _, _, _, rfl⟩ | cases hfits
    · cases heq
  · refine List.Nodup.of_map (f := fun id : Nat => (true, id)) ?_
    rw [List.map_map]
    exact h.nodup

/-! ## Full builds -/

structure Started (collection : SyncCollection) (server : Server) (containers : List DavResource)
    (lock changeId : Nat) : Prop where
  known : Known server.history changeId
  none : collection.isCalcard = false → containers = []
  kind : ∀ resource ∈ containers, fits collection true resource.documentId resource.data = true
  nodup : (containers.map DavResource.documentId).Nodup
  agrees : collection.isCalcard = true → ∀ id,
    Agrees server changeId (true, id) (cached collection containers (true, id))

theorem isContainer_of_fits (hcollection : collection.isCalcard = true) (resource : DavResource)
    (h : fits collection isContainer resource.documentId resource.data = true) :
    resource.isContainer = isContainer ∧ resource.containerName.isSome = isContainer := by
  obtain ⟨id, data⟩ := resource
  cases collection with
  | fileNode | calendarEventNotification => cases hcollection
  | calendar | addressBook =>
    cases isContainer <;> cases data <;> first | exact ⟨rfl, rfl⟩ | cases h

theorem hasNoChildren_of_isCalcard (h : collection.isCalcard = true) :
    collection.hasNoChildren = false ∧ collection ≠ .calendarEventNotification := by
  cases collection with
  | calendar | addressBook => exact ⟨rfl, fun heq => nomatch heq⟩
  | fileNode | calendarEventNotification => cases h

theorem shape_append (hcollection : collection.isCalcard = true) {containers items : List DavResource}
    (hcontainers : ∀ resource ∈ containers,
      fits collection true resource.documentId resource.data = true)
    (hitems : ∀ resource ∈ items, fits collection false resource.documentId resource.data = true)
    (hnodup : (containers.map DavResource.documentId).Nodup)
    (hnodup' : (items.map DavResource.documentId).Nodup) :
    Shape collection (containers ++ items) := by
  obtain ⟨hchildren, hscheduling⟩ := hasNoChildren_of_isCalcard hcollection
  have hkey : ∀ isContainer (resource : DavResource),
      fits collection isContainer resource.documentId resource.data = true →
      keyOf collection resource = (isContainer, resource.documentId) := by
    intro isContainer resource hfits
    simp [keyOf_of_fits _ hfits, cacheKey, hchildren]
  refine ⟨?_, ?_, fun heq => absurd heq hscheduling⟩
  · rw [List.map_append]
    refine nodup_append.mpr ⟨?_, ?_, ?_⟩
    · rw [map_congr_left fun r hr => hkey true r (hcontainers r hr)]
      refine List.Nodup.of_map (f := Prod.snd) ?_
      rw [List.map_map]
      exact hnodup
    · rw [map_congr_left fun r hr => hkey false r (hitems r hr)]
      refine List.Nodup.of_map (f := Prod.snd) ?_
      rw [List.map_map]
      exact hnodup'
    · intro key hmem key' hmem' heq
      obtain ⟨r, hr, rfl⟩ := List.mem_map.mp hmem
      obtain ⟨r', hr', rfl⟩ := List.mem_map.mp hmem'
      rw [hkey true r (hcontainers r hr), hkey false r' (hitems r' hr')] at heq
      cases heq
  · intro resource hmem
    rcases mem_append.mp hmem with hcontainer | hitem
    · exact Or.inl ⟨true, hcontainers resource hcontainer⟩
    · exact Or.inl ⟨false, hitems resource hitem⟩

theorem fits_archives (hworld : World collection server) (isContainer : Bool) :
    ∀ resource ∈ archives server.documents isContainer,
      fits collection isContainer resource.documentId resource.data = true :=
  fun _ hmem => hworld.fits _ _ (mem_archives.mp hmem)

theorem cacheOk_calcard (hcollection : collection.isCalcard = true) (hworld : World collection server)
    {containers : List DavResource} {lock changeId : Nat}
    (h : Started collection server containers lock changeId) :
    CacheOk collection server ((archives server.documents false).foldl
      (DavResources.addItem containers.length)
      (containers.foldl DavResources.addContainer (emptyCache lock changeId))) := by
  have hitems := fits_archives hworld false
  have hshape := shape_append hcollection h.kind hitems h.nodup (nodup_archives _ _)
  have hcontainersShape : Shape collection containers := by
    have hnil : Shape collection (containers ++ []) :=
      shape_append hcollection h.kind (fun _ hmem => (nomatch hmem)) h.nodup nodup_nil
    rwa [List.append_nil] at hnil
  have hsome : ∀ resource ∈ containers, resource.containerName.isSome := fun resource hmem =>
    (isContainer_of_fits hcollection _ (h.kind resource hmem)).2
  have hnone : ∀ resource ∈ archives server.documents false, resource.containerName = none :=
    fun resource hmem => isSome_eq_false_iff.mp
      (isContainer_of_fits hcollection _ (hitems resource hmem)).2 |> isNone_iff_eq_none.mp
  have hdescribes := describes_addItems hcollection (hshape.calcard hcollection) hsome hnone lock
    changeId
  rw [foldl_addContainer (fun _ => none) hsome, foldl_addItem hnone _ (by simp [emptyCache])]
    at hdescribes ⊢
  refine ⟨by simpa [emptyCache] using hshape, by simpa [emptyCache] using hdescribes, h.known, ?_⟩
  rintro ⟨isContainer, id⟩ hvalid
  have hresources : (emptyCache lock changeId).resources ++ containers ++
      archives server.documents false = containers ++ archives server.documents false := rfl
  rw [hresources]
  have hexclusive : ∀ data, fits collection true id data = true →
      (⟨id, data⟩ : DavResource) ∉ archives server.documents false := by
    intro data hfits hmem
    have htrue := (isContainer_of_fits hcollection ⟨id, data⟩ hfits).1
    rw [(isContainer_of_fits hcollection _ (hitems _ hmem)).1] at htrue
    cases htrue
  cases isContainer with
  | true =>
    have hsame : cached collection (containers ++ archives server.documents false) (true, id) =
        cached collection containers (true, id) := by
      refine Option.ext fun data => ?_
      rw [cached_eq_some hshape hvalid, cached_eq_some hcontainersShape hvalid]
      refine and_congr_left fun hfits => ?_
      simp [or_iff_left (hexclusive data hfits)]
    rw [hsame]
    exact h.agrees hcollection id
  | false =>
    refine Or.inr (Option.ext fun data => ?_)
    rw [cached_eq_some hshape hvalid]
    constructor
    · rintro ⟨hmem, hfits⟩
      refine mem_archives.mp ((mem_append.mp hmem).resolve_left fun hcontainer => ?_)
      have htrue := (isContainer_of_fits hcollection _ (h.kind _ hcontainer)).1
      rw [(isContainer_of_fits hcollection ⟨id, data⟩ hfits).1] at htrue
      cases htrue
    · intro hlookup
      exact ⟨mem_append_right _ (mem_archives.mpr hlookup), hworld.fits _ _ hlookup⟩

theorem shape_files (hworld : World .fileNode server) :
    Shape .fileNode (archives server.documents false) := by
  have hfits := fits_archives hworld false
  refine ⟨?_, fun resource hmem => Or.inl ⟨false, hfits resource hmem⟩, fun heq => nomatch heq⟩
  refine List.Nodup.of_map (f := Prod.snd) ?_
  rw [List.map_map]
  exact nodup_archives _ _

theorem cacheOk_files (hworld : World .fileNode server) {order : HashOrder} {paths : List DavPath}
    (hpaths : buildNestedHierarchy order (archives server.documents false) = some paths)
    {cache : DavResources} (hknown : Known server.history cache.highestChangeId) :
    CacheOk .fileNode server { cache with resources := archives server.documents false, paths } := by
  have hshape := shape_files hworld
  refine ⟨hshape, describes_buildNestedHierarchy hshape.files hpaths, hknown, ?_⟩
  rintro ⟨isContainer, id⟩ hvalid
  cases isContainer with
  | true => cases hvalid rfl
  | false =>
    refine Or.inr (Option.ext fun data => ?_)
    rw [cached_eq_some hshape hvalid]
    exact ⟨fun hmem => mem_archives.mp hmem.1,
      fun hlookup => ⟨mem_archives.mpr hlookup, hworld.fits _ _ hlookup⟩⟩

theorem shape_scheduling {items : List DavResource}
    (hitems : ∀ resource ∈ items, resource = resourceFromScheduling resource.documentId false)
    (hnodup : (items.map DavResource.documentId).Nodup) :
    Shape .calendarEventNotification (items ++ folders) := by
  refine ⟨?_, fun resource hmem => ?_, fun _ resource hmem => mem_append_right _ hmem⟩
  · rw [List.map_append]
    refine nodup_append.mpr ⟨?_, by decide, ?_⟩
    · refine List.Nodup.of_map (f := Prod.snd) ?_
      rw [List.map_map]
      exact hnodup
    · intro key hmem key' hmem' heq
      obtain ⟨r, hr, rfl⟩ := List.mem_map.mp hmem
      obtain ⟨r', hr', rfl⟩ := List.mem_map.mp hmem'
      have hcontainer : r.isContainer = r'.isContainer := (Prod.mk.inj heq).1
      rw [isContainer_of_mem_folders hr', hitems r hr] at hcontainer
      cases hcontainer
  · rcases mem_append.mp hmem with hitem | hfolder
    · refine Or.inl ⟨false, ?_⟩
      have hdata := congrArg DavResource.data (hitems resource hitem)
      exact decide_eq_true hdata
    · exact Or.inr ⟨rfl, hfolder⟩

theorem archives_scheduling (hworld : World .calendarEventNotification server) :
    ∀ resource ∈ archives server.documents false,
      resource = resourceFromScheduling resource.documentId false := by
  intro resource hmem
  have hdata : resource.data = (resourceFromScheduling resource.documentId false).data :=
    of_decide_eq_true (fits_archives hworld false resource hmem)
  obtain ⟨id, data⟩ := resource
  rw [show data = _ from hdata]
  rfl

theorem cacheOk_scheduling (hworld : World .calendarEventNotification server) (lock changeId : Nat)
    (hknown : Known server.history changeId) :
    CacheOk .calendarEventNotification server
      ((archives server.documents false ++ folders).foldl DavResources.addScheduling
        (emptyCache lock changeId)) := by
  have hshape := shape_scheduling (archives_scheduling hworld) (nodup_archives _ _)
  have hdescribes := describes_addScheduling (archives server.documents false ++ folders)
    (emptyCache lock changeId) rfl rfl
  rw [foldl_addScheduling] at hdescribes ⊢
  refine ⟨hshape, hdescribes, hknown, ?_⟩
  rintro ⟨isContainer, id⟩ hvalid
  cases isContainer with
  | true => cases hvalid rfl
  | false =>
    refine Or.inr (Option.ext fun data => ?_)
    refine (cached_eq_some hshape hvalid).trans ?_
    constructor
    · rintro ⟨hmem, hfits⟩
      refine mem_archives.mp ((mem_append.mp hmem).resolve_right fun hfolder => ?_)
      have hcontainer := isContainer_of_mem_folders hfolder
      have hdata : data = (resourceFromScheduling id false).data := of_decide_eq_true hfits
      rw [hdata] at hcontainer
      cases hcontainer
    · intro hlookup
      exact ⟨mem_append_left _ (mem_archives.mpr hlookup), hworld.fits _ _ hlookup⟩

end Bearmail.Cache
