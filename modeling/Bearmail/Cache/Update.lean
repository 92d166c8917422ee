import Bearmail.Cache.Coherent

/-!
# Updates of a cache

An update reads the documents that the log has named (`Reading`), puts them in place of those that were
cached, and is coherent when the other documents of the cache were (`cacheOk_rebuild`). The update of
scheduling messages, which reads no document, needs more: that no message that was inserted is cached
already (`cacheOk_rebuildScheduling`).
-/

namespace Bearmail.Cache

open Sync
open Option
open List hiding after

variable {config : Config} {collection : SyncCollection} {server : Server}

/-! ## What was read -/

structure Reading (collection : SyncCollection) (server : Server) (toChangeId : Nat)
    (changes todo : List Change) (updated : Updated) : Prop where
  rest : ∀ change ∈ todo, change ∈ changes
  sound : ∀ k value, updated.lookup k = some value → ∃ key, Valid collection key ∧
    cacheKey collection key = k ∧ Agrees server toChangeId key (value.map DavResource.data) ∧
    ∀ resource, value = some resource → resource.documentId = key.2 ∧
      fits collection key.1 key.2 resource.data = true
  complete : ∀ key : Bool × Nat, Valid collection key → kindsOf key.1 key.2 changes ≠ [] →
    kindsOf key.1 key.2 todo ≠ [] ∨ updated.lookup (cacheKey collection key) ≠ none

theorem Reading.start (toChangeId : Nat) (changes : List Change) :
    Reading collection server toChangeId changes changes ∅ := by
  refine ⟨fun _ hmem => hmem, fun k value hlookup => ?_, fun _ _ hne => Or.inl hne⟩
  cases hlookup

variable {changeId toChangeId : Nat} {key : Bool × Nat} {todo : List Change} {resource : DavResource}

theorem World.valid_of_said (hworld : World collection server) {changeId' : Nat}
    (h : saidBetween server.history changeId changeId' key ≠ []) : Valid collection key := by
  obtain ⟨commit, hcommit, hmentions⟩ := exists_mentions h
  exact hworld.valid commit (mem_upTo.mp (mem_after.mp hcommit).1).1 key hmentions

theorem World.updateProperty_notMem (hworld : World collection server) {changeId' : Nat} :
    ChangeKind.updateProperty ∉ saidBetween server.history changeId changeId' key := by
  have hcommits : ∀ commit ∈ after changeId (upTo changeId' server.history),
      commit ∈ server.history := fun commit hcommit => (mem_upTo.mp (mem_after.mp hcommit).1).1
  have hdistinct : ∀ commit ∈ after changeId (upTo changeId' server.history),
      commit.2.Distinct := fun commit hcommit => hworld.distinct commit (hcommits commit hcommit)
  rw [saidBetween, said, ← kindsOf_partFold hdistinct]
  exact Sync.updateProperty_notMem hdistinct fun commit hcommit =>
    hworld.noProperties commit (hcommits commit hcommit) key.1

theorem archive_of_valid {documents : Documents} {isContainer : Bool} {id : Nat}
    (h : Valid collection (isContainer, id)) : archive collection documents isContainer id =
      (documents.lookup (isContainer, id)).map fun data => ⟨id, data⟩ := by
  cases isContainer with
  | false => rfl
  | true => rw [archive, (hasNoChildren_of_isCalcard (h rfl)).1]; rfl

theorem Reading.insert {changes : List Change} {updated : Updated} {change : Change}
    (h : Reading collection server toChangeId changes (change :: todo) updated)
    (hvalid : Valid collection (change.isContainer, change.id)) {value : Option DavResource}
    (hagrees : Agrees server toChangeId (change.isContainer, change.id) (value.map DavResource.data))
    (hfits : ∀ resource, value = some resource → resource.documentId = change.id ∧
      fits collection change.isContainer change.id resource.data = true) :
    Reading collection server toChangeId changes todo
      (updated.insert (cacheKey collection (change.isContainer, change.id)) value) := by
  refine ⟨fun other hmem => h.rest other (mem_cons_of_mem _ hmem), ?_, ?_⟩
  · intro k found hlookup
    rcases Tables.of_insert hlookup with ⟨rfl, rfl⟩ | ⟨-, hold⟩
    · exact ⟨_, hvalid, rfl, hagrees, hfits⟩
    · exact h.sound k found hold
  · intro key hkey hne
    by_cases hsame : key = (change.isContainer, change.id)
    · subst hsame
      rw [AList.lookup_insert]
      exact Or.inr (some_ne_none _)
    · have hother : cacheKey collection key ≠
          cacheKey collection (change.isContainer, change.id) :=
        fun heq => hsame (cacheKey_injective hkey hvalid heq)
      rw [AList.lookup_insert_ne hother]
      refine (h.complete key hkey hne).imp_left fun htodo => ?_
      rwa [kindsOf_cons_of_ne] at htodo
      exact fun heq => hsame (Prod.ext heq.1.symm heq.2.symm)

theorem Reading.process (hworld : World config.collection server) {changes : Changes}
    (hscan : Scan server.history changeId changes) {change : Change} {updated : Updated}
    (h : Reading config.collection server changes.toChangeId changes.changes (change :: todo) updated) :
    Reading config.collection server changes.toChangeId changes.changes todo
      (process config server.documents updated change) := by
  obtain ⟨isContainer, kind, id⟩ := change
  have hsaid : kind ∈ saidBetween server.history changeId changes.toChangeId (isContainer, id) := by
    rw [← hscan.said]
    exact mem_kindsOf.mpr (h.rest _ mem_cons_self)
  have hvalid := hworld.valid_of_said (ne_nil_of_mem hsaid)
  have hread : Reading config.collection server changes.toChangeId changes.changes todo
      (updated.insert (cacheKey config.collection (isContainer, id))
        (archive config.collection server.documents isContainer id)) := by
    rw [archive_of_valid hvalid]
    refine h.insert hvalid ?_ fun resource hresource => ?_
    · rw [Option.map_map]
      exact Or.inr (congrFun Option.map_id _)
    · obtain ⟨data, hdata, rfl⟩ := map_eq_some_iff.mp hresource
      exact ⟨rfl, hworld.fits _ _ hdata⟩
  cases kind with
  | insert | update => exact hread
  | updateProperty => exact absurd hsaid hworld.updateProperty_notMem
  | delete =>
    exact h.insert hvalid (hworld.agrees_of_delete hsaid) fun resource hresource => nomatch hresource

/-! ## The resources that are kept -/

section Keep

variable {updated : Updated}

def replacement (collection : SyncCollection) (updated : Updated) (resource : DavResource) :
    Option DavResource :=
  match updated.lookup (keyOf collection resource) with
  | none => some resource
  | some value => value

def isMoved (collection : SyncCollection) (updated : Updated) (resource : DavResource) : Bool :=
  match updated.lookup (keyOf collection resource) with
  | none => false
  | some none => true
  | some (some new) => new.hasHierarchyChanges resource

theorem erase_of_lookup_eq_none {k : Bool × Nat} (h : updated.lookup k = none) :
    updated.erase k = updated :=
  AList.ext (kerase_of_notMem_keys (AList.lookup_eq_none.mp h))

theorem keepUpdated_eq (acc : List DavResource × Updated × Bool) (resource : DavResource) :
    keepUpdated collection acc resource = (acc.1 ++ (replacement collection acc.2.1 resource).toList,
        acc.2.1.erase (keyOf collection resource),
        acc.2.2 || isMoved collection acc.2.1 resource) := by
  obtain ⟨kept, updated, moved⟩ := acc
  unfold keepUpdated replacement isMoved
  have hkey : (collection.hasNoChildren || resource.isContainer, resource.documentId) =
      keyOf collection resource := rfl
  dsimp [keyOf]
  rw [hkey]
  cases hfound : updated.lookup (keyOf collection resource) with
  | none => simp [erase_of_lookup_eq_none hfound]
  | some value =>
    cases value with
    | none | some new => simp [keyOf]

theorem foldl_keepUpdated {resources : List DavResource}
    (hnodup : (resources.map (keyOf collection)).Nodup) (acc : List DavResource × Updated × Bool) :
    (resources.foldl (keepUpdated collection) acc).1 =
        acc.1 ++ resources.filterMap (replacement collection acc.2.1) ∧
      (∀ k, (resources.foldl (keepUpdated collection) acc).2.1.lookup k =
        if k ∈ resources.map (keyOf collection) then none else acc.2.1.lookup k) ∧
      (resources.foldl (keepUpdated collection) acc).2.2 =
        (acc.2.2 || resources.any (isMoved collection acc.2.1)) := by
  induction resources generalizing acc with
  | nil => simp
  | cons resource resources ih =>
    rw [map_cons, nodup_cons] at hnodup
    obtain ⟨hkept, hrest, hmoved⟩ := ih hnodup.2 (keepUpdated collection acc resource)
    rw [keepUpdated_eq] at hkept hrest hmoved
    -- the later resources have other keys
    have hother : ∀ later ∈ resources,
        (acc.2.1.erase (keyOf collection resource)).lookup (keyOf collection later) =
          acc.2.1.lookup (keyOf collection later) := by
      intro later hlater
      refine AList.lookup_erase_ne fun heq => hnodup.1 ?_
      rw [← heq]
      exact List.mem_map_of_mem hlater
    have hsame : ∀ later ∈ resources,
        replacement collection (acc.2.1.erase (keyOf collection resource)) later =
            replacement collection acc.2.1 later ∧
          isMoved collection (acc.2.1.erase (keyOf collection resource)) later =
            isMoved collection acc.2.1 later := by
      intro later hlater
      unfold replacement isMoved
      rw [hother later hlater]
      exact ⟨rfl, rfl⟩
    rw [foldl_cons, keepUpdated_eq]
    refine ⟨?_, fun k => ?_, ?_⟩
    · rw [hkept, filterMap_congr fun later hlater => (hsame later hlater).1, append_assoc]
      cases hreplaced : replacement collection acc.2.1 resource with
      | none => rw [filterMap_cons_none hreplaced]; rfl
      | some new => rw [filterMap_cons_some hreplaced]; rfl
    · rw [hrest k, map_cons]
      by_cases hk : k = keyOf collection resource
      · subst hk
        simp [hnodup.1]
      · simp only [mem_cons, hk, false_or]
        rw [AList.lookup_erase_ne hk]
    · have hany : resources.any (isMoved collection (acc.2.1.erase (keyOf collection resource))) =
          resources.any (isMoved collection acc.2.1) := by
        rw [Bool.eq_iff_iff, List.any_eq_true, List.any_eq_true]
        exact exists_congr fun later => and_congr_right fun hlater => by
          rw [(hsame later hlater).2]
      rw [hmoved, hany, any_cons, Bool.or_assoc]

def addedResources (collection : SyncCollection) (resources : List DavResource) (updated : Updated) :
    List DavResource :=
  (resources.foldl (keepUpdated collection) ([], updated, false)).2.1.entries.filterMap Sigma.snd

def newResources (collection : SyncCollection) (resources : List DavResource) (updated : Updated) :
    List DavResource :=
  resources.filterMap (replacement collection updated) ++ addedResources collection resources updated

section Keys

variable {resources : List DavResource} (hnodup : (resources.map (keyOf collection)).Nodup)
  (hkey : ∀ k new, updated.lookup k = some (some new) → keyOf collection new = k)

include hnodup hkey

theorem mem_addedResources {new : DavResource} : new ∈ addedResources collection resources updated ↔
      keyOf collection new ∉ resources.map (keyOf collection) ∧
        updated.lookup (keyOf collection new) = some (some new) := by
  obtain ⟨-, hrest, -⟩ := foldl_keepUpdated hnodup ([], updated, false)
  rw [addedResources, mem_filterMap]
  constructor
  · rintro ⟨⟨k, value⟩, hentry, hvalue⟩
    have hlookup := Tables.mem_entries.mp hentry
    subst hvalue
    rw [hrest k] at hlookup
    split at hlookup
    · cases hlookup
    · rename_i hnot
      have heq := hkey k new hlookup
      subst heq
      exact ⟨hnot, hlookup⟩
  · rintro ⟨hnot, hlookup⟩
    refine ⟨⟨keyOf collection new, some new⟩, Tables.mem_entries.mpr ?_, rfl⟩
    rw [hrest, if_neg hnot]
    exact hlookup

omit hnodup in
theorem keyOf_replacement {new : DavResource} (h : replacement collection updated resource = some new) :
    keyOf collection new = keyOf collection resource := by
  unfold replacement at h
  cases hfound : updated.lookup (keyOf collection resource) with
  | none => rw [hfound] at h; cases h; rfl
  | some value =>
    rw [hfound] at h
    have hvalue : value = some new := h
    exact hkey _ _ (hvalue ▸ hfound)

theorem mem_newResources {new : DavResource} : new ∈ newResources collection resources updated ↔
      (new ∈ resources ∧ updated.lookup (keyOf collection new) = none) ∨
        updated.lookup (keyOf collection new) = some (some new) := by
  rw [newResources, mem_append, mem_addedResources hnodup hkey, mem_filterMap]
  constructor
  · rintro (⟨resource, hmem, hreplaced⟩ | ⟨-, hlookup⟩)
    · have hsame := keyOf_replacement hkey hreplaced
      unfold replacement at hreplaced
      cases hfound : updated.lookup (keyOf collection resource) with
      | none =>
        rw [hfound] at hreplaced
        cases hreplaced
        exact Or.inl ⟨hmem, hfound⟩
      | some value =>
        rw [hfound] at hreplaced
        have hvalue : value = some new := hreplaced
        exact Or.inr (by rw [hsame, hfound, hvalue])
    · exact Or.inr hlookup
  · rintro (⟨hmem, hnone⟩ | hlookup)
    · exact Or.inl ⟨new, hmem, by rw [replacement, hnone]⟩
    · by_cases hmem : keyOf collection new ∈ resources.map (keyOf collection)
      · obtain ⟨resource, hresource, heq⟩ := List.mem_map.mp hmem
        exact Or.inl ⟨resource, hresource, by rw [replacement, heq, hlookup]⟩
      · exact Or.inr ⟨hmem, hlookup⟩

theorem nodup_newResources :
    ((newResources collection resources updated).map (keyOf collection)).Nodup := by
  have hkept : ∀ rest : List DavResource,
      ((rest.filterMap (replacement collection updated)).map (keyOf collection)).Sublist
        (rest.map (keyOf collection)) := by
    intro rest
    induction rest with
    | nil => exact List.Sublist.slnil
    | cons resource rest ih =>
      cases hreplaced : replacement collection updated resource with
      | none =>
        rw [filterMap_cons_none hreplaced]
        exact ih.cons _
      | some new =>
        rw [filterMap_cons_some hreplaced, map_cons, map_cons, keyOf_replacement hkey hreplaced]
        exact ih.cons_cons _
  rw [newResources, List.map_append]
  refine nodup_append.mpr ⟨hnodup.sublist (hkept resources), ?_, ?_⟩
  · -- each comes from an entry under its key
    have hentries := (resources.foldl (keepUpdated collection) ([], updated, false)).2.1.nodupKeys
    have hadded : addedResources collection resources updated =
        (resources.foldl (keepUpdated collection) ([], updated, false)).2.1.entries.filterMap
          Sigma.snd := rfl
    rw [List.Nodup, pairwise_map]
    refine List.Pairwise.filterMap Sigma.snd ?_ (List.Pairwise.and_mem.mp (pairwise_map.mp hentries))
    rintro ⟨k, value⟩ ⟨k', value'⟩ ⟨hmem, hmem', hne⟩ new hnew new' hnew' heq
    have hfind : ∀ (k : Bool × Nat) (value : Option DavResource) (new : DavResource),
        (⟨k, value⟩ : Sigma fun _ : Bool × Nat => Option DavResource) ∈
          (resources.foldl (keepUpdated collection) ([], updated, false)).2.1.entries →
        value = some new → keyOf collection new = k := by
      intro k value new hentry hvalue
      have hlookup := Tables.mem_entries.mp hentry
      rw [(foldl_keepUpdated hnodup ([], updated, false)).2.1 k] at hlookup
      split at hlookup
      · cases hlookup
      · exact hkey k new (hvalue ▸ hlookup)
    exact hne ((hfind k value new hmem hnew).symm.trans (heq.trans (hfind k' value' new' hmem' hnew')))
  · intro k hmem k' hmem' heq
    obtain ⟨new, hnew, rfl⟩ := List.mem_map.mp hmem'
    exact ((mem_addedResources hnodup hkey).mp hnew).1 (heq ▸ (hkept resources).subset hmem)

omit hnodup in
theorem sameNames_of_not_moved
    (h : ∀ resource ∈ resources, isMoved collection updated resource = false) :
    List.Forall₂ SameNames resources (resources.filterMap (replacement collection updated)) := by
  induction resources with
  | nil => exact .nil
  | cons resource resources ih =>
    have hrest := ih fun later hlater => h later (mem_cons_of_mem _ hlater)
    have hstays := h resource mem_cons_self
    unfold isMoved at hstays
    cases hfound : updated.lookup (keyOf collection resource) with
    | none =>
      rw [filterMap_cons_some (b := resource) (by rw [replacement, hfound])]
      exact .cons (SameNames.refl resource) hrest
    | some value =>
      rw [hfound] at hstays
      cases value with
      | none => cases hstays
      | some new =>
        rw [filterMap_cons_some (b := new) (by rw [replacement, hfound])]
        exact .cons ⟨(Prod.mk.inj (hkey _ _ hfound)).2, hstays⟩ hrest

end Keys

end Keep

/-! ## The new cache -/

section Rebuild

variable {cache new : DavResources} {changes : Changes} {updated : Updated}

theorem Reading.keyOf_eq {changes : List Change}
    (h : Reading collection server toChangeId changes todo updated) {k : Bool × Nat}
    {new : DavResource} (hlookup : updated.lookup k = some (some new)) :
    keyOf collection new = k := by
  obtain ⟨key, -, rfl, -, hnew⟩ := h.sound k _ hlookup
  obtain ⟨hid, hfits⟩ := hnew new rfl
  rw [← hid] at hfits
  rw [keyOf_of_fits _ hfits, hid]

theorem Reading.shape {changes : List Change}
    (h : Reading collection server toChangeId changes todo updated)
    (hcollection : collection ≠ .calendarEventNotification) {resources : List DavResource}
    (hshape : Shape collection resources) :
    Shape collection (newResources collection resources updated) := by
  refine ⟨nodup_newResources hshape.nodup fun k new => h.keyOf_eq, fun resource hmem => ?_,
    fun heq => absurd heq hcollection⟩
  rcases (mem_newResources hshape.nodup fun k new => h.keyOf_eq).mp hmem with ⟨hold, -⟩ | hlookup
  · exact hshape.kind resource hold
  · obtain ⟨key, -, -, -, hnew⟩ := h.sound _ _ hlookup
    obtain ⟨hid, hfits⟩ := hnew resource rfl
    exact Or.inl ⟨key.1, hid ▸ hfits⟩

theorem Reading.cached {changes : List Change}
    (h : Reading collection server toChangeId changes todo updated)
    (hcollection : collection ≠ .calendarEventNotification) {resources : List DavResource}
    (hshape : Shape collection resources) (hvalid : Valid collection key) :
    cached collection (newResources collection resources updated) key =
      match updated.lookup (cacheKey collection key) with
      | none => Cache.cached collection resources key
      | some value => value.map DavResource.data := by
  refine Option.ext fun data => ?_
  rw [cached_eq_some (h.shape hcollection hshape) hvalid,
    mem_newResources hshape.nodup fun k new => h.keyOf_eq]
  cases hfound : updated.lookup (cacheKey collection key) with
  | none =>
    rw [cached_eq_some hshape hvalid]
    refine and_congr_left fun hfits => ?_
    rw [keyOf_of_fits ⟨key.2, data⟩ hfits, hfound]
    simp
  | some value =>
    obtain ⟨key', hvalid', heq, -, hvalue⟩ := h.sound _ _ hfound
    cases cacheKey_injective hvalid' hvalid heq
    constructor
    · rintro ⟨hmem, hfits⟩
      rw [keyOf_of_fits ⟨key.2, data⟩ hfits, hfound] at hmem
      rcases hmem with ⟨-, hnone⟩ | hsome
      · cases hnone
      · rw [Option.some.inj hsome]
        rfl
    · intro hdata
      obtain ⟨resource, rfl, rfl⟩ := map_eq_some_iff.mp hdata
      obtain ⟨hid, hfits⟩ := hvalue resource rfl
      have hresource : (⟨key.2, resource.data⟩ : DavResource) = resource := by rw [← hid]
      rw [hresource]
      refine ⟨Or.inr ?_, hfits⟩
      rw [h.keyOf_eq hfound, hfound]

theorem rebuild_eq (hnodup : (cache.resources.map (keyOf config.collection)).Nodup) :
    rebuild config cache changes updated = (if cache.resources.any (isMoved config.collection updated) ||
          !(addedResources config.collection cache.resources updated).isEmpty then
        if config.collection = .fileNode then
          buildNestedHierarchy config.order (newResources config.collection cache.resources updated)
        else some (buildSimpleHierarchy (newResources config.collection cache.resources updated))
      else some cache.paths).map fun paths =>
        { paths
          resources := newResources config.collection cache.resources updated
          itemChangeId := changes.itemChangeId.getD cache.itemChangeId
          containerChangeId := changes.containerChangeId.getD cache.containerChangeId
          highestChangeId := changes.toChangeId
          updateLock := cache.updateLock } := by
  obtain ⟨hkept, -, hmoved⟩ := foldl_keepUpdated hnodup ([], updated, false)
  rw [rebuild]
  rw [hkept, hmoved]
  rfl

theorem Reading.describes (hcollection : config.collection ≠ .calendarEventNotification)
    (hshape : Shape config.collection cache.resources)
    (hdescribes : Describes config.collection cache.resources cache.paths) {changes : List Change}
    (h : Reading config.collection server toChangeId changes todo updated) {paths : List DavPath}
    (hpaths : (if cache.resources.any (isMoved config.collection updated) ||
        !(addedResources config.collection cache.resources updated).isEmpty then
      if config.collection = .fileNode then
        buildNestedHierarchy config.order (newResources config.collection cache.resources updated)
      else some (buildSimpleHierarchy (newResources config.collection cache.resources updated))
    else some cache.paths) = some paths) :
    Describes config.collection (newResources config.collection cache.resources updated) paths := by
  have hshapeNew := h.shape hcollection hshape
  split at hpaths
  · cases hkind : config.collection with
    | fileNode =>
      rw [hkind] at hpaths hshapeNew
      exact describes_buildNestedHierarchy hshapeNew.files hpaths
    | calendarEventNotification => exact absurd hkind hcollection
    | calendar | addressBook =>
      rw [if_neg (by rw [hkind]; decide), Option.some.injEq] at hpaths
      rw [hkind] at hpaths hshapeNew
      exact hpaths ▸ describes_buildSimpleHierarchy rfl (hshapeNew.calcard rfl)
  · rename_i hstays
    rw [Bool.or_eq_true, not_or, Bool.not_eq_true, Bool.not_eq_true, Bool.not_eq_false',
      List.isEmpty_iff] at hstays
    obtain ⟨hmoved, hadded⟩ := hstays
    cases hpaths
    rw [newResources, hadded, List.append_nil]
    refine hdescribes.of_forall₂ hcollection (sameNames_of_not_moved (fun k new => h.keyOf_eq) ?_)
    intro resource hmem
    exact Bool.eq_false_iff.mpr (List.any_eq_false.mp hmoved resource hmem)

/-- An update that has read all that the log named is coherent, when the cache was for the rest. -/
theorem cacheOk_rebuild (hcollection : config.collection ≠ .calendarEventNotification)
    (hshape : Shape config.collection cache.resources)
    (hdescribes : Describes config.collection cache.resources cache.paths)
    (hknown : Known server.history changes.toChangeId)
    (hreading : Reading config.collection server changes.toChangeId changes.changes [] updated)
    (hunnamed : ∀ key, Valid config.collection key → kindsOf key.1 key.2 changes.changes = [] →
      Agrees server changes.toChangeId key (cached config.collection cache.resources key))
    (h : rebuild config cache changes updated = some new) :
    CacheOk config.collection server new ∧ new.highestChangeId = changes.toChangeId := by
  rw [rebuild_eq hshape.nodup] at h
  obtain ⟨paths, hpaths, rfl⟩ := map_eq_some_iff.mp h
  refine ⟨⟨hreading.shape hcollection hshape, hreading.describes hcollection hshape hdescribes hpaths,
    hknown, fun key hvalid => ?_⟩, rfl⟩
  rw [hreading.cached hcollection hshape hvalid]
  cases hfound : updated.lookup (cacheKey config.collection key) with
  | none =>
    refine hunnamed key hvalid ?_
    by_contra hne
    rcases hreading.complete key hvalid hne with htodo | hread
    · exact htodo rfl
    · exact hread hfound
  | some value =>
    obtain ⟨key', hvalid', heq, hagrees, -⟩ := hreading.sound _ _ hfound
    cases cacheKey_injective hvalid' hvalid heq
    exact hagrees

end Rebuild

/-! ## Scheduling messages -/

theorem saidBy_scheduling {history : History}
    (hupdates : ∀ commit ∈ history, commit.2.updates key.1 = [])
    (hproperties : ∀ commit ∈ history, commit.2.propertyChanges key.1 = []) :
    ∀ kind ∈ saidBy history key, kind = .insert ∨ kind = .delete := by
  induction history using List.reverseRecOn with
  | nil => exact fun kind hkind => nomatch hkind
  | append_singleton history commit ih =>
    have ih := ih (fun c hc => hupdates c (mem_append_left _ hc))
      fun c hc => hproperties c (mem_append_left _ hc)
    have hlast := mem_append_right history (mem_singleton_self commit)
    rw [saidBy_append_singleton, LogEntry.fold, hupdates commit hlast, hproperties commit hlast]
    have hinserts : ∀ kind ∈ applyIf (commit.2.inserts key.1) key.2 insertKinds (saidBy history key),
        kind = .insert ∨ kind = .delete := by
      intro kind hkind
      unfold applyIf insertKinds at hkind
      split at hkind
      · exact (mem_append.mp hkind).elim (ih kind) fun hin =>
          Or.inl (mem_singleton.mp hin)
      · exact ih kind hkind
    intro kind hkind
    unfold applyIf deleteKinds at hkind
    simp only [not_mem_nil, if_false] at hkind
    split at hkind
    · split at hkind
      · exact hinserts kind (mem_of_mem_erase hkind)
      · exact (mem_append.mp hkind).elim (fun hin => hinserts kind (mem_of_mem_erase hin))
          fun hin => Or.inr (mem_singleton.mp hin)
      · exact (mem_append.mp hkind).elim (hinserts kind) fun hin =>
          Or.inr (mem_singleton.mp hin)
    · exact hinserts kind hkind

section Scheduling

variable {cache : DavResources} {changes : Changes}

theorem count_filterMap_inserts (changes : List Change) (id : Nat) :
    (changes.filterMap fun change =>
        if change.isContainer = false ∧ change.kind = .insert then some change.id else none).count id =
      (kindsOf false id changes).count .insert := by
  induction changes with
  | nil => rfl
  | cons change changes ih =>
    obtain ⟨isContainer, kind, changeId⟩ := change
    by_cases hkey : isContainer = false ∧ changeId = id
    · obtain ⟨rfl, rfl⟩ := hkey
      rw [kindsOf_cons_self (c := ⟨false, kind, changeId⟩) ⟨rfl, rfl⟩]
      cases kind <;> simp [ih]
    · rw [kindsOf_cons_of_ne hkey, ← ih]
      by_cases hinsert : isContainer = false ∧ kind = .insert
      · rw [filterMap_cons_some (b := changeId) (by simp [hinsert])]
        exact count_cons_of_ne fun heq => hkey ⟨hinsert.1, heq⟩
      · rw [filterMap_cons_none (by simpa using hinsert)]

def insertedResources (changes : List Change) : List DavResource :=
  (changes.filterMap fun change =>
    if change.isContainer = false ∧ change.kind = .insert then some change.id else none).map
      fun id => resourceFromScheduling id false

def keptResources (resources : List DavResource) (changes : List Change) : List DavResource :=
  resources.filter fun resource =>
    decide (ChangeKind.delete ∉ kindsOf false resource.documentId changes)

theorem rebuildScheduling_eq (cache : DavResources) (changes : Changes) :
    rebuildScheduling cache changes =
      (insertedResources changes.changes ++ keptResources cache.resources changes.changes).foldl
        DavResources.addScheduling
        { cache with
          paths := []
          resources := []
          itemChangeId := changes.itemChangeId.getD cache.itemChangeId
          containerChangeId := changes.containerChangeId.getD cache.containerChangeId
          highestChangeId := changes.toChangeId } := by
  have hinserted : insertedResources changes.changes = changes.changes.filterMap fun change =>
      if change.isContainer = false ∧ change.kind = .insert
      then some (resourceFromScheduling change.id false) else none := by
    rw [insertedResources, map_filterMap]
    refine filterMap_congr fun change _ => ?_
    split <;> rfl
  have hkept : keptResources cache.resources changes.changes =
      cache.resources.filter fun resource => decide (resource.documentId ∉
        changes.changes.filterMap fun change =>
          if change.isContainer = false ∧ change.kind = .delete then some change.id else none) := by
    refine filter_congr fun resource _ => decide_eq_decide.mpr (not_congr ?_)
    rw [mem_kindsOf, mem_filterMap]
    constructor
    · exact fun hmem => ⟨_, hmem, by simp⟩
    · rintro ⟨⟨isContainer, kind, id⟩, hmem, hid⟩
      split at hid
      · rename_i hcond
        obtain ⟨rfl, rfl⟩ := hcond
        cases hid
        exact hmem
      · cases hid
  rw [rebuildScheduling, hinserted, hkept]

theorem mem_insertedResources {changes : List Change} : resource ∈ insertedResources changes ↔
      resource = resourceFromScheduling resource.documentId false ∧
        ChangeKind.insert ∈ kindsOf false resource.documentId changes := by
  rw [insertedResources, List.mem_map]
  constructor
  · rintro ⟨id, hid, rfl⟩
    refine ⟨rfl, ?_⟩
    rw [← count_pos_iff, ← count_filterMap_inserts]
    exact count_pos_iff.mpr hid
  · rintro ⟨heq, hinsert⟩
    refine ⟨resource.documentId, ?_, heq.symm⟩
    rw [← count_pos_iff, count_filterMap_inserts]
    exact count_pos_iff.mpr hinsert

theorem mem_keptResources {resources : List DavResource} {changes : List Change} :
    resource ∈ keptResources resources changes ↔
      resource ∈ resources ∧ ChangeKind.delete ∉ kindsOf false resource.documentId changes := by
  simp [keptResources]

/-- What a list of changes does not do to the cache: insert what is cached, or delete a folder. -/
structure Fitting (resources : List DavResource) (changes : List Change) : Prop where
  inserts : ∀ id, ChangeKind.insert ∈ kindsOf false id changes →
    cached .calendarEventNotification resources (false, id) = none
  deletes : ∀ id, ChangeKind.delete ∈ kindsOf false id changes →
    id ≠ scheduleInboxId ∧ id ≠ scheduleOutboxId

theorem shape_rebuildScheduling (hshape : Shape .calendarEventNotification cache.resources)
    {changes : List Change} (hfitting : Fitting cache.resources changes)
    (hinserts : ∀ id, ChangeKind.insert ∈ kindsOf false id changes →
      kindsOf false id changes = [.insert]) :
    Shape .calendarEventNotification
      (insertedResources changes ++ keptResources cache.resources changes) := by
  refine ⟨?_, fun resource hmem => ?_, fun _ resource hmem => ?_⟩
  · rw [List.map_append]
    refine nodup_append.mpr ⟨?_, ?_, ?_⟩
    · rw [insertedResources, List.map_map]
      refine List.Nodup.map (fun id id' heq => (Prod.mk.inj heq).2) ?_
      rw [nodup_iff_count_le_one]
      intro id
      rw [count_filterMap_inserts]
      by_cases hinsert : ChangeKind.insert ∈ kindsOf false id changes
      · rw [hinserts id hinsert]
        exact Nat.le_refl 1
      · rw [count_eq_zero_of_not_mem hinsert]
        exact Nat.zero_le 1
    · exact hshape.nodup.sublist (List.Sublist.map _ filter_sublist)
    · intro key hmem key' hmem' heq
      obtain ⟨new, hnew, rfl⟩ := List.mem_map.mp hmem
      obtain ⟨old, hold, rfl⟩ := List.mem_map.mp hmem'
      obtain ⟨hscheduling, hinsert⟩ := mem_insertedResources.mp hnew
      have hnone := hfitting.inserts _ hinsert
      rw [cached, map_eq_none_iff, List.find?_eq_none] at hnone
      refine hnone old (mem_keptResources.mp hold).1 (decide_eq_true ?_)
      rw [← heq, hscheduling]
      rfl
  · rcases mem_append.mp hmem with hnew | hold
    · refine Or.inl ⟨false, decide_eq_true ?_⟩
      exact congrArg DavResource.data (mem_insertedResources.mp hnew).1
    · exact hshape.kind resource (mem_keptResources.mp hold).1
  · refine mem_append_right _ (mem_keptResources.mpr ⟨hshape.folders rfl resource hmem, ?_⟩)
    intro hdelete
    have hother := hfitting.deletes _ hdelete
    rcases mem_cons.mp hmem with rfl | hrest
    · exact hother.1 rfl
    · rw [mem_singleton.mp hrest] at hother
      exact hother.2 rfl

theorem cached_rebuildScheduling (hshape : Shape .calendarEventNotification cache.resources)
    {changes : List Change} (hfitting : Fitting cache.resources changes)
    (hinserts : ∀ id, ChangeKind.insert ∈ kindsOf false id changes →
      kindsOf false id changes = [.insert]) (id : Nat) :
    cached .calendarEventNotification
        (insertedResources changes ++ keptResources cache.resources changes) (false, id) =
      if .insert ∈ kindsOf false id changes then some (resourceFromScheduling id false).data
      else if .delete ∈ kindsOf false id changes then none
      else cached .calendarEventNotification cache.resources (false, id) := by
  have hvalid : Valid .calendarEventNotification (false, id) := fun h => nomatch h
  refine Option.ext fun data => ?_
  rw [cached_eq_some (shape_rebuildScheduling hshape hfitting hinserts) hvalid, mem_append,
    mem_insertedResources, mem_keptResources]
  by_cases hinsert : ChangeKind.insert ∈ kindsOf false id changes
  · rw [if_pos hinsert, Option.some.injEq]
    constructor
    · rintro ⟨-, hfits⟩
      exact (of_decide_eq_true hfits).symm
    · rintro rfl
      exact ⟨Or.inl ⟨rfl, hinsert⟩, decide_eq_true rfl⟩
  · rw [if_neg hinsert]
    by_cases hdelete : ChangeKind.delete ∈ kindsOf false id changes
    · rw [if_pos hdelete]
      refine ⟨?_, fun h => nomatch h⟩
      rintro ⟨⟨-, hin⟩ | ⟨-, hnot⟩, -⟩
      · exact absurd hin hinsert
      · exact absurd hdelete hnot
    · rw [if_neg hdelete, cached_eq_some hshape hvalid]
      refine and_congr_left fun _ => ?_
      exact ⟨fun h => (h.resolve_left fun hin => hinsert hin.2).1, fun h => Or.inr ⟨h, hdelete⟩⟩

theorem cacheOk_rebuildScheduling (hworld : World .calendarEventNotification server)
    (hshape : Shape .calendarEventNotification cache.resources)
    (hscan : Scan server.history changeId changes)
    (hfitting : Fitting cache.resources changes.changes)
    (hunnamed : ∀ key, Valid .calendarEventNotification key →
      kindsOf key.1 key.2 changes.changes = [] → Agrees server changes.toChangeId key
        (cached .calendarEventNotification cache.resources key)) :
    CacheOk .calendarEventNotification server (rebuildScheduling cache changes) ∧
      (rebuildScheduling cache changes).highestChangeId = changes.toChangeId := by
  have hinserts : ∀ id, ChangeKind.insert ∈ kindsOf false id changes.changes →
      kindsOf false id changes.changes = [.insert] := by
    intro id hinsert
    rw [hscan.said (false, id)] at hinsert ⊢
    exact hworld.said_of_insert hinsert
  have hdescribes := describes_addScheduling
    (insertedResources changes.changes ++ keptResources cache.resources changes.changes)
    { cache with
      paths := []
      resources := []
      highestChangeId := changes.toChangeId } rfl rfl
  rw [rebuildScheduling_eq, foldl_addScheduling] at *
  refine ⟨⟨shape_rebuildScheduling hshape hfitting hinserts, hdescribes, hscan.known, ?_⟩, rfl⟩
  rintro ⟨isContainer, id⟩ hvalid
  cases isContainer with
  | true => cases hvalid rfl
  | false =>
    change Agrees server changes.toChangeId (false, id) (cached .calendarEventNotification
      (insertedResources changes.changes ++ keptResources cache.resources changes.changes) (false, id))
    rw [cached_rebuildScheduling hshape hfitting hinserts]
    have hsaid := hscan.said (false, id)
    split
    · rename_i hinsert
      rw [hsaid] at hinsert
      rcases hworld.lookup_of_insert hinsert with hlater | hthere
      · exact Or.inl hlater
      · obtain ⟨data, hdata⟩ := isSome_iff_exists.mp hthere
        have hfits : data = (resourceFromScheduling id false).data :=
          of_decide_eq_true (hworld.fits (false, id) data hdata)
        exact Or.inr (by rw [hdata, hfits])
    · rename_i hinsert
      split
      · rename_i hdelete
        rw [hsaid] at hdelete
        exact hworld.agrees_of_delete hdelete
      · rename_i hdelete
        refine hunnamed (false, id) hvalid (eq_nil_iff_forall_not_mem.mpr fun kind hkind => ?_)
        have hkinds : kind = .insert ∨ kind = .delete := by
          rw [hsaid] at hkind
          exact saidBy_scheduling (fun commit hcommit => hworld.noUpdates rfl commit
            (mem_upTo.mp (mem_after.mp hcommit).1).1 false) (fun commit hcommit =>
            hworld.noProperties commit (mem_upTo.mp (mem_after.mp hcommit).1).1 false) kind hkind
        rcases hkinds with rfl | rfl
        · exact hinsert hkind
        · exact hdelete hkind

end Scheduling

end Bearmail.Cache
