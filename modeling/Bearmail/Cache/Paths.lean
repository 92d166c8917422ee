import Bearmail.Cache.Fetch
import Bearmail.Lib.Tables

/-!
# The paths of cached resources

What the paths of a cache are, whichever way they were built (`Describes`): those of the resources, each
with a resource whose path it is. When no two resources have a path in common, which resource a path
leads to depends on the resources only, and not on their order (`byPath_iff`).
-/

namespace Bearmail.Cache

open List

/-! ## Sets of paths -/

variable {s name : String} {added : List DavPath} {id : Nat} {parentId : Option Nat}

section Sets

variable {paths : List DavPath} {path : DavPath}

theorem mem_insertPath {other : DavPath} (h : other ∈ insertPath paths path) :
    other ∈ paths ∨ other = path := by
  unfold insertPath at h
  split at h
  · exact Or.inl h
  · exact (mem_append.mp h).imp_right mem_singleton.mp

theorem exists_insertPath :
    (∃ other ∈ insertPath paths path, other.path = s) ↔ (∃ other ∈ paths, other.path = s) ∨
      path.path = s := by
  unfold insertPath
  split
  · rename_i hany
    refine ⟨Or.inl, fun h => h.elim (fun h => h) ?_⟩
    rintro rfl
    obtain ⟨other, hmem, heq⟩ := any_eq_true.mp hany
    exact ⟨other, hmem, of_decide_eq_true heq⟩
  · constructor
    · rintro ⟨other, hmem, heq⟩
      rcases mem_append.mp hmem with hold | hnew
      · exact Or.inl ⟨other, hold, heq⟩
      · rw [mem_singleton.mp hnew] at heq
        exact Or.inr heq
    · rintro (⟨other, hmem, heq⟩ | heq)
      · exact ⟨other, mem_append_left _ hmem, heq⟩
      · exact ⟨path, mem_append_right _ (mem_singleton_self _), heq⟩

theorem mem_foldl_insertPath {other : DavPath} (h : other ∈ added.foldl insertPath paths) :
    other ∈ paths ∨ other ∈ added := by
  induction added generalizing paths with
  | nil => exact Or.inl h
  | cons first added ih =>
    rcases ih h with hmem | hmem
    · exact (mem_insertPath hmem).imp_right fun heq : other = first => heq ▸ mem_cons_self
    · exact Or.inr (mem_cons_of_mem _ hmem)

theorem exists_foldl_insertPath :
    (∃ other ∈ added.foldl insertPath paths, other.path = s) ↔ (∃ other ∈ paths, other.path = s) ∨
      ∃ other ∈ added, other.path = s := by
  induction added generalizing paths with
  | nil => simp
  | cons first added ih =>
    rw [foldl_cons, ih, exists_insertPath, or_assoc]
    refine or_congr_right ?_
    constructor
    · rintro (heq | ⟨other, hmem, heq⟩)
      · exact ⟨first, mem_cons_self, heq⟩
      · exact ⟨other, mem_cons_of_mem _ hmem, heq⟩
    · rintro ⟨other, hmem, heq⟩
      rcases mem_cons.mp hmem with rfl | hlater
      · exact Or.inl heq
      · exact Or.inr ⟨other, hlater, heq⟩

end Sets

/-! ## The path of a resource -/

def IsFile (resources : List DavResource) (id : Nat) (name : String) (parentId : Option Nat) : Prop :=
  ∃ resource ∈ resources, resource.documentId = id ∧
    ∃ size acls, resource.data = .file name size parentId acls

/-- The path of a file below those of its folders. -/
inductive NestedPath (resources : List DavResource) : Nat → String → Prop
  | root {id : Nat} {name : String} (h : IsFile resources id name none) : NestedPath resources id name
  | child {id parentId : Nat} {name parent : String} (h : IsFile resources id name (some parentId))
    (hparent : NestedPath resources parentId parent) : NestedPath resources id (parent ++ "/" ++ name)

/-- The paths of a resource, next to others. A file in a circle of folders has its own name. -/
def IsPath (collection : SyncCollection) (resources : List DavResource) (resource : DavResource)
    (s : String) : Prop :=
  match collection with
  | .calendar | .addressBook => resource.containerName = some s ∨
    ∃ name ∈ resource.childNames, ∃ parent ∈ resources, parent.documentId = name.parentId ∧
      ∃ parentName, parent.containerName = some parentName ∧ s = parentName ++ "/" ++ name.name
  | .fileNode => NestedPath resources resource.documentId s ∨
    ((∀ t, ¬ NestedPath resources resource.documentId t) ∧ resource.containerName = some s)
  | .calendarEventNotification =>
    s = (pathFromScheduling resource.documentId 0 resource.isContainer).path

def NoOrphans (resources : List DavResource) : Prop :=
  ∀ id name parentId, IsFile resources id name (some parentId) →
    ∃ name' parentId', IsFile resources parentId name' parentId'

structure Describes (collection : SyncCollection) (resources : List DavResource)
    (paths : List DavPath) : Prop where
  named : ∀ path ∈ paths, ∃ resource, resources[path.resourceIdx]? = some resource ∧
    IsPath collection resources resource path.path
  found : ∀ resource ∈ resources, ∀ s, IsPath collection resources resource s →
    ∃ path ∈ paths, path.path = s
  closed : collection = .fileNode → NoOrphans resources

def UniquePaths (collection : SyncCollection) (resources : List DavResource) : Prop :=
  ∀ resource ∈ resources, ∀ resource' ∈ resources, ∀ s, IsPath collection resources resource s →
    IsPath collection resources resource' s → resource = resource'

theorem byPath_iff {collection : SyncCollection} {cache : DavResources}
    (h : Describes collection cache.resources cache.paths)
    (hunique : UniquePaths collection cache.resources) {resource : DavResource} :
    cache.byPath s = some resource ↔
      resource ∈ cache.resources ∧ IsPath collection cache.resources resource s := by
  unfold DavResources.byPath
  constructor
  · intro hfound
    obtain ⟨path, hpath, hresource⟩ := Option.bind_eq_some_iff.mp hfound
    obtain ⟨resource', hresource', his⟩ := h.named path (List.mem_of_find?_eq_some hpath)
    cases hresource.symm.trans hresource'
    have heq : path.path = s := by simpa using List.find?_some hpath
    exact ⟨mem_of_getElem? hresource, heq ▸ his⟩
  · rintro ⟨hmem, his⟩
    obtain ⟨path, hpath, heq⟩ := h.found resource hmem s his
    have hsome : (cache.paths.find? fun path => decide (path.path = s)).isSome :=
      List.find?_isSome.mpr ⟨path, hpath, by simpa using heq⟩
    obtain ⟨path', hpath'⟩ := Option.isSome_iff_exists.mp hsome
    obtain ⟨resource', hresource', his'⟩ := h.named path' (List.mem_of_find?_eq_some hpath')
    have heq' : path'.path = s := by simpa using List.find?_some hpath'
    rw [heq'] at his'
    rw [hpath', Option.bind_some, hresource', hunique resource' (mem_of_getElem? hresource')
      resource hmem s his' his]

theorem describes_of_foldl {collection : SyncCollection} {resources : List DavResource}
    (hnamed : ∀ path ∈ added, ∃ resource, resources[path.resourceIdx]? = some resource ∧
      IsPath collection resources resource path.path)
    (hfound : ∀ resource ∈ resources, ∀ s, IsPath collection resources resource s →
      ∃ path ∈ added, path.path = s) (hclosed : collection = .fileNode → NoOrphans resources) :
    Describes collection resources (added.foldl insertPath []) := by
  refine ⟨fun path hpath => ?_, fun resource hresource s his => ?_, hclosed⟩
  · rcases mem_foldl_insertPath hpath with hnil | hmem
    · cases hnil
    · exact hnamed path hmem
  · exact exists_foldl_insertPath.mpr (Or.inr (hfound resource hresource s his))

/-! ## Other resources with the same names -/

section Same

variable {collection : SyncCollection} {resources resources' : List DavResource}

theorem NestedPath.of_isFile (hfile : ∀ {id name parentId}, IsFile resources id name parentId →
    IsFile resources' id name parentId) (h : NestedPath resources id s) :
    NestedPath resources' id s := by
  induction h with
  | root h => exact .root (hfile h)
  | child h _ ih => exact .child (hfile h) ih

theorem IsPath.of_mem (hmem : ∀ resource, resource ∈ resources ↔ resource ∈ resources')
    {resource : DavResource} (h : IsPath collection resources resource s) :
    IsPath collection resources' resource s := by
  have hfile : ∀ {id name parentId}, IsFile resources id name parentId ↔
      IsFile resources' id name parentId := by
    intro id name parentId
    constructor
    · rintro ⟨resource, hresource, hrest⟩
      exact ⟨resource, (hmem resource).mp hresource, hrest⟩
    · rintro ⟨resource, hresource, hrest⟩
      exact ⟨resource, (hmem resource).mpr hresource, hrest⟩
  have hcalcard : (resource.containerName = some s ∨
      ∃ name ∈ resource.childNames, ∃ parent ∈ resources, parent.documentId = name.parentId ∧
        ∃ parentName, parent.containerName = some parentName ∧ s = parentName ++ "/" ++ name.name) →
      (resource.containerName = some s ∨
      ∃ name ∈ resource.childNames, ∃ parent ∈ resources', parent.documentId = name.parentId ∧
        ∃ parentName, parent.containerName = some parentName ∧ s = parentName ++ "/" ++ name.name) := by
    refine Or.imp_right ?_
    rintro ⟨name, hname, parent, hparent, hrest⟩
    exact ⟨name, hname, parent, (hmem parent).mp hparent, hrest⟩
  cases collection with
  | calendar | addressBook => exact hcalcard h
  | fileNode =>
    refine Or.imp (NestedPath.of_isFile hfile.mp) (And.imp_left fun hnone t ht => ?_) h
    exact hnone t (NestedPath.of_isFile hfile.mpr ht)
  | calendarEventNotification => exact h

structure SameNames (resource resource' : DavResource) : Prop where
  documentId : resource'.documentId = resource.documentId
  hierarchy : resource'.hasHierarchyChanges resource = false

variable {resource resource' : DavResource}

theorem SameNames.symm (h : SameNames resource resource') : SameNames resource' resource := by
  refine ⟨h.documentId.symm, ?_⟩
  have hhierarchy := h.hierarchy
  unfold DavResource.hasHierarchyChanges at hhierarchy ⊢
  cases hdata : resource.data <;> cases hdata' : resource'.data <;> simp_all

theorem SameNames.refl (resource : DavResource) : SameNames resource resource := by
  refine ⟨rfl, ?_⟩
  unfold DavResource.hasHierarchyChanges
  cases resource.data <;> simp

theorem SameNames.names (h : SameNames resource resource') :
    resource'.containerName = resource.containerName ∧ resource'.childNames = resource.childNames := by
  have hhierarchy := h.hierarchy
  have hid := h.documentId
  unfold DavResource.hasHierarchyChanges at hhierarchy
  unfold DavResource.containerName DavResource.childNames
  cases hdata : resource.data <;> cases hdata' : resource'.data <;> simp_all

theorem SameNames.file (h : SameNames resource resource') {size : Option Nat}
    {acls : List Folder.AclGrant} (hdata : resource.data = .file name size parentId acls) :
    ∃ size' acls', resource'.data = .file name size' parentId acls' := by
  have hhierarchy := h.hierarchy
  unfold DavResource.hasHierarchyChanges at hhierarchy
  rw [hdata] at hhierarchy
  cases hdata' : resource'.data with
  | file name' size' parentId' acls' =>
    rw [hdata'] at hhierarchy
    simp only [Bool.or_eq_false_iff, decide_eq_false_iff_not, not_not] at hhierarchy
    exact ⟨size', acls', by rw [hhierarchy.1, hhierarchy.2]⟩
  | _ => rw [hdata'] at hhierarchy; cases hhierarchy

/-- Every resource is among the others under its names. -/
def Covers (resources resources' : List DavResource) : Prop :=
  ∀ resource ∈ resources, ∃ resource' ∈ resources', SameNames resource resource'

theorem Covers.isFile (h : Covers resources resources') (hfile : IsFile resources id name parentId) :
    IsFile resources' id name parentId := by
  obtain ⟨resource, hmem, rfl, size, acls, hdata⟩ := hfile
  obtain ⟨resource', hmem', hsame⟩ := h resource hmem
  exact ⟨resource', hmem', hsame.documentId, hsame.file hdata⟩

theorem IsPath.of_sameNames (hcollection : collection ≠ .calendarEventNotification)
    (h : Covers resources resources') (h' : Covers resources' resources)
    (hsame : SameNames resource resource') (his : IsPath collection resources resource s) :
    IsPath collection resources' resource' s := by
  have hcalcard : (resource.containerName = some s ∨
      ∃ name ∈ resource.childNames, ∃ parent ∈ resources, parent.documentId = name.parentId ∧
        ∃ parentName, parent.containerName = some parentName ∧ s = parentName ++ "/" ++ name.name) →
      (resource'.containerName = some s ∨
      ∃ name ∈ resource'.childNames, ∃ parent ∈ resources', parent.documentId = name.parentId ∧
        ∃ parentName, parent.containerName = some parentName ∧ s = parentName ++ "/" ++ name.name) := by
    rw [hsame.names.1, hsame.names.2]
    refine Or.imp_right ?_
    rintro ⟨name, hname, parent, hparent, hid, parentName, hparentName, hs⟩
    obtain ⟨parent', hparent', hsame'⟩ := h parent hparent
    exact ⟨name, hname, parent', hparent', hsame'.documentId.trans hid, parentName,
      hsame'.names.1.trans hparentName, hs⟩
  cases collection with
  | calendar | addressBook => exact hcalcard his
  | fileNode =>
    have hnested : ∀ t, NestedPath resources resource.documentId t ↔
        NestedPath resources' resource'.documentId t := by
      intro t
      rw [hsame.documentId]
      exact ⟨NestedPath.of_isFile h.isFile, NestedPath.of_isFile h'.isFile⟩
    refine Or.imp (hnested s).mp (And.imp (fun hnone t ht => hnone t ((hnested t).mpr ht)) ?_) his
    rw [hsame.names.1]
    exact fun hname => hname
  | calendarEventNotification => exact absurd rfl hcollection

theorem Describes.of_forall₂ {paths : List DavPath}
    (hcollection : collection ≠ .calendarEventNotification)
    (hsame : List.Forall₂ SameNames resources resources') (h : Describes collection resources paths) :
    Describes collection resources' paths := by
  have hcovers : Covers resources resources' := by
    intro resource hmem
    obtain ⟨i, hi⟩ := List.getElem?_of_mem hmem
    obtain ⟨hlt, rfl⟩ := List.getElem?_eq_some_iff.mp hi
    have hlt' : i < resources'.length := hsame.length_eq ▸ hlt
    exact ⟨resources'[i], getElem_mem hlt', hsame.get hlt hlt'⟩
  have hcovers' : Covers resources' resources := by
    intro resource hmem
    obtain ⟨i, hi⟩ := List.getElem?_of_mem hmem
    obtain ⟨hlt, rfl⟩ := List.getElem?_eq_some_iff.mp hi
    have hlt' : i < resources.length := hsame.length_eq ▸ hlt
    exact ⟨resources[i], getElem_mem hlt', (hsame.get hlt' hlt).symm⟩
  refine ⟨fun path hpath => ?_, fun resource' hmem' s his => ?_, fun heq => ?_⟩
  · obtain ⟨resource, hidx, his⟩ := h.named path hpath
    obtain ⟨hlt, rfl⟩ := List.getElem?_eq_some_iff.mp hidx
    have hlt' : path.resourceIdx < resources'.length := hsame.length_eq ▸ hlt
    refine ⟨resources'[path.resourceIdx], List.getElem?_eq_getElem hlt', ?_⟩
    exact his.of_sameNames hcollection hcovers hcovers' (hsame.get hlt hlt')
  · obtain ⟨resource, hmem, hsame'⟩ := hcovers' resource' hmem'
    exact h.found resource hmem s (his.of_sameNames hcollection hcovers' hcovers hsame')
  · intro id name parentId hfile
    obtain ⟨name', parentId', hparent⟩ := h.closed heq id name parentId (hcovers'.isFile hfile)
    exact ⟨name', parentId', hcovers.isFile hparent⟩

end Same

/-! ## Calendars and address books -/

/-- The collections with containers and items. -/
def DavResource.IsCalcard (resource : DavResource) : Prop :=
  match resource.data with
  | .calendar .. | .calendarEvent .. | .addressBook .. | .contactCard .. => True
  | _ => False

/-- The resources of calendars or address books, with no two containers of one id. -/
structure Calcard (resources : List DavResource) : Prop where
  kind : ∀ resource ∈ resources, resource.IsCalcard
  single : ∀ resource ∈ resources, ∀ resource' ∈ resources, resource.containerName.isSome →
    resource'.containerName.isSome → resource.documentId = resource'.documentId →
    resource = resource'

section Calcard

variable {resources : List DavResource}

theorem nameIdx_eq_some (h : Calcard resources) : nameIdx resources id = some name ↔
      ∃ resource ∈ resources, resource.documentId = id ∧ resource.containerName = some name := by
  unfold nameIdx
  constructor
  · intro hname
    obtain ⟨resource, hlast, hname⟩ := Option.bind_eq_some_iff.mp hname
    obtain ⟨hmem, hcond⟩ := mem_filter.mp (List.mem_of_getLast? hlast)
    rw [Bool.and_eq_true, decide_eq_true_eq] at hcond
    exact ⟨resource, hmem, hcond.2, hname⟩
  · rintro ⟨resource, hmem, hid, hname⟩
    have hsome : resource.containerName.isSome := by rw [hname]; rfl
    have hin : resource ∈ resources.filter fun r =>
        r.containerName.isSome && decide (r.documentId = id) :=
      mem_filter.mpr ⟨hmem, by rw [hsome, decide_eq_true hid]; rfl⟩
    obtain ⟨last, hlast⟩ := Option.ne_none_iff_exists'.mp fun hnone =>
      ne_nil_of_mem hin (List.getLast?_eq_none_iff.mp hnone)
    obtain ⟨hmem', hcond⟩ := mem_filter.mp (List.mem_of_getLast? hlast)
    rw [Bool.and_eq_true, decide_eq_true_eq] at hcond
    rw [hlast, Option.bind_some, h.single last hmem' resource hmem hcond.1 hsome
      (hcond.2.trans hid.symm), hname]

/-- What a resource adds, where `parentName` tells the name of a container. -/
def entryPaths (parentName : Nat → Option String) (entry : DavResource × Nat) : List DavPath :=
  match entry.1.containerName with
  | some name => [⟨name, none, 1, entry.2⟩]
  | none => entry.1.childNames.filterMap fun name => (parentName name.parentId).map fun parentName =>
      ⟨parentName ++ "/" ++ name.name, some name.parentId, 0, entry.2⟩

variable {collection : SyncCollection}

theorem describes_entryPaths (hcollection : collection.isCalcard = true)
    (h : Calcard resources) {parentName : Nat → Option String}
    (hparent : ∀ id name, parentName id = some name ↔
      ∃ resource ∈ resources, resource.documentId = id ∧ resource.containerName = some name) :
    Describes collection resources
      ((resources.zipIdx.flatMap (entryPaths parentName)).foldl insertPath []) := by
  have his : ∀ resource s, IsPath collection resources resource s ↔
      (resource.containerName = some s ∨ ∃ name ∈ resource.childNames, ∃ parent ∈ resources,
        parent.documentId = name.parentId ∧ ∃ parentName, parent.containerName = some parentName ∧
          s = parentName ++ "/" ++ name.name) := by
    intro resource s
    cases collection with
    | calendar | addressBook => exact Iff.rfl
    | fileNode | calendarEventNotification => cases hcollection
  refine describes_of_foldl (fun path hpath => ?_) (fun resource hresource s hs => ?_) ?_
  · obtain ⟨⟨resource, idx⟩, hentry, hpath⟩ := mem_flatMap.mp hpath
    have hidx := List.mem_zipIdx_iff_getElem?.mp hentry
    unfold entryPaths at hpath
    cases hname : resource.containerName with
    | some name =>
      simp only [hname, mem_singleton] at hpath
      subst hpath
      exact ⟨resource, hidx, (his _ _).mpr (Or.inl hname)⟩
    | none =>
      simp only [hname, mem_filterMap, Option.map_eq_some_iff] at hpath
      obtain ⟨name, hchild, parent, hparentName, rfl⟩ := hpath
      obtain ⟨container, hcontainer, hid, hcontainerName⟩ := (hparent _ _).mp hparentName
      exact ⟨resource, hidx, (his _ _).mpr (Or.inr
        ⟨name, hchild, container, hcontainer, hid, parent, hcontainerName, rfl⟩)⟩
  · obtain ⟨idx, hidx⟩ := List.getElem?_of_mem hresource
    have hentry : (resource, idx) ∈ resources.zipIdx := List.mem_zipIdx_iff_getElem?.mpr hidx
    rcases (his _ _).mp hs with hname | ⟨name, hchild, container, hcontainer, hid, parent,
      hcontainerName, rfl⟩
    · refine ⟨⟨s, none, 1, idx⟩, mem_flatMap.mpr ⟨_, hentry, ?_⟩, rfl⟩
      simp [entryPaths, hname]
    · have hnone : resource.containerName = none := by
        have hkind := h.kind resource hresource
        unfold DavResource.IsCalcard at hkind
        unfold DavResource.childNames at hchild
        unfold DavResource.containerName
        cases hdata : resource.data with
        | calendar | addressBook => rw [hdata] at hchild; cases hchild
        | file | calendarEventNotification => rw [hdata] at hkind; cases hkind
        | calendarEvent | contactCard => rfl
      refine ⟨⟨parent ++ "/" ++ name.name, some name.parentId, 0, idx⟩,
        mem_flatMap.mpr ⟨_, hentry, ?_⟩, rfl⟩
      simp only [entryPaths, hnone, mem_filterMap, Option.map_eq_some_iff]
      exact ⟨name, hchild, parent, (hparent _ _).mpr ⟨container, hcontainer, hid, hcontainerName⟩, rfl⟩
  · rintro rfl
    cases hcollection

theorem simplePaths_eq {paths : List DavPath} {entry : DavResource × Nat}
    (h : entry.1.IsCalcard) : simplePaths resources paths entry =
      (entryPaths (nameIdx resources) entry).foldl insertPath paths := by
  obtain ⟨⟨id, data⟩, idx⟩ := entry
  have hnames : ∀ (names : List DavName) (insert : List DavPath → DavName → List DavPath),
      (∀ paths name, insert paths name =
        ((nameIdx resources name.parentId).map fun parentName =>
          (⟨parentName ++ "/" ++ name.name, some name.parentId, 0, idx⟩ : DavPath)).elim
            paths (insertPath paths)) →
      names.foldl insert paths =
        (names.filterMap fun name => (nameIdx resources name.parentId).map fun parentName =>
          (⟨parentName ++ "/" ++ name.name, some name.parentId, 0, idx⟩ : DavPath)).foldl
            insertPath paths := by
    intro names insert hinsert
    rw [foldl_filterMap]
    refine foldl_ext _ _ _ fun paths name _ => ?_
    rw [hinsert]
    cases nameIdx resources name.parentId with
    | none | some parentName => rfl
  cases data with
  | calendar | addressBook => rfl
  | calendarEvent names | contactCard names =>
    refine hnames names _ fun paths name => ?_
    cases nameIdx resources name.parentId with
    | none | some parentName => rfl
  | file | calendarEventNotification => cases h

theorem describes_buildSimpleHierarchy
    (hcollection : collection.isCalcard = true) (h : Calcard resources) :
    Describes collection resources (buildSimpleHierarchy resources) := by
  have hbuild : buildSimpleHierarchy resources =
      (resources.zipIdx.flatMap (entryPaths (nameIdx resources))).foldl insertPath [] := by
    rw [foldl_flatMap]
    refine foldl_ext _ _ _ fun paths entry hentry => simplePaths_eq (h.kind entry.1 ?_)
    exact mem_of_getElem? (List.mem_zipIdx_iff_getElem?.mp hentry)
  rw [hbuild]
  exact describes_entryPaths hcollection h fun id name => nameIdx_eq_some h

theorem foldl_addContainer (parentName : Nat → Option String) {containers : List DavResource}
    (h : ∀ resource ∈ containers, resource.containerName.isSome) (cache : DavResources) :
    containers.foldl DavResources.addContainer cache = { cache with
      paths := ((containers.zipIdx cache.resources.length).flatMap (entryPaths parentName)).foldl
        insertPath cache.paths
      resources := cache.resources ++ containers } := by
  induction containers generalizing cache with
  | nil => simp
  | cons resource containers ih =>
    obtain ⟨name, hname⟩ := Option.isSome_iff_exists.mp (h resource mem_cons_self)
    rw [foldl_cons, ih fun r hr => h r (mem_cons_of_mem _ hr)]
    simp [DavResources.addContainer, entryPaths, hname, zipIdx_cons]

/-- The name of a container among the first resources. -/
def parentIdx (containers : List DavResource) (id : Nat) : Option String :=
  (containers.find? fun r => decide (r.documentId = id)).map fun r => r.containerName.getD ""

theorem foldl_addItem {items : List DavResource} (h : ∀ resource ∈ items, resource.containerName = none)
    (cache : DavResources) {parentRange : Nat} (hrange : parentRange ≤ cache.resources.length) :
    items.foldl (DavResources.addItem parentRange) cache = { cache with
      paths := ((items.zipIdx cache.resources.length).flatMap
        (entryPaths (parentIdx (cache.resources.take parentRange)))).foldl insertPath cache.paths
      resources := cache.resources ++ items } := by
  induction items generalizing cache with
  | nil => simp
  | cons resource items ih =>
    have hname := h resource mem_cons_self
    have hadd : DavResources.addItem parentRange cache resource = { cache with
        paths := (entryPaths (parentIdx (cache.resources.take parentRange))
          (resource, cache.resources.length)).foldl insertPath cache.paths
        resources := cache.resources ++ [resource] } := by
      rw [DavResources.addItem, entryPaths]
      simp only [hname]
      rw [foldl_filterMap]
      congr 1
      refine foldl_ext _ _ _ fun paths name _ => ?_
      rw [parentIdx]
      cases (cache.resources.take parentRange).find? fun r => decide (r.documentId = name.parentId) with
      | none | some parent => rfl
    have htake : (cache.resources ++ [resource]).take parentRange =
        cache.resources.take parentRange := take_append_of_le_length hrange
    rw [foldl_cons, hadd, ih (fun r hr => h r (mem_cons_of_mem _ hr)) _
      (by simp only [length_append]; omega)]
    simp [htake, zipIdx_cons]

theorem describes_addItems (hcollection : collection.isCalcard = true)
    {containers items : List DavResource} (h : Calcard (containers ++ items))
    (hcontainers : ∀ resource ∈ containers, resource.containerName.isSome)
    (hitems : ∀ resource ∈ items, resource.containerName = none) (lock changeId : Nat) :
    Describes collection (containers ++ items) (items.foldl (DavResources.addItem containers.length)
        (containers.foldl DavResources.addContainer (emptyCache lock changeId))).paths := by
  have hparent : ∀ id name, parentIdx containers id = some name ↔
      ∃ resource ∈ containers ++ items, resource.documentId = id ∧
        resource.containerName = some name := by
    intro id name
    rw [parentIdx, Option.map_eq_some_iff]
    constructor
    · rintro ⟨resource, hfound, rfl⟩
      have hmem := List.mem_of_find?_eq_some hfound
      obtain ⟨name, hname⟩ := Option.isSome_iff_exists.mp (hcontainers resource hmem)
      have hid : resource.documentId = id := by simpa using List.find?_some hfound
      refine ⟨resource, mem_append_left _ hmem, hid, ?_⟩
      rw [hname]
      rfl
    · rintro ⟨resource, hmem, rfl, hname⟩
      have hin : resource ∈ containers := by
        refine (mem_append.mp hmem).resolve_right fun hitem => ?_
        rw [hitems resource hitem] at hname
        cases hname
      obtain ⟨found, hfound⟩ := Option.isSome_iff_exists.mp (List.find?_isSome
        (p := fun r : DavResource => decide (r.documentId = resource.documentId)).mpr
        ⟨resource, hin, decide_eq_true rfl⟩)
      have hmem' := List.mem_of_find?_eq_some hfound
      have hid : found.documentId = resource.documentId := by simpa using List.find?_some hfound
      have heq := h.single found (mem_append_left _ hmem') resource hmem
        (hcontainers found hmem') (hname ▸ rfl) hid
      refine ⟨found, hfound, ?_⟩
      rw [heq, hname]
      rfl
  have hpaths := describes_entryPaths hcollection h hparent
  rw [foldl_addContainer (parentIdx containers) hcontainers,
    foldl_addItem hitems _ (by simp [emptyCache])]
  rw [zipIdx_append] at hpaths
  simpa [emptyCache] using hpaths

end Calcard

/-! ## Files -/

structure Files (resources : List DavResource) : Prop where
  kind : ∀ resource ∈ resources, ∃ name size parentId acls, resource.data = .file name size parentId acls
  nodup : (resources.map DavResource.documentId).Nodup

section Files

variable {resources : List DavResource}

theorem Files.eq (h : Files resources) {resource resource' : DavResource} (hmem : resource ∈ resources)
    (hmem' : resource' ∈ resources) (hid : resource.documentId = resource'.documentId) :
    resource = resource' :=
  inj_on_of_nodup_map h.nodup hmem hmem' hid

theorem Files.isFile_unique (h : Files resources) {name' : String} {parentId' : Option Nat}
    (hfile : IsFile resources id name parentId) (hfile' : IsFile resources id name' parentId') :
    name = name' ∧ parentId = parentId' := by
  obtain ⟨resource, hmem, rfl, size, acls, hdata⟩ := hfile
  obtain ⟨resource', hmem', hid, size', acls', hdata'⟩ := hfile'
  rw [h.eq hmem' hmem hid, hdata] at hdata'
  cases hdata'
  exact ⟨rfl, rfl⟩

theorem NestedPath.unique (h : Files resources) {t : String} (hs : NestedPath resources id s)
    (ht : NestedPath resources id t) : s = t := by
  induction hs generalizing t with
  | root hfile =>
    cases ht with
    | root hfile' => exact (h.isFile_unique hfile hfile').1
    | child hfile' => cases (h.isFile_unique hfile hfile').2
  | child hfile _ ih =>
    cases ht with
    | root hfile' => cases (h.isFile_unique hfile hfile').2
    | child hfile' hparent' =>
      obtain ⟨rfl, heq⟩ := h.isFile_unique hfile hfile'
      cases heq
      rw [ih hparent']

/-- The number of the folder of a file in the sort. -/
def folderNode : Option Nat → Nat
  | none => 0
  | some id => id + 1

theorem mem_fileEdges {u v : Nat} : (u, v) ∈ fileEdges resources ↔
    ∃ id name parentId, IsFile resources id name parentId ∧ u = folderNode parentId ∧ v = id + 1 := by
  rw [fileEdges, mem_filterMap]
  constructor
  · rintro ⟨resource, hmem, hedge⟩
    split at hedge
    · rename_i name size parentId acls hdata
      obtain ⟨rfl, rfl⟩ := Prod.mk.inj (Option.some.inj hedge)
      exact ⟨resource.documentId, name, parentId, ⟨resource, hmem, rfl, size, acls, hdata⟩,
        by cases parentId <;> rfl, rfl⟩
    · cases hedge
  · rintro ⟨id, name, parentId, ⟨resource, hmem, rfl, size, acls, hdata⟩, rfl, rfl⟩
    refine ⟨resource, hmem, ?_⟩
    rw [hdata]
    cases parentId <;> rfl

def Names.For (resources : List DavResource) (names : Names) (own : Nat → DavPath → String → Prop) :
    Prop :=
  ∀ id path, names.lookup id = some path → ∃ resource name size acls,
    resources[path.resourceIdx]? = some resource ∧ resource.documentId = id ∧
      resource.data = .file name size path.parentId acls ∧ own id path name

theorem ownNames_append (front : List DavResource) (resource : DavResource) :
    ownNames (front ++ [resource]) =
      match resource.data with
      | .file name _ parentId _ => (ownNames front).insert resource.documentId
        ⟨name, parentId, 0, front.length⟩
      | _ => ownNames front := by
  rw [ownNames, zipIdx_append, foldl_append]
  simp only [zipIdx_singleton, foldl_cons, foldl_nil, Nat.zero_add]
  rfl

theorem ownNames_for : (ownNames resources).For resources fun _ path name => path.path = name := by
  induction resources using List.reverseRecOn with
  | nil => exact fun _ _ hpath => nomatch hpath
  | append_singleton front resource ih =>
    intro id path hpath
    rw [ownNames_append] at hpath
    have hold : (ownNames front).lookup id = some path → ∃ r name size acls,
        (front ++ [resource])[path.resourceIdx]? = some r ∧ r.documentId = id ∧
          r.data = .file name size path.parentId acls ∧ path.path = name := by
      intro hpath
      obtain ⟨r, name, size, acls, hidx, hrest⟩ := ih id path hpath
      refine ⟨r, name, size, acls, ?_, hrest⟩
      rw [List.getElem?_append_left (List.getElem?_eq_some_iff.mp hidx).1]
      exact hidx
    split at hpath
    · rename_i name size parentId acls hdata
      rcases Tables.of_insert hpath with ⟨rfl, rfl⟩ | ⟨-, hpath⟩
      · exact ⟨resource, name, size, acls, by simp, rfl, hdata, rfl⟩
      · exact hold hpath
    · exact hold hpath

theorem mem_ownNames (hkind : ∀ resource ∈ resources, ∃ name size parentId acls,
    resource.data = .file name size parentId acls) {resource : DavResource}
    (hmem : resource ∈ resources) : (ownNames resources).lookup resource.documentId ≠ none := by
  induction resources using List.reverseRecOn with
  | nil => cases hmem
  | append_singleton front last ih =>
    rw [ownNames_append]
    obtain ⟨name, size, parentId, acls, hdata⟩ := hkind last (by simp)
    rw [hdata]
    by_cases hid : resource.documentId = last.documentId
    · rw [hid, AList.lookup_insert]
      exact Option.some_ne_none _
    · rw [AList.lookup_insert_ne hid]
      refine ih (fun r hr => hkind r (mem_append_left _ hr)) ?_
      refine (mem_append.mp hmem).resolve_right fun hlast => hid ?_
      rw [mem_singleton.mp hlast]

/-- The table when some nodes have been given. -/
structure Extended (resources : List DavResource) (done : List Nat) (names : Names) : Prop where
  kept : names.For resources fun id path name =>
    (id + 1 ∈ done → NestedPath resources id path.path) ∧ (id + 1 ∉ done → path.path = name)
  total : ∀ resource ∈ resources, names.lookup resource.documentId ≠ none
  given : ∀ id, id + 1 ∈ done → names.lookup id ≠ none

section Given

variable {done : List Nat} {node seq : Nat} {names names' : Names}

theorem Extended.located (h : Extended resources done names) {folderId : Nat}
    (hnew : folderId + 1 ∉ done)
    (hedges : ∀ u, (u, folderId + 1) ∈ fileEdges resources → u ∈ done)
    (hstep : extendName names (folderId + 1, seq) = some names') :
    ∃ folder s, names.lookup folderId = some folder ∧ NestedPath resources folderId s ∧
      names' = names.insert folderId { folder with path := s, hierarchySeq := seq } := by
  obtain ⟨folder, hfolder, rfl⟩ := Option.map_eq_some_iff.mp hstep
  obtain ⟨resource, name, size, acls, hidx, hid, hdata, -, hown⟩ := h.kept folderId folder hfolder
  have hfile : IsFile resources folderId name folder.parentId :=
    ⟨resource, mem_of_getElem? hidx, hid, size, acls, hdata⟩
  refine ⟨folder, ?_⟩
  cases hparentId : folder.parentId with
  | none =>
    refine ⟨folder.path, hfolder, ?_, rfl⟩
    rw [hown hnew]
    exact .root (hparentId ▸ hfile)
  | some parentId =>
    have hdone : parentId + 1 ∈ done :=
      hedges _ (mem_fileEdges.mpr ⟨folderId, name, _, hfile, by rw [hparentId]; rfl, rfl⟩)
    obtain ⟨parent, hparent⟩ := Option.ne_none_iff_exists'.mp (h.given parentId hdone)
    obtain ⟨-, -, -, -, -, -, -, hnested, -⟩ := h.kept parentId parent hparent
    rw [Option.bind_some, hparent]
    refine ⟨parent.path ++ "/" ++ folder.path, hfolder, ?_, rfl⟩
    rw [hown hnew]
    exact .child (hparentId ▸ hfile) (hnested hdone)

theorem Extended.next (h : Extended resources done names) (hnew : node ∉ done)
    (hedges : ∀ u, (u, node) ∈ fileEdges resources → u ∈ done)
    (hstep : extendName names (node, seq) = some names') :
    Extended resources (done ++ [node]) names' := by
  cases node with
  | zero =>
    cases hstep
    have hmem : ∀ id, id + 1 ∈ done ++ [0] ↔ id + 1 ∈ done := by simp
    refine ⟨fun id path hpath => ?_, h.total, fun id hid => h.given id ((hmem id).mp hid)⟩
    obtain ⟨resource, name, size, acls, hidx, hid, hdata, hgiven, hown⟩ := h.kept id path hpath
    exact ⟨resource, name, size, acls, hidx, hid, hdata, fun hin => hgiven ((hmem id).mp hin),
      fun hnot => hown fun hin => hnot ((hmem id).mpr hin)⟩
  | succ folderId =>
    obtain ⟨folder, s, hfolder, hnested, rfl⟩ := h.located hnew hedges hstep
    have hsome : ∀ id, names.lookup id ≠ none → (names.insert folderId
        { folder with path := s, hierarchySeq := seq }).lookup id ≠ none := by
      intro id hid
      by_cases heq : id = folderId
      · rw [heq, AList.lookup_insert]
        exact Option.some_ne_none _
      · rw [AList.lookup_insert_ne heq]
        exact hid
    refine ⟨fun id path hpath => ?_, fun r hr => hsome _ (h.total r hr), fun id hid => ?_⟩
    · rcases Tables.of_insert hpath with ⟨rfl, rfl⟩ | ⟨hne, hold⟩
      · obtain ⟨resource, name, size, acls, hidx, hid, hdata, -⟩ := h.kept id folder hfolder
        exact ⟨resource, name, size, acls, hidx, hid, hdata, fun _ => hnested,
          fun hnot => absurd (mem_append_right _ mem_cons_self) hnot⟩
      · obtain ⟨resource, name, size, acls, hidx, hid, hdata, hgiven, hown⟩ := h.kept id path hold
        have hmem : id + 1 ∈ done ++ [folderId + 1] ↔ id + 1 ∈ done := by simp [hne]
        exact ⟨resource, name, size, acls, hidx, hid, hdata, fun hin => hgiven (hmem.mp hin),
          fun hnot => hown fun hin => hnot (hmem.mpr hin)⟩
    · rcases mem_append.mp hid with hold | hlast
      · exact hsome id (h.given id hold)
      · have heq : id = folderId := by simpa using hlast
        rw [heq, AList.lookup_insert]
        exact Option.some_ne_none _

theorem extended_foldlM (hkind : ∀ resource ∈ resources, ∃ name size parentId acls,
      resource.data = .file name size parentId acls) (hnodup : done.Nodup)
    (hbefore : Topological.Before (fileEdges resources) done)
    (hfold : done.zipIdx.foldlM extendName (ownNames resources) = some names) :
    Extended resources done names := by
  induction done using List.reverseRecOn generalizing names with
  | nil =>
    cases hfold
    refine ⟨fun id path hpath => ?_, fun r hr => mem_ownNames hkind hr, fun _ hid => nomatch hid⟩
    obtain ⟨resource, name, size, acls, hidx, hid, hdata, hown⟩ := ownNames_for id path hpath
    exact ⟨resource, name, size, acls, hidx, hid, hdata, fun hmem => (nomatch hmem), fun _ => hown⟩
  | append_singleton done node ih =>
    have hstarts : Topological.Before (fileEdges resources) done := by
      intro l₁ v l₂ heq
      exact hbefore l₁ v (l₂ ++ [node]) (by rw [heq]; simp)
    rw [nodup_append] at hnodup
    rw [zipIdx_append, foldlM_append] at hfold
    obtain ⟨before, hbeforeNames, hlast⟩ := Option.bind_eq_some_iff.mp hfold
    have hstep : extendName before (node, done.length) = some names := by simpa using hlast
    refine (ih hnodup.1 hstarts hbeforeNames).next ?_ (hbefore done node [] rfl) hstep
    exact fun hin => hnodup.2.2 node hin node (by simp) rfl

end Given

theorem NestedPath.acc (h : Files resources) (hpath : NestedPath resources id s) :
    Acc (fun u v => (u, v) ∈ fileEdges resources) (id + 1) := by
  induction hpath with
  | root hfile =>
    refine ⟨_, fun u hu => ?_⟩
    obtain ⟨id', name', parentId, hfile', rfl, heq⟩ := mem_fileEdges.mp hu
    cases heq
    rw [(h.isFile_unique hfile hfile').2.symm]
    refine ⟨_, fun u hu => ?_⟩
    obtain ⟨id', -, -, -, -, hv⟩ := mem_fileEdges.mp hu
    exact absurd hv (Nat.succ_ne_zero id').symm
  | child hfile _ ih =>
    refine ⟨_, fun u hu => ?_⟩
    obtain ⟨id', name', parentId, hfile', rfl, heq⟩ := mem_fileEdges.mp hu
    cases heq
    rw [(h.isFile_unique hfile hfile').2.symm]
    exact ih

theorem describes_buildNestedHierarchy (h : Files resources) {order : HashOrder}
    {paths : List DavPath} (hbuild : buildNestedHierarchy order resources = some paths) :
    Describes .fileNode resources paths := by
  obtain ⟨names, hnames, rfl⟩ := Option.map_eq_some_iff.mp hbuild
  have horders := order.orders (fileEdges resources)
  obtain ⟨hnodup, hbefore, -, -⟩ := Topological.sort_spec horders
  have hextended := extended_foldlM h.kind hnodup hbefore hnames
  have hnode : ∀ id name parentId, IsFile resources id name parentId →
      Topological.IsNode (fileEdges resources) (id + 1) := fun id name parentId hfile =>
    ⟨_, mem_fileEdges.mpr ⟨id, name, parentId, hfile, rfl, rfl⟩, Or.inr rfl⟩
  -- what the sort has not given is below no root
  have hpath : ∀ id path, names.lookup id = some path → ∃ resource,
      resources[path.resourceIdx]? = some resource ∧ resource.documentId = id ∧
        IsPath .fileNode resources resource path.path := by
    intro id path hpath
    obtain ⟨resource, name, size, acls, hidx, hid, hdata, hgiven, hother⟩ :=
      hextended.kept id path hpath
    subst hid
    refine ⟨resource, hidx, rfl, ?_⟩
    have hfile : IsFile resources resource.documentId name path.parentId :=
      ⟨resource, mem_of_getElem? hidx, rfl, size, acls, hdata⟩
    by_cases hmem : resource.documentId + 1 ∈ Topological.sort (fileEdges resources)
        (order.nodes (fileEdges resources))
    · exact Or.inl (hgiven hmem)
    · refine Or.inr ⟨fun t ht => hmem ?_, ?_⟩
      · exact Topological.mem_sort_of_acc horders (ht.acc h) (hnode _ _ _ hfile)
      · rw [hother hmem, DavResource.containerName, hdata]
  refine describes_of_foldl (fun path hmem => ?_) (fun resource hmem s his => ?_) fun _ => ?_
  · obtain ⟨⟨id, path'⟩, hentry, rfl⟩ := mem_map.mp hmem
    obtain ⟨resource, hidx, -, his⟩ := hpath id path' (Tables.mem_entries.mp hentry)
    exact ⟨resource, hidx, his⟩
  · obtain ⟨path, hlookup⟩ := Option.ne_none_iff_exists'.mp (hextended.total resource hmem)
    obtain ⟨resource', hidx, hid, his'⟩ := hpath _ path hlookup
    rw [h.eq (mem_of_getElem? hidx) hmem hid] at his'
    refine ⟨path, mem_map.mpr ⟨⟨_, path⟩, Tables.mem_entries.mpr hlookup, rfl⟩, ?_⟩
    rcases his with hnested | ⟨hnone, hname⟩
    · rcases his' with hnested' | ⟨hnone', -⟩
      · exact hnested'.unique h hnested
      · exact absurd hnested (hnone' s)
    · rcases his' with hnested' | ⟨-, hname'⟩
      · exact absurd hnested' (hnone _)
      · exact Option.some.inj (hname'.symm.trans hname)
  · -- a folder that is not there is given, and then it is missed
    intro id name parentId hfile
    by_contra hnot
    have hacc : Acc (fun u v => (u, v) ∈ fileEdges resources) (parentId + 1) := by
      refine ⟨_, fun u hu => ?_⟩
      obtain ⟨id', name', parentId', hfile', -, heq⟩ := mem_fileEdges.mp hu
      cases heq
      exact absurd ⟨name', parentId', hfile'⟩ hnot
    have hgiven := Topological.mem_sort_of_acc horders hacc
      ⟨_, mem_fileEdges.mpr ⟨id, name, some parentId, hfile, rfl, rfl⟩, Or.inl rfl⟩
    obtain ⟨path, hlookup⟩ := Option.ne_none_iff_exists'.mp (hextended.given parentId hgiven)
    obtain ⟨resource, name', size, acls, hidx, hid, hdata, -⟩ := hextended.kept parentId path hlookup
    exact hnot ⟨name', path.parentId, resource, mem_of_getElem? hidx, hid, size, acls, hdata⟩

theorem buildNestedHierarchy_isSome (hkind : ∀ resource ∈ resources, ∃ name size parentId acls,
      resource.data = .file name size parentId acls) (hclosed : NoOrphans resources)
    (order : HashOrder) : (buildNestedHierarchy order resources).isSome := by
  obtain ⟨-, -, hnode, -⟩ := Topological.sort_spec (order.orders (fileEdges resources))
  have hsome : ∀ (nodes : List (Nat × Nat)) (names : Names),
      (∀ resource ∈ resources, names.lookup resource.documentId ≠ none) →
      (∀ node ∈ nodes, node.1 = 0 ∨ ∃ resource ∈ resources, node.1 = resource.documentId + 1) →
      (nodes.foldlM extendName names).isSome := by
    intro nodes
    induction nodes with
    | nil => exact fun names _ _ => rfl
    | cons node nodes ih =>
      intro names htotal hnodes
      rw [foldlM_cons]
      have hrest : ∀ names', (∀ id, names.lookup id ≠ none → names'.lookup id ≠ none) →
          (nodes.foldlM extendName names').isSome := fun names' hkept =>
        ih names' (fun r hr => hkept _ (htotal r hr))
          fun other hother => hnodes other (mem_cons_of_mem _ hother)
      obtain ⟨n, seq⟩ := node
      rcases hnodes (n, seq) mem_cons_self with hzero | ⟨resource, hmem, hid⟩
      · cases hzero
        exact hrest names fun _ h => h
      · cases hid
        obtain ⟨folder, hfolder⟩ := Option.ne_none_iff_exists'.mp (htotal resource hmem)
        have hinsert : ∀ (path : DavPath) id, names.lookup id ≠ none →
            (names.insert resource.documentId path).lookup id ≠ none := by
          intro path id h
          by_cases heq : id = resource.documentId
          · rw [heq, AList.lookup_insert]
            exact Option.some_ne_none _
          · rw [AList.lookup_insert_ne heq]
            exact h
        simp only [extendName, hfolder, Option.map_some]
        cases folder.parentId.bind fun parentId => names.lookup parentId with
        | none | some parent => exact hrest _ (hinsert _)
  rw [buildNestedHierarchy, Option.isSome_map]
  refine hsome _ _ (fun r hr => mem_ownNames hkind hr) fun node hmem => ?_
  have hin := mem_of_getElem? (List.mem_zipIdx_iff_getElem?.mp hmem)
  obtain ⟨⟨u, v⟩, hedge, hend⟩ := hnode _ hin
  obtain ⟨id, name, parentId, hfile, rfl, rfl⟩ := mem_fileEdges.mp hedge
  rcases hend with heq | heq
  · cases parentId with
    | none => exact Or.inl heq.symm
    | some parentId =>
      obtain ⟨-, -, resource, hmem, hid, -⟩ := hclosed id name parentId hfile
      exact Or.inr ⟨resource, hmem, by rw [hid]; exact heq.symm⟩
  · obtain ⟨resource, hmem, hid, -⟩ := hfile
    exact Or.inr ⟨resource, hmem, by rw [hid]; exact heq.symm⟩

end Files

/-! ## Scheduling messages -/

theorem foldl_addScheduling (resources : List DavResource) (cache : DavResources) :
    resources.foldl DavResources.addScheduling cache = { cache with
      paths := ((resources.zipIdx cache.resources.length).map fun entry =>
        pathFromScheduling entry.1.documentId entry.2 entry.1.isContainer).foldl insertPath cache.paths
      resources := cache.resources ++ resources } := by
  induction resources generalizing cache with
  | nil => simp
  | cons resource resources ih =>
    rw [foldl_cons, ih]
    simp [DavResources.addScheduling, zipIdx_cons]

theorem describes_addScheduling (resources : List DavResource) (cache : DavResources)
    (hpaths : cache.paths = []) (hresources : cache.resources = []) :
    Describes .calendarEventNotification resources
      (resources.foldl DavResources.addScheduling cache).paths := by
  rw [foldl_addScheduling, hpaths, hresources]
  have hpath : ∀ documentId idx idx' isContainer,
      (pathFromScheduling documentId idx isContainer).path =
        (pathFromScheduling documentId idx' isContainer).path := by
    intro documentId idx idx' isContainer
    cases isContainer <;> rfl
  refine describes_of_foldl (fun path hmem => ?_) (fun resource hmem s his => ?_) ?_
  · obtain ⟨⟨resource, idx⟩, hentry, rfl⟩ := mem_map.mp hmem
    refine ⟨resource, ?_, hpath _ _ _ _⟩
    have hidx := List.mem_zipIdx_iff_getElem?.mp hentry
    unfold pathFromScheduling
    split <;> exact hidx
  · obtain ⟨idx, hidx⟩ := List.getElem?_of_mem hmem
    refine ⟨_, mem_map.mpr ⟨(resource, idx), List.mem_zipIdx_iff_getElem?.mpr hidx, rfl⟩, ?_⟩
    exact (hpath _ _ _ _).trans his.symm
  · exact fun heq => nomatch heq

end Bearmail.Cache
