import Bearmail.Cache.Return

/-!
# Every file has one path

When the paths of the files are built, and when each file has one of its own (`hierarchical_iff`). The sort gives
a folder that no file is, and then it is missed. The names are kept by the ids and the paths by their texts.

A `u32` is a natural number here: no document has the id `u32::MAX`, the only one that has no number in the sort.
-/

namespace Bearmail.Cache

open List Option

variable {resources : List DavResource} {order : HashOrder} {paths : List DavPath}

/-! ## One path for each -/

def EachOnce (resources : List DavResource) (paths : List DavPath) : Prop :=
  ∀ i < resources.length, ∃ path ∈ paths, path.resourceIdx = i ∧
    ∀ other ∈ paths, other.resourceIdx = i → other = path

/-- The folders of every file end at a root. -/
def IsForest (resources : List DavResource) : Prop :=
  ∀ resource ∈ resources, ∃ s, NestedPath resources resource.documentId s

/-- The paths go through the folders, and come after them. -/
structure Nested (resources : List DavResource) (paths : List DavPath) : Prop where
  path : ∀ path ∈ paths, ∃ resource, resources[path.resourceIdx]? = some resource ∧
    NestedPath resources resource.documentId path.path
  after : ∀ path ∈ paths, ∀ parent ∈ paths, ∀ folder name size acls resource,
    resources[parent.resourceIdx]? = some folder → resources[path.resourceIdx]? = some resource →
    resource.data = .file name size (some folder.documentId) acls → parent.hierarchySeq < path.hierarchySeq

def Hierarchical (order : HashOrder) (resources : List DavResource) : Prop :=
  ∃ paths, buildNestedHierarchy order resources = some paths ∧ EachOnce resources paths ∧
    (IsForest resources → Nested resources paths)

/-- The folders of the files are there, and no two files have an id or a path in common. -/
structure Placed (resources : List DavResource) : Prop where
  nodup : (resources.map DavResource.documentId).Nodup
  closed : NoOrphans resources
  unique : UniquePaths .fileNode resources

/-! ## The table of names -/

theorem nodup_insertPath {path : DavPath} (h : (paths.map DavPath.path).Nodup) :
    ((insertPath paths path).map DavPath.path).Nodup := by
  unfold insertPath
  split
  · exact h
  · rename_i hnew
    rw [List.map_append, map_singleton, ← concat_eq_append]
    refine h.concat fun hmem => hnew ?_
    obtain ⟨other, hother, heq⟩ := List.mem_map.mp hmem
    exact List.any_eq_true.mpr ⟨other, hother, decide_eq_true heq⟩

theorem nodup_foldl_insertPath {added : List DavPath} (h : (paths.map DavPath.path).Nodup) :
    ((added.foldl insertPath paths).map DavPath.path).Nodup := by
  induction added generalizing paths with
  | nil => exact h
  | cons first added ih => exact ih (nodup_insertPath h)

theorem extendName_succ {names names' : Names} {folderId seq : Nat}
    (h : extendName names (folderId + 1, seq) = some names') :
    ∃ path : DavPath, path.hierarchySeq = seq ∧ names' = names.insert folderId path := by
  obtain ⟨folder, -, rfl⟩ := map_eq_some_iff.mp h
  cases folder.parentId.bind fun parentId => names.lookup parentId with
  | none | some parent => exact ⟨_, rfl, rfl⟩

theorem lookup_of_given {done : List Nat} {start names : Names} (hnodup : done.Nodup)
    (hfold : done.zipIdx.foldlM extendName start = some names) {id k : Nat} (hk : done[k]? = some (id + 1)) :
    ∃ path, names.lookup id = some path ∧ path.hierarchySeq = k := by
  induction done using List.reverseRecOn generalizing names with
  | nil => cases hk
  | append_singleton done node ih =>
    rw [nodup_append] at hnodup
    rw [zipIdx_append, foldlM_append] at hfold
    obtain ⟨before, hbefore, hlast⟩ := bind_eq_some_iff.mp hfold
    have hstep : extendName before (node, done.length) = some names := by simpa using hlast
    rcases Nat.lt_or_ge k done.length with hlt | hge
    · rw [List.getElem?_append_left hlt] at hk
      obtain ⟨path, hpath, hseq⟩ := ih hnodup.1 hbefore hk
      refine ⟨path, ?_, hseq⟩
      cases node with
      | zero =>
        cases hstep
        exact hpath
      | succ folderId =>
        obtain ⟨-, -, rfl⟩ := extendName_succ hstep
        have hne : id ≠ folderId := by
          rintro rfl
          exact hnodup.2.2 _ (mem_of_getElem? hk) _ mem_cons_self rfl
        rw [AList.lookup_insert_ne hne, hpath]
    · obtain ⟨hlt, hget⟩ := List.getElem?_eq_some_iff.mp hk
      obtain rfl : k = done.length := by
        rw [length_append, length_singleton] at hlt
        omega
      obtain rfl : node = id + 1 := by simpa using hget
      obtain ⟨path, hseq, rfl⟩ := extendName_succ hstep
      exact ⟨path, AList.lookup_insert _, hseq⟩

section Files

variable (hkind : ∀ resource ∈ resources, ∃ name size parentId acls,
  resource.data = .file name size parentId acls)

include hkind

variable (hbuild : buildNestedHierarchy order resources = some paths)
include hbuild

theorem exists_names : ∃ names : Names, (paths.map DavPath.path).Nodup ∧
      (∀ path ∈ paths, ∃ resource, resources[path.resourceIdx]? = some resource ∧
        names.lookup resource.documentId = some path) ∧
      ∀ id k, (Topological.sort (fileEdges resources) (order.nodes (fileEdges resources)))[k]? = some (id + 1) →
        ∃ path, names.lookup id = some path ∧ path.hierarchySeq = k := by
  obtain ⟨names, hnames, rfl⟩ := map_eq_some_iff.mp hbuild
  obtain ⟨hnodup, hbefore, -, -⟩ := Topological.sort_spec (order.orders (fileEdges resources))
  have hextended := extended_foldlM hkind hnodup hbefore hnames
  refine ⟨names, nodup_foldl_insertPath nodup_nil, fun path hmem => ?_,
    fun id k => lookup_of_given hnodup hnames⟩
  rcases mem_foldl_insertPath hmem with hnil | hadded
  · cases hnil
  · obtain ⟨⟨id, path'⟩, hentry, rfl⟩ := List.mem_map.mp hadded
    obtain ⟨resource, -, -, -, hidx, rfl, -⟩ := hextended.kept id path' (Tables.mem_entries.mp hentry)
    exact ⟨resource, hidx, Tables.mem_entries.mp hentry⟩

theorem nodup_of_eachOnce
    (honce : EachOnce resources paths) : (resources.map DavResource.documentId).Nodup := by
  obtain ⟨names, -, hnames, -⟩ := exists_names hkind hbuild
  rw [nodup_iff_injective_getElem]
  rintro ⟨i, hi⟩ ⟨j, hj⟩ hsame
  rw [length_map] at hi hj
  obtain ⟨path, hmem, rfl, -⟩ := honce i hi
  obtain ⟨path', hmem', rfl, -⟩ := honce j hj
  obtain ⟨resource, hidx, hlookup⟩ := hnames path hmem
  obtain ⟨resource', hidx', hlookup'⟩ := hnames path' hmem'
  have hid : resource.documentId = resource'.documentId := by
    simpa [(List.getElem?_eq_some_iff.mp hidx).2, (List.getElem?_eq_some_iff.mp hidx').2] using hsame
  rw [hid, hlookup'] at hlookup
  cases hlookup
  rfl

omit hbuild

theorem isPath_unique (hnodup : (resources.map DavResource.documentId).Nodup) {resource : DavResource} {s t : String}
    (hs : IsPath .fileNode resources resource s) (ht : IsPath .fileNode resources resource t) : s = t := by
  rcases hs with hs | ⟨hnone, hs⟩
  · rcases ht with ht | ⟨hnone, -⟩
    · exact hs.unique ⟨hkind, hnodup⟩ ht
    · exact absurd hs (hnone s)
  · rcases ht with ht | ⟨-, ht⟩
    · exact absurd ht (hnone t)
    · exact Option.some.inj (hs.symm.trans ht)

theorem exists_isPath {resource : DavResource} (hmem : resource ∈ resources) :
    ∃ s, IsPath .fileNode resources resource s := by
  by_cases hnested : ∃ s, NestedPath resources resource.documentId s
  · exact hnested.imp fun _ => Or.inl
  · obtain ⟨name, size, parentId, acls, hdata⟩ := hkind resource hmem
    exact ⟨name, Or.inr ⟨not_exists.mp hnested, by rw [DavResource.containerName, hdata]⟩⟩

theorem eachOnce_of_placed (h : Placed resources) (hbuild : buildNestedHierarchy order resources = some paths) :
    EachOnce resources paths := by
  obtain ⟨names, htexts, -, -⟩ := exists_names hkind hbuild
  obtain ⟨hnamed, hfound, -⟩ := describes_buildNestedHierarchy ⟨hkind, h.nodup⟩ hbuild
  intro i hi
  obtain ⟨s, his⟩ := exists_isPath hkind (getElem_mem hi)
  obtain ⟨path, hmem, rfl⟩ := hfound _ (getElem_mem hi) s his
  obtain ⟨resource, hidx, his'⟩ := hnamed path hmem
  obtain ⟨hlt, hget⟩ := List.getElem?_eq_some_iff.mp hidx
  have hsame := h.unique _ (getElem_mem hi) resource (mem_of_getElem? hidx) _ his his'
  have hi' : path.resourceIdx = i :=
    (List.Nodup.getElem_inj_iff h.nodup.of_map).mp (hget.trans hsame.symm)
  refine ⟨path, hmem, hi', fun other hother hio => ?_⟩
  obtain ⟨resource', hidx', hother'⟩ := hnamed other hother
  rw [hio, ← hi', hidx] at hidx'
  cases hidx'
  exact inj_on_of_nodup_map htexts hother hmem (isPath_unique hkind h.nodup hother' his')

theorem nested_of_placed (h : Placed resources) (hbuild : buildNestedHierarchy order resources = some paths)
    (hforest : IsForest resources) : Nested resources paths := by
  obtain ⟨names, -, hnames, hgiven⟩ := exists_names hkind hbuild
  obtain ⟨hnamed, -, -⟩ := describes_buildNestedHierarchy ⟨hkind, h.nodup⟩ hbuild
  refine ⟨fun path hmem => ?_, ?_⟩
  · obtain ⟨resource, hidx, his⟩ := hnamed path hmem
    refine ⟨resource, hidx, his.resolve_right fun hnone => ?_⟩
    obtain ⟨s, hs⟩ := hforest resource (mem_of_getElem? hidx)
    exact hnone.1 s hs
  · intro path hmem parent hparent folder name size acls resource hfolder hresource hdata
    have horders := order.orders (fileEdges resources)
    obtain ⟨-, hbefore, -, -⟩ := Topological.sort_spec horders
    -- the file is given, and its folder before it
    have hedge : (folder.documentId + 1, resource.documentId + 1) ∈ fileEdges resources :=
      mem_fileEdges.mpr ⟨_, name, some folder.documentId,
        ⟨resource, mem_of_getElem? hresource, rfl, size, acls, hdata⟩, rfl, rfl⟩
    obtain ⟨s, hs⟩ := hforest resource (mem_of_getElem? hresource)
    have hin := Topological.mem_sort_of_acc horders (hs.acc ⟨hkind, h.nodup⟩) ⟨_, hedge, Or.inr rfl⟩
    obtain ⟨before, after, heq⟩ := append_of_mem hin
    obtain ⟨k, hk⟩ := List.getElem?_of_mem (hbefore before _ after heq _ hedge)
    have hlt := (List.getElem?_eq_some_iff.mp hk).1
    have hseq : ∀ path ∈ paths, ∀ resource, resources[path.resourceIdx]? = some resource → ∀ k,
        (Topological.sort (fileEdges resources) (order.nodes (fileEdges resources)))[k]? =
          some (resource.documentId + 1) → path.hierarchySeq = k := by
      intro path hmem resource hidx k hk
      obtain ⟨resource', hidx', hlookup⟩ := hnames path hmem
      obtain rfl : resource' = resource := Option.some.inj (hidx'.symm.trans hidx)
      obtain ⟨path', hlookup', hseq⟩ := hgiven _ k hk
      rw [← hseq, Option.some.inj (hlookup.symm.trans hlookup')]
    rw [hseq parent hparent folder hfolder k (by rw [heq, List.getElem?_append_left hlt, hk]),
      hseq path hmem resource hresource before.length (by rw [heq]; simp)]
    exact hlt

/-- Every file has one path iff the folders are there and no two files have an id or a path in common. -/
theorem hierarchical_iff (order : HashOrder) : Hierarchical order resources ↔ Placed resources := by
  constructor
  · rintro ⟨paths, hbuild, honce, -⟩
    have hnodup := nodup_of_eachOnce hkind hbuild honce
    obtain ⟨names, htexts, -, -⟩ := exists_names hkind hbuild
    obtain ⟨hnamed, -, hclosed⟩ := describes_buildNestedHierarchy ⟨hkind, hnodup⟩ hbuild
    refine ⟨hnodup, hclosed rfl, fun resource hmem resource' hmem' s his his' => ?_⟩
    -- each has a path with this text, and there is only one such path
    have hown : ∀ resource ∈ resources, IsPath .fileNode resources resource s → ∃ path ∈ paths, path.path = s ∧
        resources[path.resourceIdx]? = some resource := by
      intro resource hmem his
      obtain ⟨i, hi, rfl⟩ := getElem_of_mem hmem
      obtain ⟨path, hpath, rfl, -⟩ := honce i hi
      obtain ⟨other, hidx, hother⟩ := hnamed path hpath
      obtain rfl : other = resources[path.resourceIdx] :=
        Option.some.inj (hidx.symm.trans (List.getElem?_eq_getElem hi))
      exact ⟨path, hpath, isPath_unique hkind hnodup hother his, hidx⟩
    obtain ⟨path, hpath, htext, hidx⟩ := hown resource hmem his
    obtain ⟨path', hpath', htext', hidx'⟩ := hown resource' hmem' his'
    rw [inj_on_of_nodup_map htexts hpath hpath' (htext.trans htext'.symm)] at hidx
    exact Option.some.inj (hidx.symm.trans hidx')
  · intro h
    obtain ⟨paths, hbuild⟩ := isSome_iff_exists.mp (buildNestedHierarchy_isSome hkind h.closed order)
    exact ⟨paths, hbuild, eachOnce_of_placed hkind h hbuild, nested_of_placed hkind h hbuild⟩

end Files

def fileInFolder : List DavResource :=
  [⟨7, .file "a.txt" (some 5) (some 3) []⟩, ⟨3, .file "docs" none none []⟩]

theorem hierarchical_fileInFolder : Hierarchical firstSeen fileInFolder ↔ Placed fileInFolder :=
  hierarchical_iff (by simp [fileInFolder]) firstSeen

/-- A file that is read with a folder of which nothing was read. -/
theorem not_hierarchical_orphan :
    ¬ Hierarchical firstSeen [⟨7, .file "a.txt" (some 5) (some 3) []⟩] := by
  rintro ⟨paths, hbuild, -⟩
  cases hbuild

end Bearmail.Cache
