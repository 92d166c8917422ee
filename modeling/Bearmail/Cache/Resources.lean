import Bearmail.Folder.Store
import Bearmail.Lib.Topological

/-!
# Cached resources

The resources of the calendars, address books, files and scheduling messages of an account as they are
cached: `common/src/storage/dav.rs`, and the paths that `groupware/src/cache/calcard.rs` and
`groupware/src/cache/file.rs` give them.

A path names its resource by the position. The paths are a hash set by their text: of two with one text
the first is kept. The order in which a hash map gives the nodes of the sort is a parameter
(`HashOrder`). The base path and the size, which counts for the room in the cache only, are left out.
-/

namespace Bearmail.Cache

open Folder (AclGrant)

/-! ## Resources -/

inductive SyncCollection where
  | calendar
  | addressBook
  | fileNode
  | calendarEventNotification
  deriving DecidableEq

def scheduleInboxId : Nat := 2 ^ 32 - 2

def scheduleOutboxId : Nat := 2 ^ 32 - 3

structure DavName where
  name : String
  parentId : Nat
  deriving DecidableEq

structure TinyCalendarPreferences where
  accountId : Nat
  tz : Nat
  flags : Nat
  deriving DecidableEq

inductive DavResourceMetadata where
  | file (name : String) (size : Option Nat) (parentId : Option Nat) (acls : List AclGrant)
  | calendar (name : String) (acls : List AclGrant) (preferences : List TinyCalendarPreferences)
  | calendarEvent (names : List DavName) (start : Int) (duration : Nat)
  | calendarEventNotification (names : List DavName)
  | addressBook (name : String) (acls : List AclGrant)
  | contactCard (names : List DavName)
  deriving DecidableEq

structure DavResource where
  documentId : Nat
  data : DavResourceMetadata
  deriving DecidableEq

def DavResource.isContainer (resource : DavResource) : Bool :=
  match resource.data with
  | .file _ size _ _ => size.isNone
  | .calendar .. | .addressBook .. => true
  | .calendarEventNotification names => names.isEmpty
  | _ => false

def DavResource.containerName (resource : DavResource) : Option String :=
  match resource.data with
  | .file name _ _ _ => some name
  | .calendar name _ _ => some name
  | .addressBook name _ => some name
  | .calendarEventNotification [] =>
    some (if resource.documentId = scheduleInboxId then "inbox" else "outbox")
  | _ => none

def DavResource.childNames (resource : DavResource) : List DavName :=
  match resource.data with
  | .calendarEvent names _ _ => names
  | .contactCard names => names
  | .calendarEventNotification names => names
  | _ => []

def DavResource.hasHierarchyChanges (resource other : DavResource) : Bool :=
  match resource.data, other.data with
  | .file a _ c _, .file b _ d _ => decide (a ≠ b) || decide (c ≠ d)
  | .calendar a _ _, .calendar b _ _ => decide (a ≠ b)
  | .addressBook a _, .addressBook b _ => decide (a ≠ b)
  | .calendarEvent a _ _, .calendarEvent b _ _ => decide (a ≠ b)
  | .contactCard a, .contactCard b => decide (a ≠ b)
  | .calendarEventNotification a, .calendarEventNotification b => decide (a ≠ b)
  | _, _ => true

/-! ## Paths -/

structure DavPath where
  path : String
  parentId : Option Nat
  hierarchySeq : Nat
  resourceIdx : Nat
  deriving DecidableEq

def insertPath (paths : List DavPath) (path : DavPath) : List DavPath :=
  if paths.any fun other => decide (other.path = path.path) then paths else paths ++ [path]

structure DavResources where
  paths : List DavPath
  resources : List DavResource
  itemChangeId : Nat
  containerChangeId : Nat
  highestChangeId : Nat
  updateLock : Nat
  deriving DecidableEq

def DavResources.byPath (cache : DavResources) (name : String) : Option DavResource :=
  (cache.paths.find? fun path => decide (path.path = name)).bind fun path =>
    cache.resources[path.resourceIdx]?

/-! ## Calendars and address books -/

def DavResources.addContainer (cache : DavResources) (resource : DavResource) : DavResources :=
  { cache with
    paths := insertPath cache.paths ⟨resource.containerName.getD "", none, 1, cache.resources.length⟩
    resources := cache.resources ++ [resource] }

def DavResources.addItem (parentRange : Nat) (cache : DavResources) (resource : DavResource) :
    DavResources :=
  { cache with
    paths := resource.childNames.foldl (fun paths name =>
      match (cache.resources.take parentRange).find? fun r => decide (r.documentId = name.parentId) with
      | none => paths
      | some parent => insertPath paths
        ⟨parent.containerName.getD "" ++ "/" ++ name.name, some name.parentId, 0,
          cache.resources.length⟩) cache.paths
    resources := cache.resources ++ [resource] }

/-- The name of a container. Of several with one id the last one counts. -/
def nameIdx (resources : List DavResource) (id : Nat) : Option String :=
  ((resources.filter fun r => r.containerName.isSome && decide (r.documentId = id)).getLast?).bind
    DavResource.containerName

def simplePaths (resources : List DavResource) (paths : List DavPath) (entry : DavResource × Nat) :
    List DavPath :=
  match entry.1.data with
  | .calendar name _ _ | .addressBook name _ => insertPath paths ⟨name, none, 1, entry.2⟩
  | .calendarEvent names _ _ | .contactCard names =>
    names.foldl (fun paths name =>
      match nameIdx resources name.parentId with
      | none => paths
      | some parentName => insertPath paths
        ⟨parentName ++ "/" ++ name.name, some name.parentId, 0, entry.2⟩) paths
  | _ => paths

def buildSimpleHierarchy (resources : List DavResource) : List DavPath :=
  resources.zipIdx.foldl (simplePaths resources) []

/-! ## Files -/

/-- An order in which a hash map can give the nodes of a sort. -/
structure HashOrder where
  nodes : List (Nat × Nat) → List Nat
  orders : ∀ edges, Topological.Orders edges (nodes edges)

def fileEdges (resources : List DavResource) : List (Nat × Nat) :=
  resources.filterMap fun resource =>
    match resource.data with
    | .file _ _ parentId _ =>
      some (match parentId with
        | none => 0
        | some id => id + 1, resource.documentId + 1)
    | _ => none

abbrev Names := AList fun _ : Nat => DavPath

def ownNames (resources : List DavResource) : Names :=
  resources.zipIdx.foldl (fun names entry =>
    match entry.1.data with
    | .file name _ parentId _ => names.insert entry.1.documentId ⟨name, parentId, 0, entry.2⟩
    | _ => names) ∅

/-- One node of the sort. A folder that is not there ends everything. -/
def extendName (names : Names) (node : Nat × Nat) : Option Names :=
  match node.1 with
  | 0 => some names
  | folderId + 1 =>
    (names.lookup folderId).map fun folder =>
      match folder.parentId.bind fun parentId => names.lookup parentId with
      | some parent => names.insert folderId
        { folder with path := parent.path ++ "/" ++ folder.path, hierarchySeq := node.2 }
      | none => names.insert folderId { folder with hierarchySeq := node.2 }

def buildNestedHierarchy (order : HashOrder) (resources : List DavResource) : Option (List DavPath) :=
  let edges := fileEdges resources
  ((Topological.sort edges (order.nodes edges)).zipIdx.foldlM extendName (ownNames resources)).map
    fun names => (names.entries.map Sigma.snd).foldl insertPath []

/-! ## Scheduling -/

def resourceFromScheduling (documentId : Nat) (isContainer : Bool) : DavResource :=
  ⟨documentId, .calendarEventNotification
    (if isContainer then [] else [⟨toString documentId ++ ".ics", scheduleInboxId⟩])⟩

def pathFromScheduling (documentId resourceIdx : Nat) (isContainer : Bool) : DavPath :=
  if isContainer then
    ⟨if documentId = scheduleInboxId then "inbox" else "outbox", none, 1, resourceIdx⟩
  else ⟨"inbox/" ++ toString documentId ++ ".ics", some scheduleInboxId, 0, resourceIdx⟩

def DavResources.addScheduling (cache : DavResources) (resource : DavResource) : DavResources :=
  { cache with
    paths := insertPath cache.paths
      (pathFromScheduling resource.documentId cache.resources.length resource.isContainer)
    resources := cache.resources ++ [resource] }

end Bearmail.Cache
