import Mathlib.Data.List.Sort
import Bearmail.Jmap.Changes

/-!
# Reports on a collection

The sync-collection report of `dav/src/common/propfind.rs`: `get`, which finds the resources to be
listed, or those that have changed since a sync token, and the loop of `handle_dav_query` over them.
With it the vanished paths of `store/src/query/log.rs` and `common/src/storage/transaction.rs`.

A resource is one path of a document; its content is a number that stands for what a response says
about it. The rights of a reader who is not a member are those that `shared_containers` finds. The
expansion of recurring events and assisted discovery are left out.
-/

namespace Bearmail.Dav

open Sync
open Jmap (CacheIds documentId)

/-! ## Resources -/

abbrev Path := List String

inductive Collection where
  | calendar
  | addressBook
  | fileNode
  | calendarEventNotification
  deriving DecidableEq

def Collection.containerHasChildren : Collection → Bool
  | .calendar | .addressBook => true
  | .fileNode | .calendarEventNotification => false

def Collection.hasVanished : Collection → Bool
  | .calendarEventNotification => false
  | _ => true

structure Resource where
  path : Path
  documentId : Nat
  isContainer : Bool
  /-- the containers of the document, by `child_names` -/
  parents : List Nat
  content : Nat
  documentId_lt : documentId < 2 ^ 32
  deriving DecidableEq

/-- Files and their folders are logged as items. -/
def Collection.loggedAsContainer (collection : Collection) (resource : Resource) : Bool :=
  collection.containerHasChildren && resource.isContainer

structure DavQuery where
  resource : Option Path
  depth : Nat
  depthNoRoot : Bool

def subtreeWithDepth (searchPath : Path) (depth : Nat) (path : Path) : Bool :=
  (searchPath.isPrefixOf path && decide (path ≠ searchPath) &&
    decide (path.length - searchPath.length ≤ depth)) || decide (path = searchPath)

def DavQuery.inScope (query : DavQuery) (path : Path) : Bool :=
  match query.resource with
  | some searchPath =>
    subtreeWithDepth searchPath query.depth path && (!query.depthNoRoot || decide (path ≠ searchPath))
  | none => decide (query.depth ≠ 0) && decide (path.length ≤ query.depth)

/-! ## What is displayed -/

structure Display where
  containers : Option (List Nat)
  children : Option (List Nat)

/-- The containers that a reader may read, and what is in them. -/
def Display.ofReader (collection : Collection) (resources : List Resource)
    (readable : Option (List Nat)) : Display where
  containers := readable
  children :=
    if collection.containerHasChildren then
      readable.map fun containers =>
        (resources.filter fun resource => resource.parents.any fun parent =>
          decide (parent ∈ containers)).map Resource.documentId
    else none

def Display.shows (display : Display) (collection : Collection) (resource : Resource) : Bool :=
  match display.containers with
  | none => true
  | some containers =>
    if collection.containerHasChildren then
      if resource.isContainer then decide (resource.documentId ∈ containers)
      else
        match display.children with
        | some children => decide (resource.documentId ∈ children)
        | none => false
    else decide (resource.documentId ∈ containers)

def found (collection : Collection) (query : DavQuery) (display : Display)
    (resources : List Resource) : List Resource :=
  resources.filter fun resource => query.inScope resource.path && display.shows collection resource

/-! ## Changes since a token -/

def bitmap (ids : List Nat) : List Nat := ids.dedup.insertionSort (· ≤ ·)

/-- The documents of the changes with a property that insert or update. -/
def changedIds (p : Change → Bool) (changes : List Change) : List Nat :=
  bitmap ((changes.filter fun change =>
    p change && decide (change.kind = .insert ∨ change.kind = .update)).map fun change =>
      documentId change.id)

def maybeHasVanished (changes : List Change) : Bool :=
  changes.any fun change => decide (change.kind = .update ∨ change.kind = .delete)

def intersect (documentIds : Option (List Nat)) (changes : List Nat) : List Nat :=
  match documentIds with
  | some documentIds => changes.filter fun id => decide (id ∈ documentIds)
  | none => changes

abbrev VanishedLog := List (Nat × List Path)

def VanishedLog.since (log : VanishedLog) (changeId : Nat) : List Path :=
  (log.filter fun entry => decide (changeId < entry.1)).flatMap Prod.snd

/-- What has changed: paths that are gone, and documents. -/
structure ChangeSet where
  vanished : List Path
  containers : List Nat
  children : List Nat
  deriving DecidableEq

def ChangeSet.totalChanges (set : ChangeSet) : Nat :=
  set.vanished.length + set.containers.length + set.children.length

/-- The first part of `get` for a sync token: the changes, as far as they are displayed. That the
log may be truncated is not looked at. -/
def changeSet (collection : Collection) (display : Display) (log : Log) (vanishedLog : VanishedLog)
    (id : Nat) : ChangeSet :=
  let changes := (log.changes false (.since id)).changes
  { vanished :=
      if maybeHasVanished changes && collection.hasVanished then vanishedLog.since id else []
    containers :=
      if collection.containerHasChildren then
        intersect display.containers (changedIds (fun change => change.isContainer) changes)
      else intersect display.containers (changedIds (fun _ => true) changes)
    children :=
      if collection.containerHasChildren then
        intersect display.children (changedIds (fun change => !change.isContainer) changes)
      else [] }

/-! ## Pages -/

structure PageState where
  offset : Nat
  totalChanges : Nat
  isSyncLimited : Bool

/-- One of the loops that truncate the changes. -/
def pageLoop {α : Type} (limit : Nat) : PageState → List α → List α × PageState
  | state, [] => ([], state)
  | state, a :: l =>
    if 0 < state.offset then pageLoop limit { state with offset := state.offset - 1 } l
    else if state.totalChanges < limit then
      let (kept, state) := pageLoop limit { state with totalChanges := state.totalChanges + 1 } l
      (a :: kept, state)
    else pageLoop limit { state with isSyncLimited := true } l

def ChangeSet.page (set : ChangeSet) (limit seq : Nat) : ChangeSet × Bool :=
  if limit < set.totalChanges then
    let (vanished, state) := pageLoop limit ⟨limit * seq, 0, false⟩ set.vanished
    let (containers, state) := pageLoop limit state set.containers
    let (children, state) := pageLoop limit state set.children
    (⟨vanished, containers, children⟩, state.isSyncLimited)
  else (set, false)

def ChangeSet.display (set : ChangeSet) (collection : Collection) : Display where
  containers := some set.containers
  children := if collection.containerHasChildren then some set.children else none

/-! ## Responses -/

structure SyncToken where
  id : Nat
  seq : Nat
  deriving DecidableEq

structure Response where
  /-- the paths with the status `NOT_FOUND`, which come first -/
  removed : List Path
  items : List Resource
  syncToken : SyncToken
  /-- whether there is a response with the status `INSUFFICIENT_STORAGE` -/
  limited : Bool

/-- The loop over the paths. It counts down from the limit and stops at zero; from zero it wraps
around. -/
def truncated (limit : Nat) (paths : List Resource) : List Resource :=
  if limit = 0 then paths else paths.take limit

def reachesLimit (limit : Nat) (paths : List Resource) : Bool :=
  if limit = 0 then paths.isEmpty else decide (limit ≤ paths.length)

def initialReport (collection : Collection) (query : DavQuery) (resources : List Resource)
    (readable : Option (List Nat)) (ids : CacheIds) (limit : Nat) : Response :=
  let paths := found collection query (.ofReader collection resources readable) resources
  { removed := []
    items := truncated limit paths
    syncToken := ⟨ids.last, 0⟩
    limited := reachesLimit limit paths }

def syncReport (collection : Collection) (query : DavQuery) (resources : List Resource)
    (readable : Option (List Nat)) (log : Log) (vanishedLog : VanishedLog) (ids : CacheIds)
    (token : SyncToken) (limit : Nat) : Response :=
  let display := Display.ofReader collection resources readable
  let (page, isSyncLimited) :=
    (changeSet collection display log vanishedLog token.id).page limit token.seq
  let paths := found collection query (page.display collection) resources
  { removed := page.vanished
    items := truncated limit paths
    syncToken := if isSyncLimited then ⟨token.id, (token.seq + 1) % 2 ^ 32⟩ else ⟨ids.last, 0⟩
    limited := reachesLimit limit paths || isSyncLimited }

def VanishedLog.deleteChanges (vanishedLog : VanishedLog) (log : Log) (maxEntries : Nat) :
    VanishedLog :=
  if maxEntries < log.length then
    match log.drop (log.length - (maxEntries + 1)) with
    | [] => vanishedLog
    | first :: _ => vanishedLog.filter fun entry => decide (first.1 ≤ entry.1)
  else vanishedLog

end Bearmail.Dav
