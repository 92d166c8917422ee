import Bearmail.Cache.Resources
import Bearmail.Sync.Objects

/-!
# Fetching resources

`fetch_dav_resources` of `groupware/src/cache/mod.rs` for one collection of an account, with any number
of calls at a time, and the commits and cuts of the log in between. A step is one access to the store,
the cache or the lock; a call reads the documents that have changed one by one. An entry of the cache
can be gone at any time, and calls that miss it build at the same time.

A document is modelled as what its resource has of it. A commit writes each document once, and logs
it: files and scheduling messages are items, and the latter do not change. `history` is not part of
the server; it has the commits of which the log may have lost some. The order in which documents are
read, or a hash map gives its values, only orders the resources.
-/

namespace Bearmail.Cache

open Sync (Change Changes Log LogEntry History)

/-! ## Documents -/

/-- By whether it is in the collection of the containers, and the id. -/
abbrev Documents := AList fun _ : Bool × Nat => DavResourceMetadata

def SyncCollection.hasNoChildren (collection : SyncCollection) : Bool :=
  decide (collection = .fileNode)

/-- The documents of a collection. Files have one for both. -/
def archives (documents : Documents) (isContainer : Bool) : List DavResource :=
  (documents.entries.filter fun entry => decide (entry.1.1 = isContainer)).map fun entry =>
    ⟨entry.1.2, entry.2⟩

def archive (collection : SyncCollection) (documents : Documents) (isContainer : Bool) (id : Nat) :
    Option DavResource :=
  (documents.lookup (isContainer && !collection.hasNoChildren, id)).map fun data => ⟨id, data⟩

/-! ## Commits -/

inductive Write where
  | insert (isContainer : Bool) (id : Nat) (data : DavResourceMetadata)
  | update (isContainer : Bool) (id : Nat) (data : DavResourceMetadata)
  | delete (isContainer : Bool) (id : Nat)

def Write.key : Write → Bool × Nat
  | .insert isContainer id _ => (isContainer, id)
  | .update isContainer id _ => (isContainer, id)
  | .delete isContainer id => (isContainer, id)

/-- A document is of the kind of its collection. -/
def fits (collection : SyncCollection) (isContainer : Bool) (id : Nat) (data : DavResourceMetadata) :
    Bool :=
  match collection, isContainer, data with
  | .calendar, true, .calendar .. => true
  | .calendar, false, .calendarEvent .. => true
  | .addressBook, true, .addressBook .. => true
  | .addressBook, false, .contactCard .. => true
  | .fileNode, false, .file .. => true
  | .calendarEventNotification, false, data => decide (data = (resourceFromScheduling id false).data)
  | _, _, _ => false

def Write.kind : Write → Sync.ChangeKind
  | .insert .. => .insert
  | .update .. => .update
  | .delete .. => .delete

def Write.ids (kind : Sync.ChangeKind) (isContainer : Bool) (writes : List Write) : List Nat :=
  (writes.filter fun write => decide (write.kind = kind ∧ write.key.1 = isContainer)).map
    fun write => write.key.2

def entryOf (writes : List Write) : LogEntry where
  containerInserts := Write.ids .insert true writes
  containerUpdates := Write.ids .update true writes
  containerPropertyChanges := []
  containerDeletes := Write.ids .delete true writes
  itemInserts := Write.ids .insert false writes
  itemUpdates := Write.ids .update false writes
  itemDeletes := Write.ids .delete false writes

def Write.apply (documents : Documents) : Write → Documents
  | .insert isContainer id data => documents.insert (isContainer, id) data
  | .update isContainer id data => documents.insert (isContainer, id) data
  | .delete isContainer id => documents.erase (isContainer, id)

def isNew (history : History) (key : Bool × Nat) : Bool :=
  history.all fun commit =>
    !commit.2.touches key.1 key.2 && decide (key.2 ∉ commit.2.deletes key.1)

def Write.isValid (collection : SyncCollection) (documents : Documents) (history : History) :
    Write → Bool
  | .insert isContainer id data => isNew history (isContainer, id) && fits collection isContainer id data
  | .update isContainer id data => (documents.lookup (isContainer, id)).isSome &&
    fits collection isContainer id data && decide (collection ≠ .calendarEventNotification)
  | .delete isContainer id => (documents.lookup (isContainer, id)).isSome

/-! ## Calls -/

/-- `UpdateLock`, with the call that has the permit. -/
structure UpdateLock where
  revision : Nat
  holder : Option Nat

abbrev Updated := AList fun _ : Bool × Nat => Option DavResource

inductive Phase where
  | fetched (cache : DavResources)
  | building (lock : Nat) (isFirstCheck : Bool)
  | buildingContainers (cache : DavResources) (isFirstCheck : Bool)
  | creating (lock : Nat)
  | buildingItems (cache : DavResources)
  | built (cache : DavResources)
  | scanned (cache : DavResources) (changes : Changes)
  | updating (lock : Nat) (cache : DavResources) (changes : Changes) (todo : List Change)
    (updated : Updated)
  | returned (cache : DavResources)
  | panicked

structure Server where
  documents : Documents
  log : Log
  history : History
  slot : Option DavResources
  locks : Nat → UpdateLock
  lastLock : Nat
  calls : AList fun _ : Nat => Phase

structure Config where
  collection : SyncCollection
  order : HashOrder
  /-- The container that is created when there is none. -/
  defaultContainer : Option DavResourceMetadata

variable (config : Config)

def Server.setCall (server : Server) (call : Nat) (phase : Phase) : Server :=
  { server with calls := server.calls.insert call phase }

def Server.setRevision (server : Server) (lock revision : Nat) : Server :=
  { server with locks := Function.update server.locks lock { server.locks lock with revision } }

def Server.release (server : Server) (lock : Nat) : Server :=
  { server with locks := Function.update server.locks lock { server.locks lock with holder := none } }

def Server.lastChangeId (server : Server) : Nat := server.log.lastChangeId.getD 0

def commit (server : Server) (changeId : Nat) (writes : List Write) : Option Server :=
  if 0 < changeId ∧ (∀ commit ∈ server.history, commit.1 < changeId) ∧ (writes.map Write.key).Nodup ∧
      writes.all (Write.isValid config.collection server.documents server.history) then
    some { server with
      documents := writes.foldl Write.apply server.documents
      log := server.log ++ [(changeId, some (entryOf writes))]
      history := server.history ++ [(changeId, entryOf writes)] }
  else none

def truncate (server : Server) (maxEntries : Nat) : Option Server :=
  some { server with log := server.log.deleteChanges maxEntries }

def evict (server : Server) : Option Server := some { server with slot := none }

/-- A call begins. When nothing is cached it builds, with a lock of its own. -/
def start (server : Server) (call : Nat) : Option Server :=
  if (server.calls.lookup call).isSome then none
  else
    match server.slot with
    | some cache => some (server.setCall call (.fetched cache))
    | none =>
      some { server.setCall call (.building (server.lastLock + 1) true) with
        locks := Function.update server.locks (server.lastLock + 1) ⟨0, none⟩
        lastLock := server.lastLock + 1 }

/-! ## Full builds -/

def emptyCache (lock changeId : Nat) : DavResources := ⟨[], [], changeId, changeId, changeId, lock⟩

def SyncCollection.isCalcard (collection : SyncCollection) : Bool :=
  decide (collection = .calendar ∨ collection = .addressBook)

def readId (server : Server) (call : Nat) : Option Server :=
  match server.calls.lookup call with
  | some (.building lock isFirstCheck) =>
    let cache := emptyCache lock server.lastChangeId
    if config.collection.isCalcard then
      some ((server.setRevision lock server.lastChangeId).setCall call
        (.buildingContainers cache isFirstCheck))
    else some (server.setCall call (.buildingItems cache))
  | _ => none

def addContainers (documents : Documents) (cache : DavResources) : DavResources :=
  (archives documents true).foldl DavResources.addContainer cache

def readContainers (server : Server) (call : Nat) : Option Server :=
  match server.calls.lookup call with
  | some (.buildingContainers cache isFirstCheck) =>
    let cache := addContainers server.documents cache
    if cache.paths = [] then
      if isFirstCheck then some (server.setCall call (.creating cache.updateLock))
      else some (server.setCall call (.built cache))
    else some (server.setCall call (.buildingItems cache))
  | _ => none

def createDefault (server : Server) (call changeId id : Nat) : Option Server :=
  match server.calls.lookup call with
  | some (.creating lock) =>
    match config.defaultContainer with
    | none => some (server.setCall call (.building lock false))
    | some data =>
      (commit config server changeId [.insert true id data]).map fun server =>
        server.setCall call (.building lock false)
  | _ => none

/-- The items of a build, and all of it for files and scheduling messages. -/
def addItems (documents : Documents) (cache : DavResources) : Option DavResources :=
  match config.collection with
  | .calendar | .addressBook =>
    some ((archives documents false).foldl (DavResources.addItem cache.resources.length) cache)
  | .fileNode =>
    (buildNestedHierarchy config.order (archives documents false)).map fun paths =>
      { cache with resources := archives documents false, paths }
  | .calendarEventNotification =>
    some (((archives documents false).map fun r => resourceFromScheduling r.documentId false)
      ++ [resourceFromScheduling scheduleInboxId true, resourceFromScheduling scheduleOutboxId true]
      |>.foldl DavResources.addScheduling cache)

def readItems (server : Server) (call : Nat) : Option Server :=
  match server.calls.lookup call with
  | some (.buildingItems cache) =>
    match addItems config server.documents cache with
    | none => some (server.setCall call .panicked)
    | some built =>
      if config.collection.isCalcard then some (server.setCall call (.built built))
      else
        some ((server.setRevision cache.updateLock cache.highestChangeId).setCall call (.built built))
  | _ => none

def publish (server : Server) (call : Nat) : Option Server :=
  match server.calls.lookup call with
  | some (.built cache) => some { server.setCall call (.returned cache) with slot := some cache }
  | _ => none

/-! ## Updates -/

def readLog (server : Server) (call : Nat) : Option Server :=
  match server.calls.lookup call with
  | some (.fetched cache) =>
    let changes := server.log.changes false (.since cache.highestChangeId)
    if changes.isTruncated then some (server.setCall call (.building cache.updateLock true))
    else if changes.changes = [] then some (server.setCall call (.returned cache))
    else some (server.setCall call (.scanned cache changes))
  | _ => none

/-- The cache that is updated, when the lock has been taken. -/
def base (server : Server) (cache : DavResources) : DavResources :=
  if (server.locks cache.updateLock).revision = cache.highestChangeId then cache
  else server.slot.getD cache

/-- The lock is taken. Nothing is left to do when the cache has been brought up to date meanwhile. -/
def acquire (server : Server) (call : Nat) : Option Server :=
  match server.calls.lookup call with
  | some (.scanned cache changes) =>
    let update := server.locks cache.updateLock
    if update.holder.isSome then none
    else if update.revision ≠ cache.highestChangeId ∧
        changes.toChangeId ≤ (server.slot.getD cache).highestChangeId then
      some (server.setCall call (.returned (server.slot.getD cache)))
    else
      some { server.setCall call (.updating cache.updateLock (base server cache) changes
          changes.changes ∅) with
        locks := Function.update server.locks cache.updateLock { update with holder := some call } }
  | _ => none

def process (documents : Documents) (updated : Updated) (change : Change) : Updated :=
  let key := (config.collection.hasNoChildren || change.isContainer, change.id)
  match change.kind with
  | .insert | .update =>
    updated.insert key (archive config.collection documents change.isContainer change.id)
  | .delete => updated.insert key none
  | .updateProperty => updated

def readNext (server : Server) (call : Nat) : Option Server :=
  match server.calls.lookup call with
  | some (.updating lock cache changes (change :: todo) updated) =>
    if config.collection = .calendarEventNotification then none
    else
      some (server.setCall call
        (.updating lock cache changes todo (process config server.documents updated change)))
  | _ => none

/-- The resources that were cached, as they are now, and what is left of `updated_resources`. -/
def keepUpdated (collection : SyncCollection) (acc : List DavResource × Updated × Bool)
    (resource : DavResource) : List DavResource × Updated × Bool :=
  let key := (collection.hasNoChildren || resource.isContainer, resource.documentId)
  match acc.2.1.lookup key with
  | none => (acc.1 ++ [resource], acc.2)
  | some (some updated) =>
    (acc.1 ++ [updated], acc.2.1.erase key, acc.2.2 || updated.hasHierarchyChanges resource)
  | some none => (acc.1, acc.2.1.erase key, true)

/-- The new cache: the paths are kept when none has changed. -/
def rebuild (cache : DavResources) (changes : Changes) (updated : Updated) : Option DavResources :=
  let kept := cache.resources.foldl (keepUpdated config.collection) ([], updated, false)
  let added := kept.2.1.entries.filterMap Sigma.snd
  let resources := kept.1 ++ added
  let paths :=
    if kept.2.2 || !added.isEmpty then
      if config.collection = .fileNode then buildNestedHierarchy config.order resources
      else some (buildSimpleHierarchy resources)
    else some cache.paths
  paths.map fun paths =>
    { paths, resources
      itemChangeId := changes.itemChangeId.getD cache.itemChangeId
      containerChangeId := changes.containerChangeId.getD cache.containerChangeId
      highestChangeId := changes.toChangeId
      updateLock := cache.updateLock }

/-- The new cache for scheduling messages: those that were inserted come first. -/
def rebuildScheduling (cache : DavResources) (changes : Changes) : DavResources :=
  let inserted := changes.changes.filterMap fun change =>
    if change.isContainer = false ∧ change.kind = .insert
    then some (resourceFromScheduling change.id false) else none
  let deleteIds := changes.changes.filterMap fun change =>
    if change.isContainer = false ∧ change.kind = .delete then some change.id else none
  let kept := cache.resources.filter fun resource => decide (resource.documentId ∉ deleteIds)
  (inserted ++ kept).foldl DavResources.addScheduling
    { cache with
      paths := []
      resources := []
      itemChangeId := changes.itemChangeId.getD cache.itemChangeId
      containerChangeId := changes.containerChangeId.getD cache.containerChangeId
      highestChangeId := changes.toChangeId }

def finish (server : Server) (call : Nat) : Option Server :=
  match server.calls.lookup call with
  | some (.updating lock cache changes todo updated) =>
    let result :=
      if config.collection = .calendarEventNotification then
        some (some (rebuildScheduling cache changes))
      else if todo = [] then some (rebuild config { cache with updateLock := lock } changes updated)
      else none
    result.map fun result =>
      match result with
      | none => (server.setCall call .panicked).release lock
      | some new =>
        { ((server.setRevision new.updateLock new.highestChangeId).setCall call
          (.returned new)).release lock with slot := some new }
  | _ => none

def fail (server : Server) (call : Nat) : Option Server :=
  match server.calls.lookup call with
  | none | some (.returned _) => none
  | some (.updating lock ..) => some ((server.setCall call .panicked).release lock)
  | some _ => some (server.setCall call .panicked)

/-! ## Steps -/

inductive Step where
  | commit (changeId : Nat) (writes : List Write)
  | truncate (maxEntries : Nat)
  | evict
  | start (call : Nat)
  | readId (call : Nat)
  | readContainers (call : Nat)
  | createDefault (call changeId id : Nat)
  | readItems (call : Nat)
  | publish (call : Nat)
  | readLog (call : Nat)
  | acquire (call : Nat)
  | readNext (call : Nat)
  | finish (call : Nat)
  | fail (call : Nat)

def step (server : Server) : Step → Option Server
  | .commit changeId writes => commit config server changeId writes
  | .truncate maxEntries => truncate server maxEntries
  | .evict => evict server
  | .start call => start server call
  | .readId call => readId config server call
  | .readContainers call => readContainers server call
  | .createDefault call changeId id => createDefault config server call changeId id
  | .readItems call => readItems config server call
  | .publish call => publish server call
  | .readLog call => readLog server call
  | .acquire call => acquire server call
  | .readNext call => readNext config server call
  | .finish call => finish config server call
  | .fail call => fail server call

def emptyServer : Server := ⟨∅, [], [], none, fun _ => ⟨0, none⟩, 0, ∅⟩

def Server.result (server : Server) (call : Nat) : Option DavResources :=
  match server.calls.lookup call with
  | some (.returned cache) => some cache
  | _ => none

def fullBuild (server : Server) : Option DavResources :=
  let cache := emptyCache 0 server.lastChangeId
  if config.collection.isCalcard then
    let containers := addContainers server.documents cache
    if containers.paths = [] then some containers
    else addItems config server.documents containers
  else addItems config server.documents cache

end Bearmail.Cache
