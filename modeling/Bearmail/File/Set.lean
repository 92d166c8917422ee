import Bearmail.Folder.Store
import Bearmail.Lib.Batch

/-!
# FileNode/set

`file_node_set` of `jmap/src/file/set.rs`: a request creates, updates and destroys any number of file
nodes. Every operation is checked against the nodes as they were before the request, with the folders
and names of the operations before it; all that is accepted is written in one batch.

An update sets the name, the parent, the time of modification and the rights. What else a request may
say of a node (its content, its type) can only be refused here. The paths of the cache are those of a
forest with distinct names, so what is below a path is given by the parents. The Unicode folding of
names is a parameter, as are `acl_validate`, the order in which the cache lists the nodes and the
orders in which a set of ids is walked.
-/

namespace Bearmail.File

open Folder (AclGrant AccessToken effectiveAcl)

/-! ## Nodes -/

structure FileNode where
  name : String
  /-- 0 for the root, or one more than the id of the parent -/
  parentId : Nat
  /-- the content of a file; a folder has none -/
  file : Option Nat
  modified : Nat
  acls : List AclGrant
  deriving DecidableEq

def FileNode.parent (node : FileNode) : Option Nat :=
  if node.parentId = 0 then none else some (node.parentId - 1)

def FileNode.isContainer (node : FileNode) : Bool := node.file.isNone

abbrev Nodes := AList fun _ : Nat => FileNode

structure Account where
  accountId : Nat
  nodes : Nodes
  lastId : Nat

def parentOf (nodes : Nodes) (id : Nat) : Option (Option Nat) :=
  (nodes.lookup id).map FileNode.parent

def climb (nodes : Nodes) : Nat → Nat → List Nat
  | 0, _ => []
  | steps + 1, id =>
    id :: match (nodes.lookup id).bind FileNode.parent with
      | none => []
      | some parent => climb nodes steps parent

def subtree (nodes : Nodes) (root : Nat) : List Nat :=
  nodes.keys.filter fun id => decide (root ∈ climb nodes nodes.keys.length id)

/-! ## Requests -/

inductive SetErrorType where
  | invalidProperties
  | forbidden
  | notFound
  | willDestroy
  | alreadyExists
  | nodeHasChildren
  | serverFail
  deriving DecidableEq

inductive Property where
  | id
  | name
  | parentId
  | other (name : String)
  deriving DecidableEq

structure SetError where
  kind : SetErrorType
  property : Option Property
  description : Option String
  existingId : Option Nat
  deriving DecidableEq

def SetError.new (kind : SetErrorType) : SetError := ⟨kind, none, none, none⟩

def SetError.invalid (property : Property) (description : String) : SetError :=
  ⟨.invalidProperties, some property, some description, none⟩

def SetError.exists (existingId : Option Nat) : SetError := ⟨.alreadyExists, none, none, existingId⟩

def SetError.described (kind : SetErrorType) (description : String) : SetError :=
  ⟨kind, none, some description, none⟩

inductive ParentRef where
  | root
  | id (id : Nat)
  /-- a node that the same request creates -/
  | created (reference : String)

structure NodeObject where
  name : Option String
  parentId : Option ParentRef
  /-- the content of a new file -/
  blobId : Option Nat
  modified : Option Nat
  shareWith : Option (List AclGrant)
  /-- any other property, or a blob, is refused -/
  refused : Option SetError

inductive OnExists where
  | reject
  | rename
  | replace
  | newest
  deriving DecidableEq

structure SetRequest where
  create : List (String × NodeObject)
  update : List (Nat × NodeObject)
  destroy : List Nat
  onDestroyRemoveChildren : Bool
  onExists : OnExists
  compareCaseInsensitively : Bool

def documentId (id : Nat) : Nat := id % 2 ^ 32

/-- What a request asks the rest of the server. -/
structure Server where
  aclValidate : List AclGrant → Option SetError
  /-- `to_lowercase` -/
  toLowercase : String → String
  toLowercase_idem : ∀ name, toLowercase (toLowercase name) = toLowercase name
  now : Nat
  /-- the nodes, as the cache lists them -/
  items : Nodes → List (Sigma fun _ : Nat => FileNode)
  items_perm : ∀ nodes, (items nodes).Perm nodes.entries
  /-- the order in which a subtree is destroyed -/
  sortIds : List Nat → List Nat
  sortIds_perm : ∀ ids, (sortIds ids).Perm ids
  /-- the order of a hash set with these ids -/
  hashOrder : List Nat → List Nat
  mem_hashOrder : ∀ ids id, id ∈ hashOrder ids ↔ id ∈ ids

/-! ## Names -/

def forbiddenNameChars : List Char := ['/', '<', '>', ':', '"', '\\', '|', '?', '*']

def forbiddenNodeNames : List String :=
  [".", "..", "CON", "PRN", "AUX", "NUL", "COM0", "COM1", "COM2", "COM3", "COM4", "COM5", "COM6",
    "COM7", "COM8", "COM9", "LPT0", "LPT1", "LPT2", "LPT3", "LPT4", "LPT5", "LPT6", "LPT7", "LPT8",
    "LPT9"]

def eqIgnoreAsciiCase (a b : String) : Bool :=
  a.toList.map Char.toLower == b.toList.map Char.toLower

def checkName (name : String) : Except SetError Unit :=
  if ¬ (1 ≤ name.utf8ByteSize ∧ name.utf8ByteSize ≤ 255) then
    .error (.invalid .name "Name must be between 1 and 255 octets.")
  else if name.toList.any fun c => decide (c ∈ forbiddenNameChars) then
    .error (.invalid .name "Name contains a forbidden character.")
  else if forbiddenNodeNames.any fun reserved => eqIgnoreAsciiCase reserved name then
    .error (.invalid .name "Name is reserved and cannot be used.")
  else .ok ()

def foldName (server : Server) (caseInsensitive : Bool) (name : String) : String :=
  if caseInsensitive then server.toLowercase name else name

def namesEqual (a b : String) (caseInsensitive : Bool) : Bool :=
  if caseInsensitive then eqIgnoreAsciiCase a b else a == b

/-- The name around the number of a copy: the part before the last dot, and the rest. -/
def splitExtension (base : List Char) : List Char × List Char :=
  let extension := base.reverse.takeWhile (· ≠ '.')
  let stem := (base.reverse.drop (extension.length + 1)).reverse
  if extension = [] ∨ stem = [] ∨ ¬ '.' ∈ base then (base, [])
  else (stem, '.' :: extension.reverse)

def candidate (base : String) (n : Nat) : String :=
  let parts := splitExtension base.toList
  String.ofList (parts.1 ++ [' ', '('] ++ Nat.toDigits 10 n ++ [')'] ++ parts.2)

/-! ## Checks -/

/-- The names of the nodes that the request has accepted, below their parents. -/
abbrev PendingNames := List ((Nat × String) × Option Nat)

section Checks

variable (server : Server) (nodes : Nodes) (request : SetRequest)

def pendingKey (node : FileNode) : Nat × String :=
  (node.parentId, foldName server request.compareCaseInsensitively node.name)

inductive Collision where
  | none
  | existing (id : Nat)
  | pending

/-- A node with the same parent and name, other than the node itself. -/
def collides (documentId : Option Nat) (node : FileNode) (item : Sigma fun _ : Nat => FileNode) :
    Bool :=
  decide (documentId ≠ some item.1) && decide (node.parent = item.2.parent) &&
    namesEqual node.name item.2.name request.compareCaseInsensitively

def findSiblingCollision (pending : PendingNames) (documentId : Option Nat) (node : FileNode) :
    Collision :=
  match (server.items nodes).find? (collides request documentId node) with
  | some item => .existing item.1
  | none =>
    if pending.any fun entry => entry.1 == pendingKey server request node then .pending else .none

def takenNames (pending : PendingNames) (documentId : Option Nat) (parentId : Nat) : List String :=
  let parent := if parentId = 0 then Option.none else some (parentId - 1)
  (((server.items nodes).filter fun item =>
      decide (documentId ≠ some item.1) && decide (parent = item.2.parent)).map
    fun item => foldName server request.compareCaseInsensitively item.2.name) ++
  ((pending.filter fun entry => entry.1.1 == parentId).map
    fun entry => foldName server request.compareCaseInsensitively entry.1.2)

/-- The first numbered name that is not taken. There are more numbers than names. -/
def pickUniqueRename (pending : PendingNames) (documentId : Option Nat) (node : FileNode) :
    Option String :=
  let taken := takenNames server nodes request pending documentId node.parentId
  ((List.range (taken.length + 1)).map fun n => candidate node.name (n + 2)).find? fun name =>
    decide (foldName server request.compareCaseInsensitively name ∉ taken)

/-- A node whose name is settled, and the node that it replaces. -/
structure Settled where
  node : FileNode
  renamed : Bool
  replaces : Option Nat

def rename (pending : PendingNames) (documentId : Option Nat) (node : FileNode) :
    Except SetError Settled :=
  match pickUniqueRename server nodes request pending documentId node with
  | some name => .ok ⟨{ node with name }, true, none⟩
  | none => .error (SetError.new .serverFail)

def replace (existing : Nat) (node : FileNode) : Except SetError Settled :=
  if 1 < (subtree nodes existing).length ∧ request.onDestroyRemoveChildren = false then
    .error (SetError.new .nodeHasChildren)
  else .ok ⟨node, false, some existing⟩

def existingModified (existing : Nat) : Nat := ((nodes.lookup existing).map FileNode.modified).getD 0

/-- What `on_exists` makes of a name that is taken. -/
def settle (pending : PendingNames) (documentId : Option Nat) (node : FileNode) :
    Except SetError Settled :=
  match findSiblingCollision server nodes request pending documentId node with
  | .none => .ok ⟨node, false, none⟩
  | .existing existing =>
    match request.onExists with
    | .newest =>
      if existingModified nodes existing < node.modified then replace nodes request existing node
      else .error (.exists (some existing))
    | .reject => .error (.exists (some existing))
    | .rename => rename server nodes request pending documentId node
    | .replace => replace nodes request existing node
  | .pending =>
    match request.onExists with
    | .rename => rename server nodes request pending documentId node
    | _ => .error (.exists ((pending.find? fun entry =>
        entry.1 == pendingKey server request node).bind Prod.snd))

def validateFileNodeHierarchy (isShared : Bool) (createdFolders : List (Nat × List AclGrant))
    (documentId : Option Nat) (node : FileNode) : Except SetError Unit :=
  match node.parent with
  | none =>
    if isShared = true ∧ documentId = none then
      .error (.invalid .parentId "Cannot create top-level folder in a shared account.")
    else .ok ()
  | some parent =>
    if documentId = some parent then
      .error (.invalid .parentId "A file node cannot be its own parent.")
    else if documentId.any fun id =>
        ((nodes.lookup id).any FileNode.isContainer) && decide (parent ∈ subtree nodes id) then
      .error (.invalid .parentId "Circular reference in parent ids.")
    else if (createdFolders.lookup parent).isNone ∧
        ((nodes.lookup parent).any FileNode.isContainer) = false then
      .error (.invalid .parentId "Parent ID does not exist or is not a folder.")
    else .ok ()

/-- What `update_file_node` says of the properties, but for the parent. -/
def checkObject (object : NodeObject) : Except SetError Unit :=
  match object.refused, object.name with
  | some error, _ => .error error
  | none, some name => checkName name
  | none, none => .ok ()

def resolveParentId (created : List (String × Nat)) (object : NodeObject) (node : FileNode) :
    Except SetError Nat :=
  match object.parentId with
  | none => .ok node.parentId
  | some .root => .ok 0
  | some (.id id) => .ok ((documentId id + 1) % 2 ^ 32)
  | some (.created reference) =>
    match created.lookup reference with
    | some id => .ok (id + 1)
    | none => .error (.invalid .parentId ("Id reference \"" ++ reference ++ "\" not found."))

def updateFileNode (created : List (String × Nat)) (object : NodeObject) (node : FileNode) :
    Except SetError FileNode := do
  checkObject object
  let parentId ← resolveParentId created object node
  let name := object.name.getD node.name
  if name.isEmpty then .error (.invalid .name "Missing name.")
  else
    .ok { name
          parentId
          file := if object.blobId.isSome then object.blobId else node.file
          modified := object.modified.getD node.modified
          acls := object.shareWith.getD node.acls }

end Checks

/-! ## Writes -/

/-- A write of a node, or its removal, with the node that it expects. -/
structure Write where
  id : Nat
  node : Option FileNode
  expected : Option FileNode

def Write.apply (nodes : Nodes) (write : Write) : Option Nodes :=
  if write.expected.isSome ∧ nodes.lookup write.id ≠ write.expected then none
  else
    match write.node with
    | some node => some (nodes.insert write.id node)
    | none => some (nodes.erase write.id)

/-! ## The request -/

structure SetRun where
  lastId : Nat
  created : List (String × Nat)
  createdFolders : List (Nat × List AclGrant)
  pending : PendingNames
  implicitDestroys : List Nat
  updated : List Nat
  writes : List Write
  notCreated : List (String × SetError)
  notUpdated : List (Nat × SetError)

section Request

variable (server : Server) (token : AccessToken) (account : Account) (request : SetRequest)

def validateAcls (node : FileNode) : Except SetError FileNode :=
  if node.acls = [] then .ok node
  else
    match server.aclValidate node.acls with
    | some error => .error error
    | none => .ok node

/-- The rights of a new node, which are those of its parent unless the request sets them. -/
def inheritAcls (run : SetRun) (object : NodeObject) (node : FileNode) : Except SetError FileNode :=
  match node.parent with
  | none => validateAcls server node
  | some parent =>
    let parentAcls := (run.createdFolders.lookup parent).or
      (((account.nodes.lookup parent).filter FileNode.isContainer).map FileNode.acls)
    if object.shareWith.isNone then
      validateAcls server { node with acls := parentAcls.getD node.acls }
    else if token.isShared account.accountId ∧
        ¬ parentAcls.any fun acls => effectiveAcl acls token .share then
      .error (.described .forbidden "You are not allowed to share this file node.")
    else validateAcls server node

def prepareCreate (run : SetRun) (object : NodeObject) : Except SetError Settled := do
  let node ← updateFileNode run.created object ⟨"", 0, none, 0, []⟩
  validateFileNodeHierarchy account.nodes (token.isShared account.accountId) run.createdFolders none node
  let node := if node.modified = 0 then { node with modified := server.now } else node
  settle server account.nodes request run.pending none node

def createStep (run : SetRun) (entry : String × NodeObject) : SetRun :=
  match prepareCreate server token account request run entry.2 with
  | .error error => { run with notCreated := run.notCreated ++ [(entry.1, error)] }
  | .ok settled =>
    let run := { run with implicitDestroys := run.implicitDestroys ++ settled.replaces.toList }
    match inheritAcls server token account run entry.2 settled.node with
    | .error error => { run with notCreated := run.notCreated ++ [(entry.1, error)] }
    | .ok node =>
      let id := run.lastId + 1
      { run with
        lastId := id
        created := (entry.1, id) :: run.created
        createdFolders :=
          if node.isContainer then (id, node.acls) :: run.createdFolders else run.createdFolders
        pending := (pendingKey server request node, none) :: run.pending
        writes := run.writes ++ [⟨id, some node, none⟩] }

/-- The rights that an update of a shared node needs. -/
def checkUpdateAcl (current : FileNode) (object : NodeObject) (node : FileNode) :
    Except SetError Unit :=
  if token.isShared account.accountId ∧ (effectiveAcl current.acls token .modify = false ∨
      object.shareWith.isSome ∧ effectiveAcl current.acls token .share = false) then
    .error (.described .forbidden "You are not allowed to modify this file node.")
  else if object.shareWith.isSome then
    match server.aclValidate node.acls with
    | some error => .error error
    | none => .ok ()
  else .ok ()

def prepareUpdate (run : SetRun) (entry : Nat × NodeObject) :
    Except SetError (FileNode × Settled) :=
  if entry.1 ∈ request.destroy ∨ documentId entry.1 ∈ run.implicitDestroys then
    .error (SetError.new .willDestroy)
  else
    match account.nodes.lookup (documentId entry.1) with
    | none => .error (SetError.new .notFound)
    | some current => do
      -- the content of a node is not changed here
      let node ← updateFileNode run.created { entry.2 with blobId := none } current
      validateFileNodeHierarchy account.nodes (token.isShared account.accountId) run.createdFolders
        (some (documentId entry.1)) node
      let settled ← settle server account.nodes request run.pending (some (documentId entry.1)) node
      return (current, settled)

def updateStep (run : SetRun) (entry : Nat × NodeObject) : SetRun :=
  match prepareUpdate server token account request run entry with
  | .error error => { run with notUpdated := run.notUpdated ++ [(entry.1, error)] }
  | .ok (current, settled) =>
    let run := { run with implicitDestroys := run.implicitDestroys ++ settled.replaces.toList }
    match checkUpdateAcl server token account current entry.2 settled.node with
    | .error error => { run with notUpdated := run.notUpdated ++ [(entry.1, error)] }
    | .ok _ =>
      let node := if entry.2.modified.isSome then settled.node
        else { settled.node with modified := server.now }
      { run with
        updated := run.updated ++ [entry.1]
        pending := (pendingKey server request settled.node, some (documentId entry.1)) :: run.pending
        writes := run.writes ++ [⟨documentId entry.1, some node, some current⟩] }

structure DestroyRun where
  marked : List Nat
  destroyed : List Nat
  notDestroyed : List (Nat × SetError)
  writes : List Write

/-- Mark ids up to the first that is marked, and whether there was none. -/
def mark : List Nat → List Nat → List Nat × Bool
  | marked, [] => (marked, true)
  | marked, id :: ids => if id ∈ marked then (marked, false) else mark (id :: marked) ids

def destroyStep (run : DestroyRun) (id : Nat) : DestroyRun :=
  match account.nodes.lookup (documentId id) with
  | none => { run with notDestroyed := run.notDestroyed ++ [(id, SetError.new .notFound)] }
  | some _ =>
    let ids := server.sortIds (subtree account.nodes (documentId id))
    let marked := mark run.marked ids
    let run := { run with marked := marked.1 }
    if marked.2 = false then
      { run with
        notDestroyed := run.notDestroyed ++ [(id, .described .willDestroy
          "File node or one of its children is already marked for deletion.")] }
    else if token.isMember account.accountId = false ∧ ¬ ids.all fun id =>
        (account.nodes.lookup id).any fun node => effectiveAcl node.acls token .delete then
      { run with
        notDestroyed := run.notDestroyed ++ [(id, .described .forbidden
          "You are not allowed to delete this file node.")] }
    else if 1 < ids.length ∧ request.onDestroyRemoveChildren = false then
      { run with notDestroyed := run.notDestroyed ++ [(id, SetError.new .nodeHasChildren)] }
    else
      { run with
        destroyed := run.destroyed ++ ids
        writes := run.writes ++ ids.map fun id => ⟨id, none, account.nodes.lookup id⟩ }

def acceptedRun : SetRun :=
  request.update.foldl (updateStep server token account request)
    (request.create.foldl (createStep server token account request)
      ⟨account.lastId, [], [], [], [], [], [], [], []⟩)

/-- What is destroyed: as asked for, and what is replaced. -/
def willDestroy : List Nat :=
  (server.hashOrder (acceptedRun server token account request).implicitDestroys).foldl
    (fun ids id => if id ∈ ids then ids else ids ++ [id]) request.destroy

def destroyRun : DestroyRun :=
  (willDestroy server token account request).foldl (destroyStep server token account request)
    ⟨[], [], [], []⟩

def batch : List Write :=
  (acceptedRun server token account request).writes ++ (destroyRun server token account request).writes

structure SetResponse where
  created : List (String × Nat)
  updated : List Nat
  destroyed : List Nat
  notCreated : List (String × SetError)
  notUpdated : List (Nat × SetError)
  notDestroyed : List (Nat × SetError)

/-- `file_node_set`, where a batch is cut into transactions when it is large. A batch that cannot be
written ends the request with an error. -/
def fileNodeSet (isLarge : List Write → Bool) : Account × Option SetResponse :=
  let run := acceptedRun server token account request
  let destroyed := destroyRun server token account request
  let written := Batch.commit Write.apply isLarge account.nodes (batch server token account request)
  ({ account with nodes := written.1, lastId := run.lastId },
    if written.2 then
      some ⟨run.created, run.updated, destroyed.destroyed, run.notCreated, run.notUpdated,
        destroyed.notDestroyed⟩
    else none)

end Request

end Bearmail.File
