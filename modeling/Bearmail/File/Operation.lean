import Bearmail.File.Destroy
import Bearmail.Folder.Set

/-!
# One operation on file nodes

The creates and the updates of a request, one by one: what a request asks for, and what is true of a
node that has passed the checks.
-/

namespace Bearmail.File

open Parents Folder
open List Option

/-- The parents form a forest whose inner nodes are folders, and siblings have different names. -/
structure Sound (account : Account) : Prop where
  below : ∀ id, account.nodes.lookup id ≠ none → id ≤ account.lastId
  forest : Forest (parentOf account.nodes)
  folders : ∀ id p, IsParent (parentOf account.nodes) id p →
    ∃ folder, account.nodes.lookup p = some folder ∧ folder.isContainer = true
  names : ∀ id id' node node', account.nodes.lookup id = some node →
    account.nodes.lookup id' = some node' → node.parent = node'.parent → node.name = node'.name →
    id = id'

/-! ## What a request asks for -/

/-- A node in a request: one that is there, or one that the request creates. -/
inductive Place where
  | node (id : Nat)
  | created (reference : String)

def parentNumber (parentId : Nat) : Option Nat :=
  if parentId = 0 then none else some (parentId - 1)

def ParentRef.place : ParentRef → Option Place
  | .root => none
  | .id number => (parentNumber ((documentId number + 1) % 2 ^ 32)).map .node
  | .created reference => some (.created reference)

/-- The updates that are not refused for what the request destroys. -/
def SetRequest.kept (request : SetRequest) (entries : List (Nat × NodeObject)) :
    List (Nat × NodeObject) :=
  entries.filter fun entry => decide (entry.1 ∉ request.destroy)

def SetRequest.updates (request : SetRequest) : List (Nat × NodeObject) :=
  request.kept request.update

def updatedIds (entries : List (Nat × NodeObject)) : List Nat :=
  entries.map fun entry => documentId entry.1

/-- A node where the request asks for it, when that is not below a node that it creates. -/
def aimed (object : NodeObject) (node : FileNode) : Option FileNode :=
  let named := { node with name := object.name.getD node.name }
  match object.parentId with
  | none => some named
  | some .root => some { named with parentId := 0 }
  | some (.id id) => some { named with parentId := (documentId id + 1) % 2 ^ 32 }
  | some (.created _) => none

abbrev Aim := Option Nat × FileNode

def createAim (entry : String × NodeObject) : Option Aim :=
  (aimed entry.2 ⟨"", 0, none, 0, []⟩).map (Prod.mk none)

def updateAim (nodes : Nodes) (entry : Nat × NodeObject) : Option Aim :=
  (nodes.lookup (documentId entry.1)).bind fun node =>
    (aimed entry.2 node).map (Prod.mk (some (documentId entry.1)))

/-- The places and names that a request asks for, in the order of its operations. -/
def aims (nodes : Nodes) (request : SetRequest) : List Aim :=
  request.create.filterMap createAim ++ request.updates.filterMap (updateAim nodes)

def SetRequest.Replacing (request : SetRequest) : Prop :=
  request.onExists = .replace ∨ request.onExists = .newest

/-- The parent that a node has, or that the request asks for it. A move that goes below the node itself
is refused. A number that is not in use may be that of a node which the request creates. -/
inductive Above (account : Account) (request : SetRequest) : Place → Place → Prop
  | stays {id p : Nat} (h : IsParent (parentOf account.nodes) id p) :
    Above account request (.node id) (.node p)
  | moves {id : Nat} {object : NodeObject} {ref : ParentRef} {place : Place}
    (h : (id, object) ∈ request.updates) (href : object.parentId = some ref)
    (hplace : ref.place = some place)
    (hoff : ∀ p, place = .node p → p ∉ subtree account.nodes (documentId id)) :
    Above account request (.node (documentId id)) place
  | creates {reference : String} {object : NodeObject} {ref : ParentRef} {place : Place}
    (h : (reference, object) ∈ request.create) (href : object.parentId = some ref)
    (hplace : ref.place = some place) : Above account request (.created reference) place
  | number {id : Nat} {reference : String} {object : NodeObject} (hid : account.lastId < id)
    (h : (reference, object) ∈ request.create) :
    Above account request (.node id) (.created reference)

variable {server : Server} {nodes : Nodes} {request : SetRequest}

/-! ## Names -/

theorem FileNode.parent_congr {node node' : FileNode} (h : node.parentId = node'.parentId) :
    node.parent = node'.parent := by
  rw [FileNode.parent, FileNode.parent, h]

variable {p : Nat} {item : Sigma fun _ : Nat => FileNode} {created : List (String × Nat)}
  {object : NodeObject} {changed : FileNode} {run : SetRun}

theorem FileNode.parentId_eq {node node' : FileNode} (h : node.parent = node'.parent) :
    node.parentId = node'.parentId := by
  rw [FileNode.parent, FileNode.parent] at h
  split at h
  · split at h
    · omega
    · cases h
  · split at h
    · cases h
    · rw [Option.some.injEq] at h
      omega

theorem collides_congr {documentId : Option Nat} {node node' : FileNode}
    (hname : node'.name = node.name) (hparent : node'.parentId = node.parentId)
    (item : Sigma fun _ : Nat => FileNode) :
    collides request documentId node' item = collides request documentId node item := by
  rw [collides, collides, hname, FileNode.parent_congr hparent]

theorem namesEqual_refl (name : String) (caseInsensitive : Bool) :
    namesEqual name name caseInsensitive = true := by
  rw [namesEqual]
  split
  · exact beq_self_eq_true _
  · exact beq_self_eq_true _

theorem collides_of_eq {documentId : Option Nat} {node : FileNode} (hne : documentId ≠ some item.1)
    (hparent : node.parent = item.2.parent) (hname : node.name = item.2.name) :
    collides request documentId node item = true := by
  rw [collides, hname, namesEqual_refl, Bool.and_true, Bool.and_eq_true, decide_eq_true_eq,
    decide_eq_true_eq]
  exact ⟨hne, hparent⟩

theorem foldName_idem (caseInsensitive : Bool) (name : String) :
    foldName server caseInsensitive (foldName server caseInsensitive name) =
      foldName server caseInsensitive name := by
  cases caseInsensitive with
  | false => rfl
  | true => exact server.toLowercase_idem name

/-- A name that is not taken, by a node or by an operation before it. Where nodes are replaced it is
compared as the request asks for. -/
def Free (server : Server) (nodes : Nodes) (request : SetRequest) (pending : PendingNames)
    (documentId : Option Nat) (node : FileNode) : Prop :=
  (∀ item ∈ nodes.entries, documentId ≠ some item.1 → node.parent = item.2.parent →
    node.name ≠ item.2.name) ∧
  (request.Replacing → ∀ item ∈ nodes.entries, collides request documentId node item ≠ true) ∧
  ∀ entry ∈ pending, entry.1 ≠ pendingKey server request node

theorem mem_items : item ∈ server.items nodes ↔ item ∈ nodes.entries :=
  (server.items_perm nodes).mem_iff

theorem free_of_collision_none {pending : PendingNames} {documentId : Option Nat} {node : FileNode}
    (h : findSiblingCollision server nodes request pending documentId node = .none) :
    Free server nodes request pending documentId node := by
  rw [findSiblingCollision] at h
  split at h
  · cases h
  · rename_i hfind
    rw [List.find?_eq_none] at hfind
    split at h
    · cases h
    · rename_i hpending
      refine ⟨?_, fun _ item hitem => hfind item (mem_items.mpr hitem), ?_⟩
      · intro item hitem hne hparent hname
        exact hfind item (mem_items.mpr hitem) (collides_of_eq hne hparent hname)
      · intro entry hentry heq
        exact hpending (List.any_eq_true.mpr ⟨entry, hentry, beq_iff_eq.mpr heq⟩)

theorem free_of_pickUniqueRename {pending : PendingNames} {documentId : Option Nat}
    {node : FileNode} {name : String} (hpolicy : request.onExists = .rename)
    (h : pickUniqueRename server nodes request pending documentId node = some name) :
    Free server nodes request pending documentId { node with name } := by
  have hfree := List.find?_some h
  rw [decide_eq_true_eq, takenNames, mem_append, not_or] at hfree
  refine ⟨?_, ?_, ?_⟩
  · rintro item hitem hne hparent rfl
    refine hfree.1 (List.mem_map_of_mem (mem_filter.mpr ⟨mem_items.mpr hitem, ?_⟩))
    rw [Bool.and_eq_true, decide_eq_true_eq, decide_eq_true_eq]
    exact ⟨hne, hparent⟩
  · rintro (hreplace | hnewest)
    · rw [hpolicy] at hreplace
      cases hreplace
    · rw [hpolicy] at hnewest
      cases hnewest
  · intro entry hentry heq
    refine hfree.2 (List.mem_map.mpr ⟨entry, mem_filter.mpr ⟨hentry, ?_⟩, ?_⟩)
    · rw [heq]
      exact beq_self_eq_true _
    · rw [heq]
      exact foldName_idem _ _

/-- A name that is settled is free, or it is that of a node that is replaced. -/
def Settles (server : Server) (nodes : Nodes) (request : SetRequest) (pending : PendingNames)
    (documentId : Option Nat) (node : FileNode) (settled : Settled) : Prop :=
  settled.node = { node with name := settled.node.name } ∧
    ((settled.replaces = none ∧ Free server nodes request pending documentId settled.node) ∨
      (request.Replacing ∧ settled.node = node ∧ ∃ item ∈ nodes.entries,
        settled.replaces = some item.1 ∧ collides request documentId node item = true))

section Settle

variable {pending : PendingNames} {documentId : Option Nat} {node : FileNode} {settled : Settled}

theorem settles_rename (hpolicy : request.onExists = .rename)
    (h : rename server nodes request pending documentId node = .ok settled) :
    Settles server nodes request pending documentId node settled := by
  rw [rename] at h
  split at h
  · rename_i name hname
    cases h
    exact ⟨rfl, Or.inl ⟨rfl, free_of_pickUniqueRename hpolicy hname⟩⟩
  · cases h

theorem settles_replace (hreplacing : request.Replacing) (hitem : item ∈ nodes.entries)
    (hcollides : collides request documentId node item = true)
    (h : replace nodes request item.1 node = .ok settled) :
    Settles server nodes request pending documentId node settled := by
  rw [replace] at h
  split at h
  · cases h
  · cases h
    exact ⟨rfl, Or.inr ⟨hreplacing, rfl, item, hitem, rfl, hcollides⟩⟩

theorem existing_collides {existing : Nat}
    (h : findSiblingCollision server nodes request pending documentId node = .existing existing) :
    ∃ item ∈ nodes.entries, existing = item.1 ∧ collides request documentId node item = true := by
  rw [findSiblingCollision] at h
  split at h
  · rename_i item hfind
    cases h
    exact ⟨item, mem_items.mp (List.mem_of_find?_eq_some hfind), rfl, List.find?_some hfind⟩
  · split at h
    · cases h
    · cases h

theorem settles_settle (h : settle server nodes request pending documentId node = .ok settled) :
    Settles server nodes request pending documentId node settled := by
  unfold settle at h
  cases hcollision : findSiblingCollision server nodes request pending documentId node with
  | none =>
    rw [hcollision] at h
    cases h
    exact ⟨rfl, Or.inl ⟨rfl, free_of_collision_none hcollision⟩⟩
  | existing existing =>
    rw [hcollision] at h
    obtain ⟨item, hitem, rfl, hcollides⟩ := existing_collides hcollision
    cases hpolicy : request.onExists with
    | newest =>
      simp only [hpolicy] at h
      split at h
      · exact settles_replace (Or.inr hpolicy) hitem hcollides h
      · cases h
    | reject =>
      simp only [hpolicy] at h
      cases h
    | rename =>
      simp only [hpolicy] at h
      exact settles_rename hpolicy h
    | replace =>
      simp only [hpolicy] at h
      exact settles_replace (Or.inl hpolicy) hitem hcollides h
  | pending =>
    rw [hcollision] at h
    cases hpolicy : request.onExists with
    | rename =>
      simp only [hpolicy] at h
      exact settles_rename hpolicy h
    | newest | reject | replace => simp only [hpolicy] at h; cases h

end Settle

/-! ## Parents -/

/-- The node that a place stands for, with the nodes created so far. -/
def Denotes (created : List (String × Nat)) (place : Place) (id : Nat) : Prop :=
  place = .node id ∨ ∃ reference, place = .created reference ∧ (reference, id) ∈ created

theorem updateFileNode_eq_ok {node : FileNode} (h : updateFileNode created object node = .ok changed) :
    changed.name = object.name.getD node.name ∧
      changed.file = (if object.blobId.isSome then object.blobId else node.file) ∧
      resolveParentId created object node = .ok changed.parentId := by
  obtain ⟨_, _, h⟩ := Fallible.bind_eq_ok.mp h
  obtain ⟨parentId, hparent, h⟩ := Fallible.bind_eq_ok.mp h
  dsimp only at h
  split at h
  · cases h
  · cases h
    exact ⟨rfl, rfl, hparent⟩

theorem mem_of_lookup {α β : Type} [BEq α] [LawfulBEq α] {entries : List (α × β)} {key : α}
    {value : β} (h : entries.lookup key = some value) : (key, value) ∈ entries := by
  obtain ⟨before, after, rfl, -⟩ := lookup_eq_some_iff.mp h
  exact mem_append_right _ mem_cons_self

/-- A node goes where the request asks for it, or below a node that the request has created. -/
theorem aimed_of_updateFileNode {node : FileNode}
    (h : updateFileNode created object node = .ok changed) :
    (∃ aim, aimed object node = some aim ∧ aim.name = changed.name ∧ aim.parentId = changed.parentId) ∨
    ∃ reference id, (reference, id) ∈ created ∧ changed.parent = some id := by
  obtain ⟨hname, -, hparent⟩ := updateFileNode_eq_ok h
  rw [resolveParentId] at hparent
  rw [aimed]
  cases hobject : object.parentId with
  | none =>
    simp only [hobject, Except.ok.injEq] at hparent
    exact Or.inl ⟨_, rfl, hname.symm, hparent⟩
  | some ref =>
    rw [hobject] at hparent
    cases ref with
    | root | id id =>
      simp only [Except.ok.injEq] at hparent
      exact Or.inl ⟨_, rfl, hname.symm, hparent⟩
    | created reference =>
      cases hlookup : created.lookup reference with
      | none => simp [hlookup] at hparent
      | some id =>
        simp only [hlookup, Except.ok.injEq] at hparent
        refine Or.inr ⟨reference, id, mem_of_lookup hlookup, ?_⟩
        rw [FileNode.parent, ← hparent]
        simp

theorem denotes_of_updateFileNode {node : FileNode}
    (h : updateFileNode created object node = .ok changed) (hp : changed.parent = some p) :
    (object.parentId = none ∧ node.parent = some p) ∨
      ∃ ref place, object.parentId = some ref ∧ ref.place = some place ∧
        Denotes created place p := by
  obtain ⟨-, -, hparent⟩ := updateFileNode_eq_ok h
  rw [resolveParentId] at hparent
  rw [FileNode.parent] at hp
  cases hobject : object.parentId with
  | none =>
    simp only [hobject, Except.ok.injEq] at hparent
    refine Or.inl ⟨rfl, ?_⟩
    rw [FileNode.parent, hparent]
    exact hp
  | some ref =>
    rw [hobject] at hparent
    cases ref with
    | root =>
      simp only [Except.ok.injEq] at hparent
      rw [← hparent] at hp
      cases hp
    | id id =>
      simp only [Except.ok.injEq] at hparent
      refine Or.inr ⟨_, .node p, rfl, ?_, Or.inl rfl⟩
      rw [ParentRef.place, parentNumber, hparent, hp, map_some]
    | created reference =>
      cases hlookup : created.lookup reference with
      | none => simp [hlookup] at hparent
      | some id =>
        simp only [hlookup, Except.ok.injEq] at hparent
        rw [← hparent] at hp
        simp only [Nat.add_one_ne_zero, if_false, Nat.add_sub_cancel, Option.some.injEq] at hp
        exact Or.inr ⟨_, _, rfl, rfl, Or.inr ⟨reference, rfl, hp ▸ mem_of_lookup hlookup⟩⟩

theorem validateFileNodeHierarchy_eq_ok {isShared : Bool}
    {createdFolders : List (Nat × List AclGrant)} {documentId : Option Nat} {node : FileNode}
    (h : validateFileNodeHierarchy nodes isShared createdFolders documentId node = .ok ())
    (hp : node.parent = some p) :
    documentId ≠ some p ∧
      (∀ id, documentId = some id → (nodes.lookup id).any FileNode.isContainer = true →
        p ∉ subtree nodes id) ∧
      ((∃ acls, (p, acls) ∈ createdFolders) ∨ (nodes.lookup p).any FileNode.isContainer = true) := by
  rw [validateFileNodeHierarchy, hp] at h
  dsimp only at h
  split at h
  · cases h
  rename_i hself
  split at h
  · cases h
  rename_i hcircle
  split at h
  · cases h
  rename_i hfolder
  refine ⟨hself, ?_, ?_⟩
  · rintro id rfl hcontainer hmem
    refine hcircle ?_
    rw [any_some, hcontainer, Bool.true_and, decide_eq_true_eq]
    exact hmem
  · by_contra hno
    rw [not_or] at hno
    refine hfolder ⟨?_, Bool.not_eq_true _ ▸ hno.2⟩
    cases hlookup : createdFolders.lookup p with
    | none => rfl
    | some acls => exact absurd ⟨acls, mem_of_lookup hlookup⟩ hno.1

/-! ## One operation -/

def Replaces (nodes : Nodes) (request : SetRequest) (aim : Option Aim) (replaced : List Nat) : Prop :=
  replaced = [] ∨ (request.Replacing ∧ ∃ item ∈ nodes.entries, replaced = [item.1] ∧
    ∃ a, aim = some a ∧ collides request a.1 a.2 item = true)

/-- A node that is accepted: its name is free, or it replaces the node that an aim meets. -/
def Fits (server : Server) (nodes : Nodes) (request : SetRequest) (pending : PendingNames)
    (aim : Option Aim) (documentId : Option Nat) (node : FileNode) (replaced : List Nat) : Prop :=
  (replaced = [] ∧ Free server nodes request pending documentId node) ∨
    (request.Replacing ∧ ∃ item ∈ nodes.entries, replaced = [item.1] ∧
      ∃ a, aim = some a ∧ a.1 = documentId ∧ a.2.name = node.name ∧ a.2.parentId = node.parentId ∧
        collides request a.1 a.2 item = true)

def HasPlace (account : Account) (request : SetRequest) (run : SetRun) (place : Place)
    (node : FileNode) : Prop :=
  ∀ p, node.parent = some p → ((∃ acls, (p, acls) ∈ run.createdFolders) ∨
      (account.nodes.lookup p).any FileNode.isContainer = true) ∧
    ∃ above, Above account request place above ∧ Denotes run.created above p

/-- The parent of a node that is accepted is that of an aim, unless the request creates it. -/
def Asked (account : Account) (aim : Option Aim) (node : FileNode) : Prop :=
  (∃ a, aim = some a ∧ a.2.parentId = node.parentId) ∨ ∃ p, node.parent = some p ∧ account.lastId < p

section Operations

variable {token : AccessToken} {account : Account} {pending : PendingNames} {aim : Option Aim}
  {target : Option Nat} {node node' : FileNode} {replaced : List Nat}

variable (h : Fits server nodes request pending aim target node replaced)
include h

theorem Fits.replaces :
    Replaces nodes request aim replaced := by
  rcases h with ⟨hnone, -⟩ | ⟨hreplacing, item, hitem, heq, a, ha, -, -, -, hcollides⟩
  · exact Or.inl hnone
  · exact Or.inr ⟨hreplacing, item, hitem, heq, a, ha, hcollides⟩

theorem Fits.congr (hname : node'.name = node.name) (hparent : node'.parentId = node.parentId) :
    Fits server nodes request pending aim target node' replaced := by
  rcases h with ⟨hnone, hitems, hmeets, hpending⟩ | ⟨hreplacing, item, hitem, heq, a, ha, hdoc, h₁, h₂, h₃⟩
  · refine Or.inl ⟨hnone, ?_, ?_, ?_⟩
    · rw [FileNode.parent_congr hparent, hname]
      exact hitems
    · intro hreplacing item hitem
      rw [collides_congr hname hparent]
      exact hmeets hreplacing item hitem
    · rw [pendingKey, hname, hparent]
      exact hpending
  · exact Or.inr ⟨hreplacing, item, hitem, heq, a, ha, hdoc, h₁.trans hname.symm,
      h₂.trans hparent.symm, h₃⟩

omit h

theorem HasPlace.congr {place : Place} (h : HasPlace account request run place node)
    (hparent : node'.parentId = node.parentId) : HasPlace account request run place node' := by
  intro p hp
  rw [FileNode.parent_congr hparent] at hp
  exact h p hp

theorem Asked.congr (h : Asked account aim node) (hparent : node'.parentId = node.parentId) :
    Asked account aim node' := by
  rcases h with ⟨a, ha, hsame⟩ | ⟨p, hp, hlt⟩
  · exact Or.inl ⟨a, ha, hsame.trans hparent.symm⟩
  · exact Or.inr ⟨p, (FileNode.parent_congr hparent).trans hp, hlt⟩

theorem asked_of_updateFileNode (hcreated : ∀ entry ∈ created, account.lastId < entry.2)
    {base : FileNode} (h : updateFileNode created object base = .ok node)
    (haim : ∀ a, aimed object base = some a → aim = some (target, a)) : Asked account aim node := by
  rcases aimed_of_updateFileNode h with ⟨a, ha, -, hparent⟩ | ⟨reference, id, hmem, hid⟩
  · exact Or.inl ⟨_, haim a ha, hparent⟩
  · exact Or.inr ⟨id, hid, hcreated _ hmem⟩

theorem parent_ne_of_fresh (hsound : Sound account) {id : Nat} (hid : account.lastId < id)
    (hitem : item ∈ account.nodes.entries) : item.2.parent ≠ some id := by
  intro hparent
  have hp : IsParent (parentOf account.nodes) item.1 id := by
    rw [isParent_iff, AList.mem_lookup_iff.mpr hitem, bind_some, hparent]
  obtain ⟨folder, hfolder, -⟩ := hsound.folders item.1 id hp
  have hle := hsound.below id (hfolder ▸ some_ne_none _)
  omega

theorem fits_of_settles (hsound : Sound account)
    (hcreated : ∀ entry ∈ created, account.lastId < entry.2) {base : FileNode}
    (hchanged : updateFileNode created object base = .ok changed) (hname : node.name = changed.name)
    (hparent : node.parentId = changed.parentId) {settled : Settled}
    (hsettles : Settles server account.nodes request pending target node settled)
    (haim : ∀ a, aimed object base = some a → aim = some (target, a)) :
    Fits server account.nodes request pending aim target settled.node
      settled.replaces.toList := by
  obtain ⟨-, ⟨hnone, hfree⟩ | ⟨hreplacing, hnode, item, hitem, hsome, hcollides⟩⟩ := hsettles
  · refine Or.inl ⟨?_, hfree⟩
    rw [hnone, toList_none]
  · refine Or.inr ⟨hreplacing, item, hitem, ?_, ?_⟩
    · rw [hsome, toList_some]
    rcases aimed_of_updateFileNode hchanged with ⟨a, ha, haname, haparent⟩ | ⟨ref, id, hmem, hid⟩
    · have hsame := haparent.trans hparent.symm
      refine ⟨(target, a), haim a ha, rfl, ?_, ?_, ?_⟩
      · rw [hnode, hname]
        exact haname
      · rw [hnode]
        exact hsame
      · rw [collides_congr (haname.trans hname.symm) hsame]
        exact hcollides
    · -- a node below a new folder meets no node that is there
      rw [collides, Bool.and_eq_true, Bool.and_eq_true, decide_eq_true_eq, decide_eq_true_eq] at hcollides
      have hmeets := hcollides.1.2.symm
      rw [FileNode.parent_congr hparent, hid] at hmeets
      exact absurd hmeets (parent_ne_of_fresh hsound (hcreated _ hmem) hitem)

theorem validateAcls_eq_ok (h : validateAcls server node = .ok node') : node' = node := by
  rw [validateAcls] at h
  split at h
  · cases h
    rfl
  · split at h
    · cases h
    · cases h
      rfl

theorem inheritAcls_eq_ok (h : inheritAcls server token account run object node = .ok node') :
    node' = { node with acls := node'.acls } := by
  rw [inheritAcls] at h
  split at h
  · rw [validateAcls_eq_ok h]
  · dsimp only at h
    split at h
    · rw [validateAcls_eq_ok h]
    · split at h
      · cases h
      · rw [validateAcls_eq_ok h]

theorem createStep_cases (hsound : Sound account)
    (hcreated : ∀ entry ∈ run.created, account.lastId < entry.2) {entry : String × NodeObject}
    (hentry : entry ∈ request.create) :
    (∃ replaced notCreated, Replaces account.nodes request (createAim entry) replaced ∧
      createStep server token account request run entry =
        { run with
          implicitDestroys := run.implicitDestroys ++ replaced
          notCreated }) ∨
    ∃ node replaced, Fits server account.nodes request run.pending (createAim entry) none node replaced ∧
      HasPlace account request run (.created entry.1) node ∧
      Asked account (createAim entry) node ∧
      createStep server token account request run entry =
        { run with
          lastId := run.lastId + 1
          created := (entry.1, run.lastId + 1) :: run.created
          createdFolders :=
            if node.isContainer then (run.lastId + 1, node.acls) :: run.createdFolders
            else run.createdFolders
          implicitDestroys := run.implicitDestroys ++ replaced
          pending := (pendingKey server request node, none) :: run.pending
          writes := run.writes ++ [⟨run.lastId + 1, some node, none⟩] } := by
  unfold createStep
  cases hprepare : prepareCreate server token account request run entry.2 with
  | error error =>
    refine Or.inl ⟨[], run.notCreated ++ [(entry.1, error)], Or.inl rfl, ?_⟩
    simp
  | ok settled =>
    obtain ⟨changed, hchanged, hprepare⟩ := Fallible.bind_eq_ok.mp hprepare
    obtain ⟨_, hvalid, hsettle⟩ := Fallible.bind_eq_ok.mp hprepare
    -- the time of modification changes neither the name nor the parent
    have hbase : ∀ base : FileNode, base = (if changed.modified = 0 then
        { changed with modified := server.now } else changed) →
        base.name = changed.name ∧ base.parentId = changed.parentId := by
      rintro base rfl
      split
      · exact ⟨rfl, rfl⟩
      · exact ⟨rfl, rfl⟩
    obtain ⟨hname, hparent⟩ := hbase _ rfl
    have hsettles := settles_settle hsettle
    have haim : ∀ a, aimed entry.2 ⟨"", 0, none, 0, []⟩ = some a →
        createAim entry = some (none, a) := fun a ha => by simp [createAim, ha]
    have hfits := fits_of_settles hsound hcreated hchanged hname hparent hsettles haim
    have hsettled : settled.node.parentId = changed.parentId := by
      rw [hsettles.1]
      exact hparent
    dsimp only
    cases hinherit : inheritAcls server token account
        { run with implicitDestroys := run.implicitDestroys ++ settled.replaces.toList } entry.2
        settled.node with
    | error error => exact Or.inl ⟨_, _, hfits.replaces, rfl⟩
    | ok node =>
      have hnode := inheritAcls_eq_ok hinherit
      have hnodeName : node.name = settled.node.name := by rw [hnode]
      have hnodeParent : node.parentId = settled.node.parentId := by rw [hnode]
      have hplace : HasPlace account request run (.created entry.1) changed := by
        intro p hp
        refine ⟨(validateFileNodeHierarchy_eq_ok hvalid hp).2.2, ?_⟩
        rcases denotes_of_updateFileNode hchanged hp with ⟨-, hroot⟩ | ⟨ref, place, href, hplace, hden⟩
        · cases hroot
        · exact ⟨place, .creates hentry href hplace, hden⟩
      exact Or.inr ⟨node, _, hfits.congr hnodeName hnodeParent,
        hplace.congr (hnodeParent.trans hsettled),
        (asked_of_updateFileNode hcreated hchanged haim).congr (hnodeParent.trans hsettled), rfl⟩

theorem eq_of_mem_subtree (hsound : Sound account) {id : Nat}
    (hfile : (account.nodes.lookup id).any FileNode.isContainer ≠ true)
    (h : p ∈ subtree account.nodes id) : p = id := by
  rcases Relation.ReflTransGen.cases_tail ((mem_subtree hsound.forest).mp h).2 with heq | ⟨c, -, hc⟩
  · exact heq.symm
  · obtain ⟨folder, hfolder, hcontainer⟩ := hsound.folders c id hc
    refine absurd ?_ hfile
    rw [hfolder]
    exact hcontainer

theorem updateStep_cases (hsound : Sound account)
    (hcreated : ∀ entry ∈ run.created, account.lastId < entry.2) {entry : Nat × NodeObject}
    (hentry : entry ∈ request.update) :
    (∃ replaced notUpdated, (replaced = [] ∨ entry ∈ request.updates ∧
        Replaces account.nodes request (updateAim account.nodes entry) replaced) ∧
      updateStep server token account request run entry =
        { run with
          implicitDestroys := run.implicitDestroys ++ replaced
          notUpdated }) ∨
    ∃ current node replaced, entry ∈ request.updates ∧
      account.nodes.lookup (documentId entry.1) = some current ∧ node.file = current.file ∧
      Fits server account.nodes request run.pending (updateAim account.nodes entry)
        (some (documentId entry.1)) node replaced ∧
      HasPlace account request run (.node (documentId entry.1)) node ∧
      Asked account (updateAim account.nodes entry) node ∧
      updateStep server token account request run entry =
        { run with
          implicitDestroys := run.implicitDestroys ++ replaced
          updated := run.updated ++ [entry.1]
          pending := (pendingKey server request node, some (documentId entry.1)) :: run.pending
          writes := run.writes ++ [⟨documentId entry.1, some node, some current⟩] } := by
  unfold updateStep
  cases hprepare : prepareUpdate server token account request run entry with
  | error error =>
    simp
  | ok result =>
    obtain ⟨current, settled⟩ := result
    rw [prepareUpdate] at hprepare
    split at hprepare
    · cases hprepare
    rename_i hkept
    rw [not_or] at hkept
    have hasked : entry ∈ request.updates :=
      mem_filter.mpr ⟨hentry, decide_eq_true_eq.mpr hkept.1⟩
    cases hcurrent : account.nodes.lookup (documentId entry.1) with
    | none =>
      rw [hcurrent] at hprepare
      cases hprepare
    | some found =>
      rw [hcurrent] at hprepare
      obtain ⟨changed, hchanged, hprepare⟩ := Fallible.bind_eq_ok.mp hprepare
      obtain ⟨_, hvalid, hprepare⟩ := Fallible.bind_eq_ok.mp hprepare
      obtain ⟨settled', hsettle, hprepare⟩ := Fallible.bind_eq_ok.mp hprepare
      cases hprepare
      have hsettles := settles_settle hsettle
      have haim : ∀ a, aimed { entry.2 with blobId := none } current = some a →
          updateAim account.nodes entry = some (some (documentId entry.1), a) := by
        intro a ha
        have ha' : aimed entry.2 current = some a := ha
        simp [updateAim, hcurrent, ha']
      have hfits := fits_of_settles hsound hcreated hchanged rfl rfl hsettles haim
      have hsettled : settled.node.parentId = changed.parentId := by rw [hsettles.1]
      have hfile : settled.node.file = current.file := by
        rw [hsettles.1]
        exact (updateFileNode_eq_ok hchanged).2.1
      dsimp only
      cases hacl : checkUpdateAcl server token account current entry.2 settled.node with
      | error error => exact Or.inl ⟨_, _, Or.inr ⟨hasked, hfits.replaces⟩, rfl⟩
      | ok _ =>
        have hplace : HasPlace account request run (.node (documentId entry.1)) changed := by
          intro p hp
          obtain ⟨hself, hoff, hfolder⟩ := validateFileNodeHierarchy_eq_ok hvalid hp
          refine ⟨hfolder, ?_⟩
          rcases denotes_of_updateFileNode hchanged hp with ⟨-, hold⟩ | ⟨ref, place, href, hplace, hden⟩
          · refine ⟨.node p, .stays ?_, Or.inl rfl⟩
            simp [isParent_iff, hcurrent, hold]
          · refine ⟨place, .moves hasked href hplace ?_, hden⟩
            rintro q rfl hq
            have hqp : q = p := by
              rcases hden with heq | ⟨_, heq, -⟩
              · cases heq
                rfl
              · cases heq
            subst hqp
            by_cases hcontainer : (account.nodes.lookup (documentId entry.1)).any FileNode.isContainer
            · exact hoff _ rfl hcontainer hq
            · exact hself (congrArg some (eq_of_mem_subtree hsound hcontainer hq).symm)
        have hstamp : ∀ node : FileNode, node = (if entry.2.modified.isSome = true then settled.node
            else { settled.node with modified := server.now }) →
            node.name = settled.node.name ∧ node.parentId = settled.node.parentId ∧
              node.file = settled.node.file := by
          rintro node rfl
          split
          all_goals exact ⟨rfl, rfl, rfl⟩
        obtain ⟨hname, hparent, hsame⟩ := hstamp _ rfl
        refine Or.inr ⟨current, _, _, hasked, rfl, hsame.trans hfile, hfits.congr hname hparent,
          hplace.congr (hparent.trans hsettled),
          (asked_of_updateFileNode hcreated hchanged haim).congr (hparent.trans hsettled), ?_⟩
        rw [pendingKey, pendingKey, hname, hparent]

end Operations

end Bearmail.File
