import Bearmail.Folder.Store
import Bearmail.Lib.Parents
import Bearmail.Lib.Topological

/-!
# The mailbox tree

`build_tree` of `email/src/cache/mailbox.rs` gives every cached mailbox its path: each starts
with its own name, and in topological order the path of the parent is put in front. The orders
of the cached mailboxes and of the nodes of the sort are those of hash maps.
-/

namespace Bearmail.Folder

open Parents
open List Option

abbrev Item := Sigma fun _ : Nat => Mailbox

def eqIgnoreAsciiCase (a b : String) : Bool :=
  a.toList.map Char.toLower == b.toList.map Char.toLower

/-- The path a mailbox starts with, at a position of the cache. -/
def ownPath (idx : Nat) (m : Mailbox) : String :=
  if m.role = .inbox then "INBOX"
  else if m.parentId = 0 ∧ eqIgnoreAsciiCase m.name "inbox" = true then
    "INBOX " ++ toString (idx + 1)
  else m.name

/-- Every mailbox comes after its parent; the root is `0`. -/
def treeEdges (items : List Item) : List (Nat × Nat) :=
  items.map fun item => (item.2.parentId, item.1 + 1)

def ownPaths (items : List Item) (id : Nat) : Option String :=
  (items.zipIdx.find? fun item => decide (item.1.1 = id)).map fun item => ownPath item.2 item.1.2

def byId (items : List Item) (id : Nat) : Option Mailbox :=
  (items.find? fun item => decide (item.1 = id)).map Sigma.snd

/-- The path of a mailbox below that of its parent, when both are cached. -/
def newPath (items : List Item) (paths : Nat → Option String) (id : Nat) : Option String :=
  ((byId items id).bind Mailbox.parent).bind fun parent =>
    (paths parent).bind fun parentPath =>
      (paths id).map fun path => parentPath ++ "/" ++ path

def extendPath (items : List Item) (paths : Nat → Option String) (node : Nat) :
    Nat → Option String :=
  if node = 0 then paths
  else
    match newPath items paths (node - 1) with
    | none => paths
    | some path => Function.update paths (node - 1) (some path)

def buildTree (items : List Item) (order : List Nat) : Nat → Option String :=
  (Topological.sort (treeEdges items) order).foldl (extendPath items) (ownPaths items)

/-! ## Paths -/

/-- The path of a mailbox below those of its ancestors. -/
inductive PathOf (items : List Item) : Nat → String → Prop
  | root {id : Nat} {m : Mailbox} {own : String} (h : byId items id = some m)
      (hroot : m.parentId = 0) (hown : ownPaths items id = some own) : PathOf items id own
  | child {id p : Nat} {m : Mailbox} {own path : String} (h : byId items id = some m)
      (hparent : m.parentId = p + 1) (hown : ownPaths items id = some own)
      (hpath : PathOf items p path) : PathOf items id (path ++ "/" ++ own)

/-! ## The mailboxes of a list -/

/-- The cache lists the mailboxes of the account, each once. -/
structure Lists (items : List Item) (mailboxes : Mailboxes) : Prop where
  perm : items.Perm mailboxes.entries

theorem CacheOrder.lists (order : CacheOrder) (mailboxes : Mailboxes) :
    Lists (order.items mailboxes) mailboxes := ⟨order.perm mailboxes⟩

variable {id : Nat} {m : Mailbox} {mailboxes : Mailboxes} {items : List Item}

theorem Lists.mem (h : Lists items mailboxes) :
    (⟨id, m⟩ : Item) ∈ items ↔ mailboxes.lookup id = some m := by
  rw [h.perm.mem_iff, ← mem_def, AList.mem_lookup_iff]

theorem Lists.byId (h : Lists items mailboxes) (id : Nat) : byId items id = mailboxes.lookup id := by
  unfold Folder.byId
  cases hfind : items.find? fun item => decide (item.1 = id) with
  | none =>
    rw [List.find?_eq_none] at hfind
    symm
    rw [map_none, eq_none_iff_forall_ne_some]
    intro m hm
    exact hfind _ (h.mem.mpr hm) (by simp)
  | some item =>
    obtain ⟨id', m⟩ := item
    have hid : id' = id := by simpa using List.find?_some hfind
    subst hid
    exact (h.mem.mp (List.mem_of_find?_eq_some hfind)).symm

theorem Lists.ownPaths (h : Lists items mailboxes)
    (hm : mailboxes.lookup id = some m) : ∃ own, ownPaths items id = some own := by
  have hmem : (⟨id, m⟩ : Item) ∈ items := h.mem.mpr hm
  obtain ⟨k, hk, hkm⟩ := getElem_of_mem hmem
  have hsome : (items.zipIdx.find? fun item => decide (item.1.1 = id)).isSome := by
    rw [List.find?_isSome]
    exact ⟨(items[k], k), List.mem_zipIdx_iff_getElem?.mpr (List.getElem?_eq_getElem hk), by
      simp [hkm]⟩
  obtain ⟨item, hitem⟩ := isSome_iff_exists.mp hsome
  exact ⟨_, by rw [Folder.ownPaths, hitem, map_some]⟩

theorem Lists.mem_treeEdges (h : Lists items mailboxes) {u v : Nat} :
    (u, v) ∈ treeEdges items ↔ ∃ id m, mailboxes.lookup id = some m ∧ m.parentId = u ∧ v = id + 1 := by
  unfold treeEdges
  rw [List.mem_map]
  constructor
  · rintro ⟨⟨id, m⟩, hmem, heq⟩
    simp only [Prod.mk.injEq] at heq
    exact ⟨id, m, h.mem.mp hmem, heq.1, heq.2.symm⟩
  · rintro ⟨id, m, hm, rfl, rfl⟩
    exact ⟨⟨id, m⟩, h.mem.mpr hm, rfl⟩

theorem parentOf_eq_some {p : Option Nat} :
    parentOf mailboxes id = some p ↔ ∃ m, mailboxes.lookup id = some m ∧ m.parent = p := by
  rw [parentOf, map_eq_some_iff]

theorem Mailbox.parent_eq_none : m.parent = none ↔ m.parentId = 0 := by
  unfold Mailbox.parent
  split
  · simp_all
  · simp_all

theorem Mailbox.parent_eq_some {p : Nat} : m.parent = some p ↔ m.parentId = p + 1 := by
  unfold Mailbox.parent
  split
  · simp_all
  · simp only [Option.some.injEq]
    omega

/-! ## In a forest -/

section Forest

variable {items : List Item} {mailboxes : Mailboxes}

theorem exists_pathOf (h : Lists items mailboxes) (hr : Rooted (parentOf mailboxes) id) :
    ∃ path, PathOf items id path := by
  induction hr with
  | root hroot =>
    obtain ⟨m, hm, hparent⟩ := parentOf_eq_some.mp hroot
    obtain ⟨own, hown⟩ := h.ownPaths hm
    exact ⟨own, .root ((h.byId _).trans hm) (Mailbox.parent_eq_none.mp hparent) hown⟩
  | child hchild _ ih =>
    obtain ⟨m, hm, hparent⟩ := parentOf_eq_some.mp hchild
    obtain ⟨own, hown⟩ := h.ownPaths hm
    obtain ⟨path, hpath⟩ := ih
    exact ⟨_, .child ((h.byId _).trans hm) (Mailbox.parent_eq_some.mp hparent) hown hpath⟩

theorem wellFounded_treeEdges (h : Lists items mailboxes) (hf : Forest (parentOf mailboxes)) :
    WellFounded fun u v => (u, v) ∈ treeEdges items := by
  have hzero : Acc (fun u v => (u, v) ∈ treeEdges items) 0 := by
    refine ⟨0, fun u hu => ?_⟩
    obtain ⟨id, m, -, -, hid⟩ := h.mem_treeEdges.mp hu
    omega
  have hrooted : ∀ id, Rooted (parentOf mailboxes) id →
      Acc (fun u v => (u, v) ∈ treeEdges items) (id + 1) := by
    intro id hr
    induction hr with
    | @root id hroot =>
      obtain ⟨m, hm, hparent⟩ := parentOf_eq_some.mp hroot
      refine ⟨_, fun u hu => ?_⟩
      obtain ⟨id', m', hm', rfl, hid⟩ := h.mem_treeEdges.mp hu
      obtain rfl : id = id' := by omega
      rw [hm, Option.some.injEq] at hm'
      rw [← hm', Mailbox.parent_eq_none.mp hparent]
      exact hzero
    | @child id p hchild _ ih =>
      obtain ⟨m, hm, hparent⟩ := parentOf_eq_some.mp hchild
      refine ⟨_, fun u hu => ?_⟩
      obtain ⟨id', m', hm', rfl, hid⟩ := h.mem_treeEdges.mp hu
      obtain rfl : id = id' := by omega
      rw [hm, Option.some.injEq] at hm'
      rw [← hm', Mailbox.parent_eq_some.mp hparent]
      exact ih
  refine ⟨fun v => ⟨v, fun u hu => ?_⟩⟩
  obtain ⟨id, m, hm, rfl, -⟩ := h.mem_treeEdges.mp hu
  cases hp : m.parent with
  | none => rw [Mailbox.parent_eq_none.mp hp]; exact hzero
  | some p =>
    rw [Mailbox.parent_eq_some.mp hp]
    have hexists : parentOf mailboxes p ≠ none :=
      hf.parent_exists (x := id) (parentOf_eq_some.mpr ⟨m, hm, hp⟩)
    exact hrooted p (hf p hexists)

theorem extendPath_of_ne {paths : Nat → Option String} {node : Nat} (h : id + 1 ≠ node) :
    extendPath items paths node id = paths id := by
  unfold extendPath
  split
  · rfl
  · rename_i hnode
    cases newPath items paths (node - 1) with
    | none => rfl
    | some path => exact Function.update_of_ne (by omega) _ _

theorem extendPath_self {paths : Nat → Option String} {path : String} (hpath : PathOf items id path)
    (hown : paths id = ownPaths items id) (hparent : ∀ p path', PathOf items p path' →
      (∃ m, byId items id = some m ∧ m.parentId = p + 1) → paths p = some path') :
    extendPath items paths (id + 1) id = some path := by
  unfold extendPath
  rw [Nat.add_sub_cancel]
  cases hpath with
  | root h hroot hownPath =>
    have hnone : newPath items paths id = none := by
      simp [newPath, h, Mailbox.parent_eq_none.mpr hroot, bind_none]
    rw [hnone]
    exact hown.trans hownPath
  | @child _ p m own parentPath h hchild hownPath hp =>
    have hsome : newPath items paths id = some (parentPath ++ "/" ++ own) := by
      simp [newPath, h, Mailbox.parent_eq_some.mpr hchild, hparent _ _ hp ⟨_, h, hchild⟩, hown, hownPath]
    rw [hsome]
    exact Function.update_self _ _ _

/-- While the sort goes on: mailboxes that have been given have their paths, and the others
still their own. -/
theorem foldl_extendPath (h : Lists items mailboxes) {done : List Nat} (hnodup : done.Nodup)
    (hbefore : Topological.Before (treeEdges items) done) :
    (∀ id path, PathOf items id path → id + 1 ∈ done →
        done.foldl (extendPath items) (ownPaths items) id = some path) ∧
      ∀ id, id + 1 ∉ done →
        done.foldl (extendPath items) (ownPaths items) id = ownPaths items id := by
  induction done using List.reverseRecOn with
  | nil => exact ⟨fun id path _ hmem => absurd hmem not_mem_nil, fun id _ => rfl⟩
  | append_singleton done node ih =>
    have hstarts : Topological.Before (treeEdges items) done := by
      intro l₁ v l₂ heq
      exact hbefore l₁ v (l₂ ++ [node]) (by rw [heq]; simp)
    have hlast : ∀ u, (u, node) ∈ treeEdges items → u ∈ done := hbefore done node [] rfl
    rw [nodup_append] at hnodup
    obtain ⟨hdone, hown⟩ := ih hnodup.1 hstarts
    have hnew : node ∉ done := fun hin => hnodup.2.2 node hin node (by simp) rfl
    simp only [foldl_append, foldl_cons, foldl_nil, mem_append, mem_singleton]
    constructor
    · rintro id path hpath (hmem | rfl)
      · have hne : id + 1 ≠ node := fun heq => hnew (heq ▸ hmem)
        rw [extendPath_of_ne hne]
        exact hdone id path hpath hmem
      · refine extendPath_self hpath (hown id hnew) ?_
        rintro p path' hp ⟨m, hm, hparent⟩
        rw [h.byId] at hm
        exact hdone p path' hp (hlast _ (h.mem_treeEdges.mpr ⟨id, m, hm, hparent, rfl⟩))
    · intro id hnot
      push Not at hnot
      rw [extendPath_of_ne hnot.2]
      exact hown id hnot.1

/-- In a forest every mailbox gets the path made of the names of its ancestors, in whatever
order the mailboxes and the nodes of the sort are listed. -/
theorem buildTree_path (h : Lists items mailboxes) (hf : Forest (parentOf mailboxes))
    {order : List Nat} (ho : Topological.Orders (treeEdges items) order)
    (hid : mailboxes.lookup id ≠ none) :
    ∃ path, PathOf items id path ∧ buildTree items order id = some path := by
  obtain ⟨m, hm⟩ := ne_none_iff_exists'.mp hid
  have hexists : parentOf mailboxes id ≠ none := by
    rw [parentOf, hm]
    exact some_ne_none _
  obtain ⟨path, hpath⟩ := exists_pathOf h (hf id hexists)
  obtain ⟨hnodup, hbefore, -, -⟩ := Topological.sort_spec ho
  have hgiven : id + 1 ∈ Topological.sort (treeEdges items) order :=
    Topological.mem_sort ho (wellFounded_treeEdges h hf)
      ⟨_, h.mem_treeEdges.mpr ⟨id, m, hm, rfl, rfl⟩, Or.inr rfl⟩
  exact ⟨path, hpath, (foldl_extendPath h hnodup hbefore).1 id path hpath hgiven⟩

end Forest

end Bearmail.Folder
