import Bearmail.File.Set
import Bearmail.Lib.Parents

/-!
# What a request destroys

The loop over the nodes to destroy. A node goes with everything below it, unless something of that is
marked by a node before it, the sender may not delete all of it, or children are kept. A node that is
refused leaves its marks behind.
-/

namespace Bearmail.File

open Parents Folder
open List

variable {nodes : Nodes} {server : Server} {token : AccessToken} {account : Account}
  {request : SetRequest}

/-! ## Subtrees -/

variable {id : Nat} {marked ids : List Nat} {run : DestroyRun}

theorem parentOf_ne_none : parentOf nodes id ≠ none ↔ nodes.lookup id ≠ none := by
  rw [parentOf, Ne, Option.map_eq_none_iff]

theorem isParent_iff {p : Nat} :
    IsParent (parentOf nodes) id p ↔ (nodes.lookup id).bind FileNode.parent = some p := by
  rw [IsParent, parentOf]
  cases nodes.lookup id with
  | none | some node => simp

theorem onPath_of_mem_climb {steps root : Nat} (h : root ∈ climb nodes steps id) :
    OnPath (parentOf nodes) id root := by
  induction steps generalizing id with
  | zero => cases h
  | succ steps ih =>
    rcases mem_cons.mp h with rfl | hmem
    · exact .refl
    · cases hp : (nodes.lookup id).bind FileNode.parent with
      | none => simp [hp] at hmem
      | some p =>
        simp only [hp] at hmem
        exact .head (isParent_iff.mpr hp) (ih hmem)

theorem mem_climb_of_onPath (hforest : Forest (parentOf nodes)) {root : Nat}
    (hpath : OnPath (parentOf nodes) id root) {s : Finset Nat}
    (hs : ∀ y, OnPath (parentOf nodes) id y → y ∈ s) : root ∈ climb nodes s.card id := by
  induction hpath using Relation.ReflTransGen.head_induction_on generalizing s with
  | refl =>
    have hpos : 0 < s.card := Finset.card_pos.mpr ⟨root, hs root .refl⟩
    obtain ⟨n, hn⟩ := Nat.exists_eq_succ_of_ne_zero hpos.ne'
    rw [hn]
    exact mem_cons_self
  | @head id p hstep _ ih =>
    have hid : id ∈ s := hs id .refl
    -- what is above the parent is not the node itself
    have hrest : ∀ y, OnPath (parentOf nodes) p y → y ∈ s.erase id := by
      intro y hy
      refine Finset.mem_erase.mpr ⟨?_, hs y (.head hstep hy)⟩
      rintro rfl
      exact hforest.not_ancestor _ (Relation.TransGen.head' hstep hy)
    have hmem := ih hrest
    rw [← Finset.card_erase_add_one hid, climb, isParent_iff.mp hstep]
    exact mem_cons_of_mem _ hmem

theorem mem_subtree (hforest : Forest (parentOf nodes)) {root : Nat} :
    id ∈ subtree nodes root ↔ nodes.lookup id ≠ none ∧ OnPath (parentOf nodes) id root := by
  have hkeys : ∀ y, y ∈ nodes.keys ↔ nodes.lookup y ≠ none := by
    intro y
    rw [← AList.mem_keys, ← AList.lookup_isSome, Option.isSome_iff_ne_none]
  rw [subtree, mem_filter, decide_eq_true_eq, hkeys]
  refine and_congr_right fun hid => ⟨onPath_of_mem_climb, fun hpath => ?_⟩
  have hcard : nodes.keys.toFinset.card = nodes.keys.length :=
    toFinset_card_of_nodup nodes.keys_nodup
  rw [← hcard]
  refine mem_climb_of_onPath hforest hpath fun y hy => ?_
  rw [mem_toFinset, hkeys, ← parentOf_ne_none]
  exact hforest.onPath_exists (parentOf_ne_none.mpr hid) hy

theorem subtree_nodup (root : Nat) : (subtree nodes root).Nodup := nodes.keys_nodup.filter _

theorem subtree_disjoint (hforest : Forest (parentOf nodes)) {a b : Nat}
    (hab : ¬ OnPath (parentOf nodes) a b) (hba : ¬ OnPath (parentOf nodes) b a)
    (ha : id ∈ subtree nodes a) : id ∉ subtree nodes b := by
  intro hb
  rcases onPath_total ((mem_subtree hforest).mp ha).2 ((mem_subtree hforest).mp hb).2 with h | h
  · exact hab h
  · exact hba h

/-! ## Marks -/

attribute [local simp] mark

theorem mem_mark (h : id ∈ (mark marked ids).1) : id ∈ marked ∨ id ∈ ids := by
  induction ids generalizing marked with
  | nil => exact Or.inl h
  | cons first ids ih =>
    rw [mark] at h
    split at h
    · exact Or.inl h
    · rcases ih h with hmem | hmem
      · rcases mem_cons.mp hmem with rfl | hmem
        · exact Or.inr mem_cons_self
        · exact Or.inl hmem
      · exact Or.inr (mem_cons_of_mem _ hmem)

theorem subset_mark (marked ids : List Nat) : marked ⊆ (mark marked ids).1 := by
  induction ids generalizing marked with
  | nil => exact fun _ h => h
  | cons first ids ih =>
    rw [mark]
    split
    · exact fun _ h => h
    · exact fun _ h => ih _ (mem_cons_of_mem _ h)

theorem mark_eq_true (hnodup : ids.Nodup) (h : ∀ id ∈ ids, id ∉ marked) :
    (mark marked ids).2 = true := by
  induction ids generalizing marked with
  | nil => rfl
  | cons first ids ih =>
    rw [mark, if_neg (h first mem_cons_self)]
    refine ih (nodup_cons.mp hnodup).2 fun id hid => ?_
    rw [mem_cons, not_or]
    refine ⟨?_, h id (mem_cons_of_mem _ hid)⟩
    rintro rfl
    exact (nodup_cons.mp hnodup).1 hid

theorem of_mark (h : (mark marked ids).2 = true) :
    (∀ id ∈ ids, id ∉ marked) ∧ ids ⊆ (mark marked ids).1 := by
  induction ids generalizing marked with
  | nil => exact ⟨fun _ hid => (nomatch hid), fun _ hid => (nomatch hid)⟩
  | cons first ids ih =>
    rw [mark] at h ⊢
    split at h
    · cases h
    · rename_i hfirst
      rw [if_neg hfirst]
      obtain ⟨hfresh, hall⟩ := ih h
      constructor
      · intro id hid
        rcases mem_cons.mp hid with rfl | hmem
        · exact hfirst
        · exact fun hmarked => hfresh id hmem (mem_cons_of_mem _ hmarked)
      · intro id hid
        rcases mem_cons.mp hid with rfl | hmem
        · exact subset_mark _ _ mem_cons_self
        · exact hall hmem

/-! ## One node -/

/-- The checks on a node to destroy, but for the marks. -/
def mayDestroy (token : AccessToken) (account : Account) (request : SetRequest) (id : Nat) : Bool :=
  (account.nodes.lookup id).isSome &&
    (token.isMember account.accountId || (subtree account.nodes id).all fun id =>
      (account.nodes.lookup id).any fun node => effectiveAcl node.acls token .delete) &&
    (decide ((subtree account.nodes id).length ≤ 1) || request.onDestroyRemoveChildren)

theorem destroyStep_cases (server : Server) (token : AccessToken) (account : Account)
    (request : SetRequest) (run : DestroyRun) (id : Nat) :
    ((destroyStep server token account request run id).destroyed = run.destroyed ∧
      (destroyStep server token account request run id).writes = run.writes) ∨
    (mayDestroy token account request (documentId id) = true ∧
      ∃ ids : List Nat, ids.Perm (subtree account.nodes (documentId id)) ∧ (∀ x ∈ ids, x ∉ run.marked) ∧
        ids ⊆ (destroyStep server token account request run id).marked ∧
        (destroyStep server token account request run id).destroyed = run.destroyed ++ ids ∧
        (destroyStep server token account request run id).writes =
          run.writes ++ ids.map fun x => ⟨x, none, account.nodes.lookup x⟩) := by
  have hperm := server.sortIds_perm (subtree account.nodes (documentId id))
  unfold destroyStep
  cases hnode : account.nodes.lookup (documentId id) with
  | none => exact Or.inl ⟨rfl, rfl⟩
  | some node =>
    dsimp only
    split
    · exact Or.inl ⟨rfl, rfl⟩
    rename_i hmark
    rw [Bool.not_eq_false] at hmark
    split
    · exact Or.inl ⟨rfl, rfl⟩
    rename_i hacl
    split
    · exact Or.inl ⟨rfl, rfl⟩
    rename_i hchildren
    obtain ⟨hfresh, hall⟩ := of_mark hmark
    refine Or.inr ⟨?_, _, hperm, hfresh, hall, rfl, rfl⟩
    rw [hperm.all_eq] at hacl
    rw [hperm.length_eq] at hchildren
    rw [mayDestroy, hnode, Bool.and_eq_true, Bool.and_eq_true, Bool.or_eq_true, Bool.or_eq_true,
      decide_eq_true_eq]
    refine ⟨⟨rfl, ?_⟩, ?_⟩
    · by_contra hno
      rw [not_or] at hno
      exact hacl ⟨Bool.not_eq_true _ ▸ hno.1, hno.2⟩
    · by_contra hno
      rw [not_or] at hno
      exact hchildren ⟨by omega, Bool.not_eq_true _ ▸ hno.2⟩

theorem mem_destroyStep_marked {x : Nat}
    (h : x ∈ (destroyStep server token account request run id).marked) :
    x ∈ run.marked ∨ x ∈ subtree account.nodes (documentId id) := by
  have hmark : ∀ y, y ∈ (mark run.marked (server.sortIds (subtree account.nodes (documentId id)))).1 →
      y ∈ run.marked ∨ y ∈ subtree account.nodes (documentId id) := fun y hy =>
    (mem_mark hy).imp_right (server.sortIds_perm _).mem_iff.mp
  unfold destroyStep at h
  cases hnode : account.nodes.lookup (documentId id) with
  | none =>
    rw [hnode] at h
    exact Or.inl h
  | some node =>
    rw [hnode] at h
    dsimp only at h
    split at h
    · exact hmark x h
    split at h
    · exact hmark x h
    split at h
    · exact hmark x h
    · exact hmark x h

theorem destroyStep_marked_subset (server : Server) (token : AccessToken) (account : Account)
    (request : SetRequest) (run : DestroyRun) (id : Nat) :
    run.marked ⊆ (destroyStep server token account request run id).marked := by
  unfold destroyStep
  cases account.nodes.lookup (documentId id) with
  | none => exact fun _ h => h
  | some node =>
    dsimp only
    split
    · exact subset_mark _ _
    split
    · exact subset_mark _ _
    split
    · exact subset_mark _ _
    · exact subset_mark _ _

theorem destroyStep_of_fresh (hmay : mayDestroy token account request (documentId id) = true)
    (hfresh : ∀ x ∈ subtree account.nodes (documentId id), x ∉ run.marked) :
    ∀ x ∈ subtree account.nodes (documentId id),
      x ∈ (destroyStep server token account request run id).destroyed := by
  have hperm := server.sortIds_perm (subtree account.nodes (documentId id))
  rw [mayDestroy, Bool.and_eq_true, Bool.and_eq_true, Bool.or_eq_true, Bool.or_eq_true,
    decide_eq_true_eq] at hmay
  obtain ⟨⟨hnode, hacl⟩, hchildren⟩ := hmay
  obtain ⟨node, hnode⟩ := Option.isSome_iff_exists.mp hnode
  have hmark : (mark run.marked (server.sortIds (subtree account.nodes (documentId id)))).2 =
      true :=
    mark_eq_true (hperm.nodup_iff.mpr (subtree_nodup _)) fun x hx => hfresh x (hperm.mem_iff.mp hx)
  unfold destroyStep
  simp only [hnode, hmark, Bool.true_eq_false, if_false, hperm.all_eq, hperm.length_eq]
  rw [if_neg, if_neg]
  · exact fun x hx => mem_append_right _ (hperm.mem_iff.mpr hx)
  · rintro ⟨hlt, hflag⟩
    rcases hchildren with hle | hflag'
    · omega
    · rw [hflag] at hflag'
      cases hflag'
  · rintro ⟨hmember, hall⟩
    rcases hacl with hmember' | hall'
    · rw [hmember] at hmember'
      cases hmember'
    · exact hall hall'

/-! ## The loop -/

/-- What the loop has done after some of the nodes. -/
structure Destroys (token : AccessToken) (account : Account) (request : SetRequest)
    (ids : List Nat) (run : DestroyRun) : Prop where
  marked : ∀ x ∈ run.marked, ∃ id ∈ ids, x ∈ subtree account.nodes (documentId id)
  destroyed_marked : run.destroyed ⊆ run.marked
  nodup : run.destroyed.Nodup
  whole : ∀ x ∈ run.destroyed, ∃ id ∈ ids, mayDestroy token account request (documentId id) = true ∧
    x ∈ subtree account.nodes (documentId id) ∧ subtree account.nodes (documentId id) ⊆ run.destroyed
  writes : run.writes = run.destroyed.map fun x => ⟨x, none, account.nodes.lookup x⟩

theorem Destroys.step (h : Destroys token account request ids run) (id : Nat) :
    Destroys token account request (ids ++ [id]) (destroyStep server token account request run id) := by
  have hmarked : ∀ x ∈ (destroyStep server token account request run id).marked,
      ∃ id' ∈ ids ++ [id], x ∈ subtree account.nodes (documentId id') := by
    intro x hx
    rcases mem_destroyStep_marked hx with hold | hnew
    · obtain ⟨id', hid', hmem⟩ := h.marked x hold
      exact ⟨id', mem_append_left _ hid', hmem⟩
    · exact ⟨id, mem_append_right _ mem_cons_self, hnew⟩
  have hsubset := destroyStep_marked_subset server token account request run id
  rcases destroyStep_cases server token account request run id with ⟨hsame, hwrites⟩ | ⟨hmay, new, hperm, hfresh, hin, heq, hwrites⟩
  · refine ⟨hmarked, ?_, ?_, ?_, ?_⟩
    · exact hsame ▸ fun x hx => hsubset (h.destroyed_marked hx)
    · exact hsame ▸ h.nodup
    · rw [hsame]
      intro x hx
      obtain ⟨id', hid', hrest⟩ := h.whole x hx
      exact ⟨id', mem_append_left _ hid', hrest⟩
    · rw [hsame, hwrites, h.writes]
  · refine ⟨hmarked, ?_, ?_, ?_, ?_⟩
    · rw [heq]
      intro x hx
      rcases mem_append.mp hx with hold | hnew
      · exact hsubset (h.destroyed_marked hold)
      · exact hin hnew
    · rw [heq, nodup_append]
      refine ⟨h.nodup, hperm.nodup_iff.mpr (subtree_nodup _), ?_⟩
      rintro a ha b hb rfl
      exact hfresh a hb (h.destroyed_marked ha)
    · rw [heq]
      intro x hx
      rcases mem_append.mp hx with hold | hnew
      · obtain ⟨id', hid', hmay', hmem, hall⟩ := h.whole x hold
        exact ⟨id', mem_append_left _ hid', hmay', hmem, fun y hy => mem_append_left _ (hall hy)⟩
      · exact ⟨id, mem_append_right _ mem_cons_self, hmay, hperm.mem_iff.mp hnew,
          fun y hy => mem_append_right _ (hperm.mem_iff.mpr hy)⟩
    · simp [hwrites, heq, h.writes]

theorem destroys_foldl (ids : List Nat) : Destroys token account request ids
      (ids.foldl (destroyStep server token account request) ⟨[], [], [], []⟩) := by
  induction ids using List.reverseRecOn with
  | nil =>
    exact ⟨fun _ hx => (nomatch hx), fun _ hx => hx, nodup_nil, fun _ hx => (nomatch hx), rfl⟩
  | append_singleton ids id ih =>
    rw [foldl_append]
    exact ih.step id

theorem destroys_destroyRun : Destroys token account request (willDestroy server token account request)
      (destroyRun server token account request) :=
  destroys_foldl _

theorem mem_destroyed_foldl {v : Nat} (hmay : mayDestroy token account request v = true)
    (hforest : Forest (parentOf account.nodes)) (hv : v ∈ ids.map documentId)
    (hapart : ∀ id ∈ ids, documentId id ≠ v → ¬ OnPath (parentOf account.nodes) (documentId id) v ∧
      ¬ OnPath (parentOf account.nodes) v (documentId id)) :
    v ∈ (ids.foldl (destroyStep server token account request) ⟨[], [], [], []⟩).destroyed := by
  induction ids using List.reverseRecOn with
  | nil => cases hv
  | append_singleton ids id ih =>
    rw [foldl_append]
    by_cases hold : v ∈ ids.map documentId
    · have hmem := ih hold fun id' hid' => hapart id' (mem_append_left _ hid')
      rcases destroyStep_cases server token account request
        (ids.foldl (destroyStep server token account request) ⟨[], [], [], []⟩) id with ⟨hsame, -⟩ | ⟨-, new, -, -, -, heq, -⟩
      · exact hsame ▸ hmem
      · exact heq ▸ mem_append_left _ hmem
    · have hid : documentId id = v := by
        rw [List.map_append, mem_append] at hv
        rcases hv with hv | hv
        · exact absurd hv hold
        · exact (mem_singleton.mp hv).symm
      have hexists : account.nodes.lookup v ≠ none := by
        rw [mayDestroy, Bool.and_eq_true, Bool.and_eq_true] at hmay
        exact Option.isSome_iff_ne_none.mp hmay.1.1
      subst hid
      refine destroyStep_of_fresh hmay (fun x hx hmarked => ?_) _
        ((mem_subtree hforest).mpr ⟨hexists, .refl⟩)
      -- what is marked is below an earlier node
      obtain ⟨id', hid', hmem⟩ := (destroys_foldl ids).marked x hmarked
      have hne : documentId id' ≠ documentId id := fun heq =>
        hold (heq ▸ mem_map_of_mem hid')
      obtain ⟨h₁, h₂⟩ := hapart id' (mem_append_left _ hid') hne
      exact subtree_disjoint hforest h₁ h₂ hmem hx

/-- A node that may be destroyed goes, when none of the others to destroy is above or below it. -/
theorem mem_destroyed_of_apart {v : Nat} (hmay : mayDestroy token account request v = true)
    (hforest : Forest (parentOf account.nodes))
    (hv : v ∈ (willDestroy server token account request).map documentId)
    (hapart : ∀ id ∈ willDestroy server token account request, documentId id ≠ v →
      ¬ OnPath (parentOf account.nodes) (documentId id) v ∧
        ¬ OnPath (parentOf account.nodes) v (documentId id)) :
    v ∈ (destroyRun server token account request).destroyed :=
  mem_destroyed_foldl hmay hforest hv hapart

theorem mem_willDestroy : id ∈ willDestroy server token account request ↔ id ∈ request.destroy ∨
      id ∈ (acceptedRun server token account request).implicitDestroys := by
  have hfold : ∀ (new ids : List Nat), id ∈ new.foldl (fun ids id => if id ∈ ids then ids
      else ids ++ [id]) ids ↔ id ∈ ids ∨ id ∈ new := by
    intro new
    induction new with
    | nil => simp
    | cons first new ih =>
      intro ids
      rw [foldl_cons, ih, mem_cons]
      split
      · rename_i hfirst
        constructor
        · exact Or.imp_right Or.inr
        · rintro (h | rfl | h)
          · exact Or.inl h
          · exact Or.inl hfirst
          · exact Or.inr h
      · simp [or_assoc]
  rw [willDestroy, hfold, server.mem_hashOrder]

end Bearmail.File
