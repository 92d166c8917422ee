import Bearmail.File.Accepted
import Bearmail.Lib.Runs

/-!
# The file hierarchy

The nodes of an account under every sequence of FileNode/set requests. The operations of a request are
checked one by one and written together, so those of one request can spoil what each of them keeps:
two moves can form a circle, a node can go below a folder that the request destroys, and two nodes can
replace the same one, or one that is not destroyed after all. `Careful` is what a request has to avoid.
-/

namespace Bearmail.File

open Parents Folder Relation
open List Option

variable {server : Server} {token : AccessToken} {account : Account} {request : SetRequest}

/-! ## Careful requests -/

/-- A node that the request destroys or replaces. -/
def Victim (token : AccessToken) (account : Account) (request : SetRequest) (id : Nat) : Prop :=
  mayDestroy token account request id = true ∧ (id ∈ request.destroy.map documentId ∨
      (request.Replacing ∧ ∃ aim ∈ aims account.nodes request, ∃ item ∈ account.nodes.entries,
        item.1 = id ∧ collides request aim.1 aim.2 item = true))

/-- A node that goes with one that the request destroys or replaces. -/
def Doomed (token : AccessToken) (account : Account) (request : SetRequest) (id : Nat) : Prop :=
  ∃ victim, Victim token account request victim ∧ OnPath (parentOf account.nodes) id victim

structure Careful (token : AccessToken) (account : Account) (request : SetRequest) : Prop where
  /-- there are ids left -/
  room : account.lastId + request.create.length < 2 ^ 32
  /-- no node is updated twice -/
  distinct : (updatedIds request.updates).Nodup
  /-- the parents that nodes have and those that the request asks for form no circle -/
  acyclic : ∀ place, ¬ TransGen (Above account request) place place
  /-- no node is updated that goes -/
  kept : ∀ id ∈ updatedIds request.updates, ¬ Doomed token account request id
  /-- no node is asked to be in a folder that goes -/
  placed : ∀ aim ∈ aims account.nodes request, ∀ p, aim.2.parent = some p →
    ¬ Doomed token account request p
  /-- a node that is to be replaced is destroyed, and is the only one with the name -/
  replaced : request.Replacing → ∀ aim ∈ aims account.nodes request,
    ∀ item ∈ account.nodes.entries, collides request aim.1 aim.2 item = true →
      mayDestroy token account request item.1 = true ∧
      (∀ id ∈ request.destroy, documentId id ≠ item.1 →
        ¬ OnPath (parentOf account.nodes) (documentId id) item.1 ∧
          ¬ OnPath (parentOf account.nodes) item.1 (documentId id)) ∧
      ∀ other ∈ account.nodes.entries, collides request aim.1 aim.2 other = true → other = item
  /-- no node is replaced twice -/
  apart : Apart account request (aims account.nodes request)

variable {item : Sigma fun _ : Nat => FileNode} {id : Nat} {node : FileNode}

variable (h : Careful token account request)
include h

theorem Careful.victim (hreplacing : request.Replacing)
    {aim : Aim} (haim : aim ∈ aims account.nodes request) (hitem : item ∈ account.nodes.entries)
    (hcollides : collides request aim.1 aim.2 item = true) : Victim token account request item.1 :=
  ⟨(h.replaced hreplacing aim haim item hitem hcollides).1,
    Or.inr ⟨hreplacing, aim, haim, item, hitem, rfl, hcollides⟩⟩

theorem Careful.spared :
    Spared account request (aims account.nodes request) (updatedIds request.updates) :=
  fun hreplacing _ haim _ hitem hcollides hmem =>
    h.kept _ hmem ⟨_, h.victim hreplacing haim hitem hcollides, .refl⟩

theorem Careful.accepts (hsound : Sound account) :
    Accepts server account request (aims account.nodes request) (updatedIds request.updates)
      (acceptedRun server token account request) :=
  accepts_acceptedRun hsound h.distinct h.apart h.spared

/-! ## What is destroyed -/

theorem Careful.documentId_eq (hsound : Sound account)
    (hid : account.nodes.lookup id ≠ none) : documentId id = id := by
  have hle := hsound.below id hid
  have hroom := h.room
  exact Nat.mod_eq_of_lt (by omega)

omit h

theorem lookup_of_mem_entries (hitem : item ∈ account.nodes.entries) :
    account.nodes.lookup item.1 = some item.2 :=
  AList.mem_lookup_iff.mpr hitem

theorem Careful.doomed (h : Careful token account request) (hsound : Sound account)
    (hid : id ∈ (destroyRun server token account request).destroyed) :
    Doomed token account request id := by
  obtain ⟨v, hv, hmay, hmem, -⟩ := destroys_destroyRun.whole id hid
  have hpath := ((mem_subtree hsound.forest).mp hmem).2
  refine ⟨documentId v, ⟨hmay, ?_⟩, hpath⟩
  rcases mem_willDestroy.mp hv with hnamed | hreplaced
  · exact Or.inl (List.mem_map_of_mem hnamed)
  · obtain ⟨hreplacing, aim, haim, item, hitem, rfl, hcollides⟩ :=
      (h.accepts hsound).replaced v hreplaced
    have hsame := h.documentId_eq hsound (lookup_of_mem_entries hitem ▸ some_ne_none _)
    exact Or.inr ⟨hreplacing, aim, haim, item, hitem, hsame.symm, hcollides⟩

theorem destroyed_exists (hsound : Sound account)
    (hid : id ∈ (destroyRun server token account request).destroyed) :
    account.nodes.lookup id ≠ none := by
  obtain ⟨v, -, -, hmem, -⟩ := destroys_destroyRun.whole id hid
  exact ((mem_subtree hsound.forest).mp hmem).1

theorem destroyed_of_parent (hsound : Sound account) {p : Nat}
    (hp : IsParent (parentOf account.nodes) id p)
    (hdestroyed : p ∈ (destroyRun server token account request).destroyed) :
    id ∈ (destroyRun server token account request).destroyed := by
  obtain ⟨v, -, -, hmem, hall⟩ := destroys_destroyRun.whole p hdestroyed
  refine hall ((mem_subtree hsound.forest).mpr ⟨?_, .head hp ((mem_subtree hsound.forest).mp hmem).2⟩)
  rw [← parentOf_ne_none, hp]
  exact some_ne_none _

theorem Careful.not_onPath (h : Careful token account request) (hreplacing : request.Replacing)
    {aim aim' : Aim} (haim : aim ∈ aims account.nodes request)
    (haim' : aim' ∈ aims account.nodes request) {item' : Sigma fun _ : Nat => FileNode}
    (hitem : item ∈ account.nodes.entries) (hitem' : item' ∈ account.nodes.entries)
    (hcollides : collides request aim.1 aim.2 item = true)
    (hcollides' : collides request aim'.1 aim'.2 item' = true) (hne : item.1 ≠ item'.1) :
    ¬ OnPath (parentOf account.nodes) item.1 item'.1 := by
  intro hpath
  rcases ReflTransGen.cases_head hpath with heq | ⟨p, hp, hrest⟩
  · exact hne heq
  · -- the aim at the lower one is in a folder that goes
    rw [isParent_iff, lookup_of_mem_entries hitem] at hp
    rw [collides, Bool.and_eq_true, Bool.and_eq_true, decide_eq_true_eq, decide_eq_true_eq] at hcollides
    exact h.placed aim haim p (hcollides.1.2.trans hp)
      ⟨item'.1, h.victim hreplacing haim' hitem' hcollides', hrest⟩

theorem Careful.destroyed_of_replaced (h : Careful token account request) (hsound : Sound account)
    (hid : id ∈ (acceptedRun server token account request).implicitDestroys) :
    id ∈ (destroyRun server token account request).destroyed := by
  obtain ⟨hreplacing, aim, haim, item, hitem, rfl, hcollides⟩ := (h.accepts hsound).replaced id hid
  obtain ⟨hmay, hnamed, -⟩ := h.replaced hreplacing aim haim item hitem hcollides
  have hsame : ∀ item ∈ account.nodes.entries, documentId item.1 = item.1 := fun item hitem =>
    h.documentId_eq hsound (lookup_of_mem_entries hitem ▸ some_ne_none _)
  refine mem_destroyed_of_apart hmay hsound.forest ?_ fun v hv hne => ?_
  · exact List.mem_map.mpr ⟨item.1, mem_willDestroy.mpr (Or.inr hid), hsame item hitem⟩
  · rcases mem_willDestroy.mp hv with hdestroy | himplicit
    · exact hnamed v hdestroy hne
    · obtain ⟨-, aim', haim', item', hitem', rfl, hcollides'⟩ :=
        (h.accepts hsound).replaced v himplicit
      rw [hsame item' hitem'] at hne ⊢
      exact ⟨h.not_onPath hreplacing haim' haim hitem' hitem hcollides' hcollides hne,
        h.not_onPath hreplacing haim haim' hitem hitem' hcollides hcollides' hne.symm⟩

/-! ## The batch -/

theorem apply_eq_some {nodes : Nodes} {write : Write}
    (h : write.expected = none ∨ nodes.lookup write.id = write.expected) :
    ∃ next, Write.apply nodes write = some next ∧ next.lookup write.id = write.node ∧
      ∀ id, id ≠ write.id → next.lookup id = nodes.lookup id := by
  have hexpected : ¬ (write.expected.isSome = true ∧ nodes.lookup write.id ≠ write.expected) := by
    rintro ⟨hsome, hne⟩
    rcases h with hnone | heq
    · rw [hnone] at hsome
      cases hsome
    · exact hne heq
  rw [Write.apply, if_neg hexpected]
  cases hnode : write.node with
  | some node => exact ⟨_, rfl, AList.lookup_insert _, fun id hne => AList.lookup_insert_ne hne⟩
  | none => exact ⟨_, rfl, AList.lookup_erase _ _, fun id hne => AList.lookup_erase_ne hne⟩

theorem transact_eq_some {nodes : Nodes} {writes : List Write} (hnodup : (writes.map Write.id).Nodup)
    (hexpected : ∀ write ∈ writes, write.expected = none ∨ nodes.lookup write.id = write.expected) :
    ∃ final, Batch.transact Write.apply nodes writes = some final ∧
      (∀ write ∈ writes, final.lookup write.id = write.node) ∧
      ∀ id, id ∉ writes.map Write.id → final.lookup id = nodes.lookup id := by
  induction writes generalizing nodes with
  | nil => exact ⟨nodes, rfl, fun _ h => (nomatch h), fun _ _ => rfl⟩
  | cons write writes ih =>
    rw [map_cons, nodup_cons] at hnodup
    obtain ⟨next, hnext, hself, hothers⟩ := apply_eq_some (hexpected write mem_cons_self)
    have hne : ∀ later ∈ writes, later.id ≠ write.id := fun later hlater heq =>
      hnodup.1 (heq ▸ List.mem_map_of_mem hlater)
    obtain ⟨final, hfinal, hwritten, hrest⟩ := ih hnodup.2 fun later hlater => by
      rw [hothers later.id (hne later hlater)]
      exact hexpected later (mem_cons_of_mem _ hlater)
    refine ⟨final, ?_, ?_, ?_⟩
    · rw [Batch.transact, hnext]
      exact hfinal
    · intro later hlater
      rcases mem_cons.mp hlater with rfl | hmem
      · rw [hrest _ hnodup.1, hself]
      · exact hwritten later hmem
    · intro id hid
      rw [map_cons, mem_cons, not_or] at hid
      rw [hrest id hid.2, hothers id hid.1]

/-- The nodes after a request: what is written and not destroyed, and else those before. -/
structure Outcome (server : Server) (token : AccessToken) (account : Account) (request : SetRequest)
    (final : Nodes) : Prop where
  written : ∀ write ∈ (acceptedRun server token account request).writes,
    final.lookup write.id = write.node
  destroyed : ∀ id ∈ (destroyRun server token account request).destroyed, final.lookup id = none
  same : ∀ id, id ∉ (acceptedRun server token account request).writes.map Write.id →
    id ∉ (destroyRun server token account request).destroyed →
    final.lookup id = account.nodes.lookup id

theorem Careful.not_destroyed (h : Careful token account request) (hsound : Sound account)
    (hid : id ∈ (acceptedRun server token account request).writes.map Write.id) :
    id ∉ (destroyRun server token account request).destroyed := by
  intro hdestroyed
  rcases (h.accepts hsound).id_cases hid with ⟨hlt, -⟩ | ⟨-, hupdated⟩
  · have hle := hsound.below id (destroyed_exists hsound hdestroyed)
    omega
  · exact h.kept id hupdated (h.doomed hsound hdestroyed)

theorem Careful.transact (h : Careful token account request) (hsound : Sound account) :
    ∃ final, Batch.transact Write.apply account.nodes (batch server token account request) =
      some final ∧ Outcome server token account request final := by
  have haccepts := @Careful.accepts server _ _ _ h hsound
  have hdestroys : Destroys token account request (willDestroy server token account request)
      (destroyRun server token account request) := destroys_destroyRun
  have hids : (destroyRun server token account request).writes.map Write.id =
      (destroyRun server token account request).destroyed := by
    rw [hdestroys.writes, List.map_map]
    exact List.map_id _
  have hnodup : ((batch server token account request).map Write.id).Nodup := by
    rw [batch, List.map_append, hids, nodup_append]
    refine ⟨haccepts.nodup, hdestroys.nodup, ?_⟩
    rintro a ha b hb rfl
    exact h.not_destroyed hsound ha hb
  obtain ⟨final, hfinal, hwritten, hrest⟩ := transact_eq_some hnodup fun write hwrite => by
    rcases mem_append.mp hwrite with haccepted | hdestroyed
    · obtain ⟨node, -, hw⟩ := haccepts.writes write haccepted
      rcases hw.place with ⟨hnone, -⟩ | ⟨current, hsome, hcurrent, -⟩
      · exact Or.inl hnone
      · exact Or.inr (hcurrent.trans hsome.symm)
    · rw [hdestroys.writes] at hdestroyed
      obtain ⟨id, -, rfl⟩ := List.mem_map.mp hdestroyed
      exact Or.inr rfl
  refine ⟨final, hfinal, ?_, ?_, ?_⟩
  · exact fun write hwrite => hwritten write (mem_append_left _ hwrite)
  · intro id hid
    refine hwritten ⟨id, none, account.nodes.lookup id⟩ (mem_append_right _ ?_)
    rw [hdestroys.writes]
    exact List.mem_map.mpr ⟨id, hid, rfl⟩
  · intro id haccepted hdestroyed
    refine hrest id ?_
    rw [batch, List.map_append, hids, mem_append, not_or]
    exact ⟨haccepted, hdestroyed⟩

/-! ## The nodes after a request -/

section After

variable {final : Nodes}

theorem Outcome.lookup_cases (h : Outcome server token account request final)
    (hnode : final.lookup id = some node) :
    (∃ write ∈ (acceptedRun server token account request).writes,
      write.id = id ∧ write.node = some node) ∨
    (id ∉ (acceptedRun server token account request).writes.map Write.id ∧
      id ∉ (destroyRun server token account request).destroyed ∧
        account.nodes.lookup id = some node) := by
  by_cases hwritten : id ∈ (acceptedRun server token account request).writes.map Write.id
  · obtain ⟨write, hwrite, rfl⟩ := List.mem_map.mp hwritten
    exact Or.inl ⟨write, hwrite, rfl, (h.written write hwrite).symm.trans hnode⟩
  · have hkept : id ∉ (destroyRun server token account request).destroyed := by
      intro hdestroyed
      rw [h.destroyed id hdestroyed] at hnode
      cases hnode
    exact Or.inr ⟨hwritten, hkept, (h.same id hwritten hkept).symm.trans hnode⟩

theorem Outcome.folder (h : Outcome server token account request final)
    (hcareful : Careful token account request) (hsound : Sound account) {folder : FileNode}
    (hfolder : account.nodes.lookup id = some folder) (hcontainer : folder.isContainer = true)
    (hkept : id ∉ (destroyRun server token account request).destroyed) :
    ∃ folder, final.lookup id = some folder ∧ folder.isContainer = true := by
  by_cases hwritten : id ∈ (acceptedRun server token account request).writes.map Write.id
  · obtain ⟨write, hwrite, rfl⟩ := List.mem_map.mp hwritten
    obtain ⟨node, hnode, hw⟩ := (hcareful.accepts hsound).writes write hwrite
    rcases hw.place with ⟨-, hlt, -⟩ | ⟨current, -, hcurrent, -, hfile, -⟩
    · have hle := hsound.below _ (hfolder ▸ some_ne_none _)
      omega
    · rw [hfolder, Option.some.injEq] at hcurrent
      refine ⟨node, (h.written write hwrite).trans hnode, ?_⟩
      rw [FileNode.isContainer, hfile, ← hcurrent]
      exact hcontainer
  · exact ⟨folder, (h.same id hwritten hkept).trans hfolder, hcontainer⟩

theorem Outcome.createdFolder (h : Outcome server token account request final)
    (hcareful : Careful token account request) (hsound : Sound account) {entry : Nat × List AclGrant}
    (hentry : entry ∈ (acceptedRun server token account request).createdFolders) :
    ∃ folder, final.lookup entry.1 = some folder ∧ folder.isContainer = true := by
  obtain ⟨write, hwrite, hid, node, hnode, hcontainer⟩ :=
    (hcareful.accepts hsound).folders entry hentry
  exact ⟨node, hid ▸ (h.written write hwrite).trans hnode, hcontainer⟩

theorem Outcome.parent_folder (h : Outcome server token account request final)
    (hcareful : Careful token account request) (hsound : Sound account) {p : Nat}
    (hnode : final.lookup id = some node) (hp : node.parent = some p) :
    ∃ folder, final.lookup p = some folder ∧ folder.isContainer = true := by
  rcases h.lookup_cases hnode with ⟨write, hwrite, -, hsome⟩ | ⟨-, hkept, hold⟩
  · obtain ⟨node', hnode', hw⟩ := (hcareful.accepts hsound).writes write hwrite
    rw [hsome, Option.some.injEq] at hnode'
    subst hnode'
    have hfolder : (∃ acls, (p, acls) ∈ (acceptedRun server token account request).createdFolders) ∨
        (account.nodes.lookup p).any FileNode.isContainer = true := by
      rcases hw.place with ⟨-, -, reference, -, hplace⟩ | ⟨current, -, -, -, -, hplace⟩
      · exact (hplace p hp).1
      · exact (hplace p hp).1
    rcases hfolder with ⟨acls, hmem⟩ | hcontainer
    · exact h.createdFolder hcareful hsound hmem
    · obtain ⟨folder, hfolder, hcontainer⟩ := (Option.any_eq_true _ _).mp hcontainer
      refine h.folder hcareful hsound hfolder hcontainer fun hdestroyed => ?_
      rcases hw.asked with ⟨aim, haim, hparent⟩ | ⟨p', hp', hlt⟩
      · exact hcareful.placed aim haim p ((FileNode.parent_congr hparent).trans hp)
          (hcareful.doomed hsound hdestroyed)
      · rw [hp, Option.some.injEq] at hp'
        have hle := hsound.below p (hfolder ▸ some_ne_none _)
        omega
  · have hparent : IsParent (parentOf account.nodes) id p := by
      simp [isParent_iff, hold, hp]
    obtain ⟨folder, hfolder, hcontainer⟩ := hsound.folders id p hparent
    exact h.folder hcareful hsound hfolder hcontainer fun hdestroyed =>
      hkept (destroyed_of_parent hsound hparent hdestroyed)

/-! ### Circles -/

def placeOf (created : List (String × Nat)) (id : Nat) : Place :=
  match created.find? fun entry => entry.2 == id with
  | some entry => .created entry.1
  | none => .node id

theorem placeOf_created {created : List (String × Nat)} (hnodup : (created.map Prod.snd).Nodup)
    {reference : String} (h : (reference, id) ∈ created) :
    placeOf created id = .created reference := by
  rw [placeOf]
  cases hfind : created.find? fun entry => entry.2 == id with
  | none =>
    rw [List.find?_eq_none] at hfind
    exact absurd (beq_self_eq_true _) (hfind _ h)
  | some entry =>
    have hid : (entry.2 == id) = true := by
      have hsome := List.find?_some hfind
      exact hsome
    have heq := inj_on_of_nodup_map hnodup (List.mem_of_find?_eq_some hfind) h (beq_iff_eq.mp hid)
    rw [heq]

theorem placeOf_node {created : List (String × Nat)} (h : ∀ entry ∈ created, entry.2 ≠ id) :
    placeOf created id = .node id := by
  rw [placeOf, List.find?_eq_none.mpr]
  exact fun entry hentry heq => h entry hentry (beq_iff_eq.mp heq)

theorem above_placeOf (hcareful : Careful token account request) (hsound : Sound account)
    {place above : Place} {p : Nat} (habove : Above account request place above)
    (hdenotes : Denotes (acceptedRun server token account request).created above p) :
    TransGen (Above account request) place
      (placeOf (acceptedRun server token account request).created p) := by
  have haccepts := @Careful.accepts server _ _ _ hcareful hsound
  rcases hdenotes with rfl | ⟨reference, rfl, hmem⟩
  · by_cases hnew : ∃ entry ∈ (acceptedRun server token account request).created, entry.2 = p
    · -- the number of a node that the request creates
      obtain ⟨⟨reference, id⟩, hentry, rfl⟩ := hnew
      obtain ⟨object, hobject⟩ := haccepts.created_asked _ hentry
      rw [placeOf_created haccepts.created_nodup hentry]
      exact .head habove (.single (.number (haccepts.created _ hentry).1 hobject))
    · rw [placeOf_node fun entry hentry heq => hnew ⟨entry, hentry, heq⟩]
      exact .single habove
  · rw [placeOf_created haccepts.created_nodup hmem]
    exact .single habove

theorem Outcome.acyclic (h : Outcome server token account request final)
    (hcareful : Careful token account request) (hsound : Sound account) (id : Nat) :
    ¬ TransGen (IsParent (parentOf final)) id id := by
  have haccepts := @Careful.accepts server _ _ _ hcareful hsound
  have hold : ∀ {x : Nat}, account.nodes.lookup x ≠ none →
      placeOf (acceptedRun server token account request).created x = .node x := by
    intro x hx
    refine placeOf_node fun entry hentry heq => ?_
    have hlt := (haccepts.created entry hentry).1
    have hle := hsound.below x hx
    omega
  intro hcircle
  refine hcareful.acyclic _ (TransGen.lift' (placeOf (acceptedRun server token account
    request).created) ?_ id id hcircle)
  intro x p hp
  rw [isParent_iff] at hp
  obtain ⟨node, hnode, hparent⟩ := bind_eq_some_iff.mp hp
  rw [Function.onFun_apply]
  rcases h.lookup_cases hnode with ⟨write, hwrite, rfl, hsome⟩ | ⟨-, -, hbefore⟩
  · obtain ⟨node', hnode', hw⟩ := haccepts.writes write hwrite
    rw [hsome, Option.some.injEq] at hnode'
    subst hnode'
    rcases hw.place with ⟨-, -, reference, hmem, hplace⟩ | ⟨current, -, hcurrent, -, -, hplace⟩
    · obtain ⟨-, above, habove, hdenotes⟩ := hplace p hparent
      rw [placeOf_created haccepts.created_nodup hmem]
      exact above_placeOf hcareful hsound habove hdenotes
    · obtain ⟨-, above, habove, hdenotes⟩ := hplace p hparent
      rw [hold (hcurrent ▸ some_ne_none _)]
      exact above_placeOf hcareful hsound habove hdenotes
  · have hbeforeParent : IsParent (parentOf account.nodes) x p := by
      simp [isParent_iff, hbefore, hparent]
    rw [hold (hbefore ▸ some_ne_none _)]
    exact above_placeOf hcareful hsound (.stays hbeforeParent) (Or.inl rfl)

/-! ### Names -/

instance : Std.Symm Different where
  symm _ _ h node node' hnode hnode' hparent hname :=
    h node' node hnode' hnode hparent.symm hname.symm

theorem written_ne_kept (hcareful : Careful token account request) (hsound : Sound account)
    {write : Write} (hwrite : write ∈ (acceptedRun server token account request).writes)
    (hnode : write.node = some node) {other : FileNode}
    (hother : account.nodes.lookup id = some other) (hne : write.id ≠ id)
    (hkept : id ∉ (destroyRun server token account request).destroyed)
    (hparent : node.parent = other.parent) : node.name ≠ other.name := by
  intro hname
  obtain ⟨node', hnode', hw⟩ := (hcareful.accepts hsound).writes write hwrite
  rw [hnode, Option.some.injEq] at hnode'
  subst hnode'
  have hitem : (⟨id, other⟩ : Sigma fun _ : Nat => FileNode) ∈ account.nodes.entries :=
    AList.mem_lookup_iff.mp hother
  have htarget : write.target ≠ some id := by
    rw [Write.target]
    cases write.expected with
    | none => exact (some_ne_none id).symm
    | some _ => exact fun h => hne (Option.some.inj h)
  have hreplacing := hw.name _ hitem htarget hparent hname
  have hcollides : collides request write.target node ⟨id, other⟩ = true :=
    collides_of_eq htarget hparent hname
  obtain ⟨aim, haim, haimed, haimname, haimparent, replaced, hreplaced, hin, hmeets⟩ :=
    hw.aimed hreplacing _ hitem hcollides
  rw [← collides_congr haimname haimparent, ← haimed] at hcollides
  -- the node that is replaced is the only one with the name
  have heq := (hcareful.replaced hreplacing aim haim _ hreplaced hmeets).2.2 _ hitem hcollides
  refine hkept ?_
  have hgone := hcareful.destroyed_of_replaced hsound hin
  rwa [← heq] at hgone

theorem Outcome.names (h : Outcome server token account request final)
    (hcareful : Careful token account request) (hsound : Sound account) {id' : Nat}
    {node' : FileNode} (hnode : final.lookup id = some node)
    (hnode' : final.lookup id' = some node') (hparent : node.parent = node'.parent)
    (hname : node.name = node'.name) : id = id' := by
  by_contra hne
  rcases h.lookup_cases hnode with ⟨write, hwrite, rfl, hsome⟩ | ⟨-, hkept, hold⟩
  · rcases h.lookup_cases hnode' with ⟨write', hwrite', rfl, hsome'⟩ | ⟨-, hkept', hold'⟩
    · have hwrites : write ≠ write' := fun heq => hne (congrArg Write.id heq)
      exact (hcareful.accepts hsound).names.forall hwrite hwrite' hwrites node node' hsome hsome'
        hparent hname
    · exact written_ne_kept hcareful hsound hwrite hsome hold' hne hkept' hparent hname
  · rcases h.lookup_cases hnode' with ⟨write', hwrite', rfl, hsome'⟩ | ⟨-, hkept', hold'⟩
    · exact written_ne_kept hcareful hsound hwrite' hsome' hold (Ne.symm hne) hkept hparent.symm
        hname.symm
    · exact hne (hsound.names id id' node node' hold hold' hparent hname)

theorem Outcome.sound (h : Outcome server token account request final)
    (hcareful : Careful token account request) (hsound : Sound account) :
    Sound { account with
      nodes := final, lastId := (acceptedRun server token account request).lastId } := by
  have haccepts := @Careful.accepts server _ _ _ hcareful hsound
  have hfolders : ∀ id p, IsParent (parentOf final) id p →
      ∃ folder, final.lookup p = some folder ∧ folder.isContainer = true := by
    intro id p hp
    rw [isParent_iff] at hp
    obtain ⟨node, hnode, hparent⟩ := bind_eq_some_iff.mp hp
    exact h.parent_folder hcareful hsound hnode hparent
  constructor
  · intro id hid
    obtain ⟨node, hnode⟩ := ne_none_iff_exists'.mp hid
    rcases h.lookup_cases hnode with ⟨write, hwrite, rfl, -⟩ | ⟨-, -, hold⟩
    · rcases haccepts.id_cases (List.mem_map_of_mem hwrite) with ⟨-, hmem⟩ | ⟨hexists, -⟩
      · obtain ⟨entry, hentry, heq⟩ := List.mem_map.mp hmem
        exact heq ▸ (haccepts.created entry hentry).2
      · exact (hsound.below _ hexists).trans haccepts.lastId
    · exact (hsound.below id (hold ▸ some_ne_none _)).trans haccepts.lastId
  · refine forest_of_acyclic (final.keys.toFinset.finite_toSet) ?_ ?_ (h.acyclic hcareful hsound)
    · intro id hid
      rw [parentOf_ne_none, ← isSome_iff_ne_none, AList.lookup_isSome] at hid
      exact List.mem_toFinset.mpr hid
    · intro id p hp
      obtain ⟨folder, hfolder, -⟩ := hfolders id p hp
      rw [parentOf_ne_none, hfolder]
      exact some_ne_none _
  · exact hfolders
  · exact fun id id' node node' hnode hnode' hparent hname =>
      h.names hcareful hsound hnode hnode' hparent hname

theorem Outcome.exists_of_mem (h : Outcome server token account request final)
    (hcareful : Careful token account request) (hsound : Sound account)
    (hid : id ∈ (acceptedRun server token account request).writes.map Write.id) :
    final.lookup id ≠ none := by
  obtain ⟨write, hwrite, rfl⟩ := List.mem_map.mp hid
  obtain ⟨node, hnode, -⟩ := (hcareful.accepts hsound).writes write hwrite
  rw [h.written write hwrite, hnode]
  exact some_ne_none _

end After

/-! ## Runs -/

/-- An account, with the answer to the last request. -/
structure Served where
  account : Account
  response : Option SetResponse

structure Call where
  server : Server
  token : AccessToken
  request : SetRequest
  /-- when a batch is cut -/
  isLarge : List Write → Bool

def serve (served : Served) (call : Call) : Option Served :=
  let result := fileNodeSet call.server call.token served.account call.request call.isLarge
  some ⟨result.1, result.2⟩

def CarefulCall (served : Served) (call : Call) : Prop :=
  Careful call.token served.account call.request

/-- The account is sound, and what was reported is there. -/
structure Good (served : Served) : Prop where
  sound : Sound served.account
  created : ∀ response, served.response = some response → ∀ entry ∈ response.created,
    served.account.nodes.lookup entry.2 ≠ none
  updated : ∀ response, served.response = some response → ∀ id ∈ response.updated,
    served.account.nodes.lookup (documentId id) ≠ none

theorem good_serve {served served' : Served} {call : Call} (hgood : Good served)
    (hcareful : CarefulCall served call) (h : serve served call = some served') : Good served' := by
  cases h
  have haccepts := @Careful.accepts call.server _ _ _ hcareful hgood.sound
  obtain ⟨final, hfinal, houtcome⟩ : ∃ final, Batch.transact Write.apply served.account.nodes
      (batch call.server call.token served.account call.request) = some final ∧
      Outcome call.server call.token served.account call.request final :=
    Careful.transact hcareful hgood.sound
  have hcommit : Batch.commit Write.apply call.isLarge served.account.nodes
      (batch call.server call.token served.account call.request) = (final, true) :=
    Batch.commit_of_transact hfinal
  simp only [fileNodeSet, hcommit, if_true]
  constructor
  · exact houtcome.sound hcareful hgood.sound
  · rintro response heq entry hentry
    cases heq
    exact houtcome.exists_of_mem hcareful hgood.sound (haccepts.created_written entry hentry)
  · rintro response heq id hid
    cases heq
    exact houtcome.exists_of_mem hcareful hgood.sound (haccepts.updated_written id hid)

/-- After any number of careful requests the nodes form a forest of folders and files with different
names, and what is reported as created or updated is there. -/
theorem file_hierarchy {account : Account} (hsound : Sound account) {calls : List Call}
    (hcareful : Runs.Along serve CarefulCall ⟨account, none⟩ calls) {served : Served}
    (hrun : Runs.run serve ⟨account, none⟩ calls = some served) : Good served := by
  refine Runs.run_invariant Good (fun _ _ _ => good_serve) hcareful ?_ hrun
  exact ⟨hsound, fun _ h => (nomatch h), fun _ h => (nomatch h)⟩

/-! ## An account -/

/-- A server that lists nodes and ids as they are stored. Folding leaves lower case as it is. -/
def plainServer : Server where
  aclValidate := fun _ => none
  toLowercase := fun name => name
  toLowercase_idem := fun _ => rfl
  now := 7
  items := fun nodes => nodes.entries
  items_perm := fun _ => List.Perm.refl _
  sortIds := fun ids => ids
  sortIds_perm := fun _ => List.Perm.refl _
  hashOrder := fun ids => ids
  mem_hashOrder := fun _ _ => Iff.rfl

def owner : AccessToken := ⟨1, fun id => id == 1, fun _ => false⟩

def twoFolders : Account where
  accountId := 1
  nodes := ⟨[⟨1, "docs", 0, none, 5, []⟩, ⟨2, "notes", 0, none, 6, []⟩], by
    rw [List.NodupKeys]
    decide⟩
  lastId := 2

def inParent (parentId : ParentRef) : NodeObject := ⟨none, some parentId, none, none, none, none⟩

/-- A new folder in the first one, and the second one moved there. -/
def tidyCall : Call where
  server := plainServer
  token := owner
  request :=
    { create := [("new", ⟨some "new", some (.id 1), none, none, none, none⟩)]
      update := [(2, inParent (.created "new"))]
      destroy := []
      onDestroyRemoveChildren := false
      onExists := .replace
      compareCaseInsensitively := false }
  isLarge := fun _ => false

/-- Each of the two folders goes into the other one. -/
def swapCall : Call :=
  { tidyCall with
    request := { tidyCall.request with
      create := [], update := [(1, inParent (.id 2)), (2, inParent (.id 1))] } }

theorem lookup_twoFolders (h : twoFolders.nodes.lookup id = some node) :
    (id = 1 ∧ node = ⟨"docs", 0, none, 5, []⟩) ∨ (id = 2 ∧ node = ⟨"notes", 0, none, 6, []⟩) := by
  have hmem := AList.mem_lookup_iff.mp h
  simpa [twoFolders] using hmem

theorem sound_twoFolders : Sound twoFolders := by
  have hroot : ∀ id p, ¬ IsParent (parentOf twoFolders.nodes) id p := by
    intro id p hp
    obtain ⟨node, hnode, hparent⟩ := bind_eq_some_iff.mp (isParent_iff.mp hp)
    rcases lookup_twoFolders hnode with ⟨-, rfl⟩ | ⟨-, rfl⟩
    · cases hparent
    · cases hparent
  constructor
  · intro id hid
    obtain ⟨node, hnode⟩ := ne_none_iff_exists'.mp hid
    rcases lookup_twoFolders hnode with ⟨rfl, -⟩ | ⟨rfl, -⟩
    · decide
    · decide
  · intro id hid
    obtain ⟨parent, hparent⟩ := ne_none_iff_exists'.mp hid
    cases parent with
    | none => exact .root hparent
    | some p => exact absurd hparent (hroot id p)
  · exact fun id p hp => absurd hp (hroot id p)
  · intro id id' node node' hnode hnode' _ hname
    rcases lookup_twoFolders hnode with ⟨rfl, rfl⟩ | ⟨rfl, rfl⟩
    · rcases lookup_twoFolders hnode' with ⟨rfl, rfl⟩ | ⟨rfl, rfl⟩
      · rfl
      · exact absurd hname (by decide)
    · rcases lookup_twoFolders hnode' with ⟨rfl, rfl⟩ | ⟨rfl, rfl⟩
      · exact absurd hname (by decide)
      · rfl

theorem careful_tidyCall : Careful owner twoFolders tidyCall.request := by
  have hmeets : ∀ aim ∈ aims twoFolders.nodes tidyCall.request, ∀ item ∈ twoFolders.nodes.entries,
      ¬ collides tidyCall.request aim.1 aim.2 item = true := by
    decide
  have hspared : ∀ id, ¬ Doomed owner twoFolders tidyCall.request id := by
    rintro id ⟨victim, ⟨-, hnamed | ⟨-, aim, haim, item, hitem, -, hcollides⟩⟩, -⟩
    · cases hnamed
    · exact hmeets aim haim item hitem hcollides
  constructor
  · decide
  · decide
  · -- the second folder, the new folder, the first folder
    let rank : Place → Nat
      | .node id => if id ≤ 1 then 0 else 2
      | .created _ => 1
    have hrank : ∀ place above, Above twoFolders tidyCall.request place above →
        rank above < rank place := by
      intro place above habove
      cases habove with
      | stays h =>
        obtain ⟨folder, hfolder, hparent⟩ := bind_eq_some_iff.mp (isParent_iff.mp h)
        rcases lookup_twoFolders hfolder with ⟨-, rfl⟩ | ⟨-, rfl⟩
        · cases hparent
        · cases hparent
      | moves h href hplace hoff =>
        cases mem_singleton.mp (mem_filter.mp h).1
        cases href
        cases hplace
        decide
      | creates h href hplace =>
        cases mem_singleton.mp h
        cases href
        cases hplace
        decide
      | number hid h =>
        have hlt : 2 < _ := hid
        simp only [rank]
        split
        · omega
        · omega
    intro place hcircle
    have hlt : ∀ a b, TransGen (Above twoFolders tidyCall.request) a b → rank b < rank a := by
      intro a b hab
      induction hab with
      | single h => exact hrank _ _ h
      | tail _ h ih => exact (hrank _ _ h).trans ih
    exact lt_irrefl _ (hlt place place hcircle)
  · exact fun id _ => hspared id
  · exact fun _ _ p _ => hspared p
  · exact fun _ aim haim item hitem hcollides => absurd hcollides (hmeets aim haim item hitem)
  · intro _
    refine pairwise_iff_forall_sublist.mpr fun {a b} hab item hitem hcollides => ?_
    exact absurd hcollides (hmeets a (hab.subset mem_cons_self) item hitem)

theorem file_hierarchy_tidyCall : ∃ served,
    Runs.run serve ⟨twoFolders, none⟩ [tidyCall] = some served ∧ Good served := by
  have hcareful : Runs.Along serve CarefulCall ⟨twoFolders, none⟩ [tidyCall] :=
    ⟨careful_tidyCall, fun _ _ => trivial⟩
  exact ⟨_, rfl, file_hierarchy sound_twoFolders hcareful rfl⟩

/-- The two moves are checked one by one, each against the folders as they were. -/
theorem swap_no_forest : Sound twoFolders ∧ ∃ served,
    Runs.run serve ⟨twoFolders, none⟩ [swapCall] = some served ∧
      ¬ Forest (parentOf served.account.nodes) := by
  refine ⟨sound_twoFolders, _, rfl, fun hforest => hforest.not_ancestor 1 ?_⟩
  refine .head (b := 2) ?_ (.single ?_)
  all_goals
    rw [IsParent]
    decide

end Bearmail.File
