import Bearmail.File.Operation

/-!
# What a request accepts

The creates and the updates of a request are checked against the nodes before the request, and against
the names and folders of those before them. `Accepts` says what holds of all that is accepted.
-/

namespace Bearmail.File

open Parents Folder
open List Option

variable {server : Server} {token : AccessToken} {account : Account} {request : SetRequest}

/-- The id of a node in a write, when the node was there before. -/
def Write.target (write : Write) : Option Nat := write.expected.map fun _ => write.id

/-- One of the writes of a request: a new node with an id above all others, or one that is there. -/
structure Writes (account : Account) (request : SetRequest) (done : List Aim) (updated : List Nat)
    (run : SetRun) (write : Write) (node : FileNode) : Prop where
  place : (write.expected = none ∧ account.lastId < write.id ∧ ∃ reference,
      (reference, write.id) ∈ run.created ∧ HasPlace account request run (.created reference) node) ∨
    ∃ current, write.expected = some current ∧ account.nodes.lookup write.id = some current ∧
      write.id ∈ updated ∧ node.file = current.file ∧ HasPlace account request run (.node write.id) node
  asked : (∃ aim ∈ done, aim.2.parentId = node.parentId) ∨
    ∃ p, node.parent = some p ∧ account.lastId < p
  /-- The name is that of another node only where nodes are replaced. -/
  name : ∀ item ∈ account.nodes.entries, write.target ≠ some item.1 →
    node.parent = item.2.parent → node.name = item.2.name → request.Replacing
  /-- There it replaces a node that it was aimed at. -/
  aimed : request.Replacing → ∀ item ∈ account.nodes.entries,
    collides request write.target node item = true →
    ∃ aim ∈ done, aim.1 = write.target ∧ aim.2.name = node.name ∧ aim.2.parentId = node.parentId ∧
      ∃ other ∈ account.nodes.entries, other.1 ∈ run.implicitDestroys ∧
        collides request aim.1 aim.2 other = true

def Different (write write' : Write) : Prop :=
  ∀ node node', write.node = some node → write'.node = some node' → node.parent = node'.parent →
    node.name ≠ node'.name

/-- What has been accepted of the operations with the aims `done`, the updates being of the nodes
`updated`. -/
structure Accepts (server : Server) (account : Account) (request : SetRequest) (done : List Aim)
    (updated : List Nat) (run : SetRun) : Prop where
  lastId : account.lastId ≤ run.lastId
  created : ∀ entry ∈ run.created, account.lastId < entry.2 ∧ entry.2 ≤ run.lastId
  created_nodup : (run.created.map Prod.snd).Nodup
  created_asked : ∀ entry ∈ run.created, ∃ object, (entry.1, object) ∈ request.create
  created_written : ∀ entry ∈ run.created, entry.2 ∈ run.writes.map Write.id
  updated_written : ∀ id ∈ run.updated, documentId id ∈ run.writes.map Write.id
  folders : ∀ entry ∈ run.createdFolders, ∃ write ∈ run.writes, write.id = entry.1 ∧
    ∃ node, write.node = some node ∧ node.isContainer = true
  writes : ∀ write ∈ run.writes, ∃ node, write.node = some node ∧
    Writes account request done updated run write node
  nodup : (run.writes.map Write.id).Nodup
  pending : ∀ write ∈ run.writes, ∀ node, write.node = some node →
    ∃ entry ∈ run.pending, entry.1 = pendingKey server request node
  names : run.writes.Pairwise Different
  replaced : ∀ id ∈ run.implicitDestroys, request.Replacing ∧ ∃ aim ∈ done,
    ∃ item ∈ account.nodes.entries, item.1 = id ∧ collides request aim.1 aim.2 item = true

/-- No node is met by two of the aims where nodes are replaced. -/
def Apart (account : Account) (request : SetRequest) (done : List Aim) : Prop :=
  request.Replacing → done.Pairwise fun aim aim' => ∀ item ∈ account.nodes.entries,
    collides request aim.1 aim.2 item = true → collides request aim'.1 aim'.2 item ≠ true

/-- No node is updated that an aim meets, where nodes are replaced. -/
def Spared (account : Account) (request : SetRequest) (done : List Aim) (updated : List Nat) :
    Prop :=
  request.Replacing → ∀ aim ∈ done, ∀ item ∈ account.nodes.entries,
    collides request aim.1 aim.2 item = true → item.1 ∉ updated

theorem accepts_start :
    Accepts server account request [] [] ⟨account.lastId, [], [], [], [], [], [], [], []⟩ where
  lastId := le_rfl
  created := fun _ h => (nomatch h)
  created_nodup := nodup_nil
  created_asked := fun _ h => (nomatch h)
  created_written := fun _ h => (nomatch h)
  updated_written := fun _ h => (nomatch h)
  folders := fun _ h => (nomatch h)
  writes := fun _ h => (nomatch h)
  nodup := nodup_nil
  pending := fun _ h => (nomatch h)
  names := List.Pairwise.nil
  replaced := fun _ h => (nomatch h)

/-! ## Refused operations -/

theorem HasPlace.mono {run run' : SetRun} {place : Place} {node : FileNode}
    (h : HasPlace account request run place node) (hfolders : run.createdFolders ⊆ run'.createdFolders)
    (hcreated : run.created ⊆ run'.created) : HasPlace account request run' place node := by
  intro p hp
  obtain ⟨hfolder, above, habove, hdenotes⟩ := h p hp
  refine ⟨?_, above, habove, ?_⟩
  · exact hfolder.imp_left fun ⟨acls, hmem⟩ => ⟨acls, hfolders hmem⟩
  · exact hdenotes.imp_right fun ⟨reference, heq, hmem⟩ => ⟨reference, heq, hcreated hmem⟩

variable {updated updated' : List Nat}

theorem Writes.mono {done done' : List Aim} {run run' : SetRun}
    {write : Write} {node : FileNode} (h : Writes account request done updated run write node)
    (hdone : done ⊆ done') (hupdated : updated ⊆ updated')
    (hfolders : run.createdFolders ⊆ run'.createdFolders) (hcreated : run.created ⊆ run'.created)
    (himplicit : run.implicitDestroys ⊆ run'.implicitDestroys) :
    Writes account request done' updated' run' write node where
  place := by
    rcases h.place with ⟨hnew, hid, reference, hmem, hplace⟩ | ⟨current, hold, hmem, hin, hfile, hplace⟩
    · exact Or.inl ⟨hnew, hid, reference, hcreated hmem, hplace.mono hfolders hcreated⟩
    · exact Or.inr ⟨current, hold, hmem, hupdated hin, hfile, hplace.mono hfolders hcreated⟩
  asked := h.asked.imp_left fun ⟨aim, haim, hparent⟩ => ⟨aim, hdone haim, hparent⟩
  name := h.name
  aimed := by
    intro hreplacing item hitem hcollides
    obtain ⟨aim, haim, htarget, hname, hparent, other, hother, hin, hmeets⟩ :=
      h.aimed hreplacing item hitem hcollides
    exact ⟨aim, hdone haim, htarget, hname, hparent, other, hother, himplicit hin, hmeets⟩

variable {done : List Aim}

theorem replaced_of_replaces {aim : Option Aim} {replaced : List Nat}
    (h : Replaces account.nodes request aim replaced) :
    ∀ id ∈ replaced, request.Replacing ∧ ∃ a ∈ done ++ aim.toList,
      ∃ item ∈ account.nodes.entries, item.1 = id ∧ collides request a.1 a.2 item = true := by
  intro id hid
  rcases h with rfl | ⟨hreplacing, item, hitem, rfl, a, rfl, hcollides⟩
  · cases hid
  · cases mem_singleton.mp hid
    exact ⟨hreplacing, a, mem_append_right _ (mem_singleton.mpr rfl), item, hitem, rfl, hcollides⟩

theorem Accepts.refused {run run' : SetRun}
    (h : Accepts server account request done updated run) {aim : Option Aim} {replaced : List Nat}
    (hreplaced : Replaces account.nodes request aim replaced) (hupdated : updated ⊆ updated')
    {notCreated : List (String × SetError)} {notUpdated : List (Nat × SetError)}
    (hrun : run' = { run with
      implicitDestroys := run.implicitDestroys ++ replaced, notCreated, notUpdated }) :
    Accepts server account request (done ++ aim.toList) updated' run' := by
  subst hrun
  refine { h with writes := ?_, replaced := ?_ }
  · intro write hwrite
    obtain ⟨node, hnode, hw⟩ := h.writes write hwrite
    exact ⟨node, hnode, hw.mono (subset_append_left _ _) hupdated (fun _ h => h) (fun _ h => h)
      (subset_append_left _ _)⟩
  · intro id hid
    rcases mem_append.mp hid with hold | hnew
    · obtain ⟨hreplacing, a, ha, hrest⟩ := h.replaced id hold
      exact ⟨hreplacing, a, mem_append_left _ ha, hrest⟩
    · exact replaced_of_replaces hreplaced id hnew

/-! ## Accepted operations -/

section Add

variable {done : List Aim} {updated updated' : List Nat} {run run' : SetRun} {aim : Option Aim}
  {replaced : List Nat} {write : Write} {node : FileNode}

theorem Accepts.different (h : Accepts server account request done updated run)
    (happart : Apart account request (done ++ aim.toList))
    (hspared : Spared account request (done ++ aim.toList) updated)
    (hfits : Fits server account.nodes request run.pending aim write.target node replaced)
    (hnode : write.node = some node) : ∀ earlier ∈ run.writes, Different earlier write := by
  intro earlier hearlier first second hfirst hsecond hparent hname
  rw [hnode, Option.some.injEq] at hsecond
  subst hsecond
  rcases hfits with ⟨-, -, -, hpending⟩ | ⟨hreplacing, item, hitem, -, a, ha, -, haname, haparent, hmeets⟩
  · obtain ⟨entry, hentry, hkey⟩ := h.pending earlier hearlier first hfirst
    refine hpending entry hentry (hkey.trans ?_)
    rw [pendingKey, pendingKey, hname, FileNode.parentId_eq hparent]
  · obtain ⟨found, hfound, hw⟩ := h.writes earlier hearlier
    rw [hfirst, Option.some.injEq] at hfound
    subst hfound
    subst ha
    -- the earlier write meets the node that is replaced as well
    have hself : earlier.target ≠ some item.1 := by
      intro htarget
      have hid : item.1 ∈ updated := by
        rcases hw.place with ⟨hnew, -⟩ | ⟨current, hold, -, hin, -⟩
        · rw [Write.target, hnew] at htarget
          cases htarget
        · rw [Write.target, hold, map_some, Option.some.injEq] at htarget
          exact htarget ▸ hin
      exact hspared hreplacing a (mem_append_right _ (mem_singleton.mpr rfl)) item hitem hmeets hid
    have hcollides : collides request earlier.target first item = true := by
      rw [collides, Bool.and_eq_true, Bool.and_eq_true, decide_eq_true_eq] at hmeets ⊢
      rw [hname, ← haname, ← FileNode.parent_congr (haparent.trans (FileNode.parentId_eq hparent).symm)]
      exact ⟨⟨hself, hmeets.1.2⟩, hmeets.2⟩
    obtain ⟨b, hb, htarget, hbname, hbparent, -⟩ := hw.aimed hreplacing item hitem hcollides
    rw [← collides_congr hbname hbparent, ← htarget] at hcollides
    exact (pairwise_append.mp (happart hreplacing)).2.2 b hb a
      (mem_singleton.mpr rfl) item hitem hcollides hmeets

theorem writes_of_fits (himplicit : run'.implicitDestroys = run.implicitDestroys ++ replaced)
    (hfits : Fits server account.nodes request run.pending aim write.target node replaced)
    (hplace : (write.expected = none ∧ account.lastId < write.id ∧ ∃ reference,
      (reference, write.id) ∈ run'.created ∧ HasPlace account request run' (.created reference) node) ∨
    ∃ current, write.expected = some current ∧ account.nodes.lookup write.id = some current ∧
      write.id ∈ updated ∧ node.file = current.file ∧
        HasPlace account request run' (.node write.id) node)
    (hasked : Asked account aim node) :
    Writes account request (done ++ aim.toList) updated run' write node where
  place := hplace
  asked := hasked.imp_left fun ⟨a, ha, hparent⟩ =>
    ⟨a, mem_append_right _ (mem_toList.mpr ha), hparent⟩
  name := by
    rcases hfits with ⟨-, hitems, -⟩ | ⟨hreplacing, -⟩
    · exact fun item hitem htarget hparent hname => absurd hname (hitems item hitem htarget hparent)
    · exact fun _ _ _ _ _ => hreplacing
  aimed := by
    intro hreplacing item hitem hcollides
    rcases hfits with ⟨-, -, hmeets, -⟩ | ⟨-, other, hother, rfl, a, rfl, htarget, hname, hparent, hmeets⟩
    · exact absurd hcollides (hmeets hreplacing item hitem)
    · refine ⟨a, mem_append_right _ (mem_singleton.mpr rfl), htarget, hname, hparent,
        other, hother, ?_, hmeets⟩
      rw [himplicit]
      exact mem_append_right _ (mem_singleton.mpr rfl)

variable (h : Accepts server account request done updated run)
include h

theorem Accepts.add_writes
    (hupdated : updated ⊆ updated') (hfolders : run.createdFolders ⊆ run'.createdFolders)
    (hcreated : run.created ⊆ run'.created)
    (himplicit : run'.implicitDestroys = run.implicitDestroys ++ replaced)
    (hnode : write.node = some node)
    (hwrite : Writes account request (done ++ aim.toList) updated' run' write node) :
    ∀ w ∈ run.writes ++ [write], ∃ node, w.node = some node ∧
      Writes account request (done ++ aim.toList) updated' run' w node := by
  intro w hw
  rcases mem_append.mp hw with hold | hnew
  · obtain ⟨first, hfirst, hfact⟩ := h.writes w hold
    refine ⟨first, hfirst, hfact.mono (subset_append_left _ _) hupdated hfolders hcreated ?_⟩
    rw [himplicit]
    exact subset_append_left _ _
  · cases mem_singleton.mp hnew
    exact ⟨node, hnode, hwrite⟩

theorem Accepts.add_replaced (hreplaces : Replaces account.nodes request aim replaced) :
    ∀ id ∈ run.implicitDestroys ++ replaced, request.Replacing ∧ ∃ a ∈ done ++ aim.toList,
      ∃ item ∈ account.nodes.entries, item.1 = id ∧ collides request a.1 a.2 item = true := by
  intro id hid
  rcases mem_append.mp hid with hold | hnew
  · obtain ⟨hreplacing, a, ha, hrest⟩ := h.replaced id hold
    exact ⟨hreplacing, a, mem_append_left _ ha, hrest⟩
  · exact replaced_of_replaces hreplaces id hnew

theorem Accepts.add_pending (hnode : write.node = some node) (target : Option Nat) :
    ∀ w ∈ run.writes ++ [write], ∀ node', w.node = some node' →
      ∃ entry ∈ (pendingKey server request node, target) :: run.pending,
        entry.1 = pendingKey server request node' := by
  intro w hw node' hnode'
  rcases mem_append.mp hw with hold | hnew
  · obtain ⟨entry, hentry, hkey⟩ := h.pending w hold node' hnode'
    exact ⟨entry, mem_cons_of_mem _ hentry, hkey⟩
  · cases mem_singleton.mp hnew
    rw [hnode, Option.some.injEq] at hnode'
    exact ⟨_, mem_cons_self, by rw [hnode']⟩

theorem Accepts.add_nodup (hfresh : write.id ∉ run.writes.map Write.id) :
    ((run.writes ++ [write]).map Write.id).Nodup := by
  rw [List.map_append, nodup_append]
  refine ⟨h.nodup, nodup_singleton _, ?_⟩
  rintro a ha b hb rfl
  exact hfresh (mem_singleton.mp hb ▸ ha)

theorem Accepts.add_names (hdifferent : ∀ earlier ∈ run.writes, Different earlier write) :
    (run.writes ++ [write]).Pairwise Different := by
  rw [pairwise_append]
  refine ⟨h.names, pairwise_singleton _ _, ?_⟩
  intro earlier hearlier w hw
  cases mem_singleton.mp hw
  exact hdifferent earlier hearlier

omit h

end Add

variable {run : SetRun}

theorem Accepts.id_cases {updated : List Nat}
    (h : Accepts server account request done updated run) {id : Nat}
    (hid : id ∈ run.writes.map Write.id) :
    (account.lastId < id ∧ id ∈ run.created.map Prod.snd) ∨
      (account.nodes.lookup id ≠ none ∧ id ∈ updated) := by
  obtain ⟨write, hwrite, rfl⟩ := List.mem_map.mp hid
  obtain ⟨node, -, hw⟩ := h.writes write hwrite
  rcases hw.place with ⟨-, hlt, reference, hmem, -⟩ | ⟨current, -, hcurrent, hin, -⟩
  · exact Or.inl ⟨hlt, List.mem_map.mpr ⟨_, hmem, rfl⟩⟩
  · exact Or.inr ⟨hcurrent ▸ some_ne_none _, hin⟩

theorem Accepts.create (hsound : Sound account) {updated : List Nat}
    (h : Accepts server account request done updated run) {entry : String × NodeObject}
    (hentry : entry ∈ request.create)
    (happart : Apart account request (done ++ (createAim entry).toList))
    (hspared : Spared account request (done ++ (createAim entry).toList) updated) :
    Accepts server account request (done ++ (createAim entry).toList) updated
      (createStep server token account request run entry) := by
  rcases createStep_cases hsound (fun e he => (h.created e he).1) hentry with
    ⟨replaced, notCreated, hreplaces, hrun⟩ | ⟨node, replaced, hfits, hplace, hasked, hrun⟩
  · exact h.refused hreplaces (fun _ h => h) hrun
  · have hfresh : run.lastId + 1 ∉ run.writes.map Write.id := by
      intro hmem
      rcases h.id_cases hmem with ⟨-, hin⟩ | ⟨hexists, -⟩
      · obtain ⟨e, he, heq⟩ := List.mem_map.mp hin
        have hle := (h.created e he).2
        omega
      · have hle := hsound.below _ hexists
        have hlast := h.lastId
        omega
    have hdifferent : ∀ earlier ∈ run.writes,
        Different earlier ⟨run.lastId + 1, some node, none⟩ :=
      h.different happart hspared hfits rfl
    have hid : account.lastId < run.lastId + 1 := Nat.lt_succ_of_le h.lastId
    -- the folders after the create are those before and perhaps the new node
    have hfolders : run.createdFolders ⊆ (if node.isContainer then
        (run.lastId + 1, node.acls) :: run.createdFolders else run.createdFolders) := by
      split
      · exact subset_cons_self _ _
      · exact fun _ h => h
    have hwritten : run.lastId + 1 ∈
        (run.writes ++ [(⟨run.lastId + 1, some node, none⟩ : Write)]).map Write.id :=
      List.mem_map.mpr ⟨_, mem_append_right _ mem_cons_self, rfl⟩
    have hkept : ∀ id ∈ run.writes.map Write.id,
        id ∈ (run.writes ++ [(⟨run.lastId + 1, some node, none⟩ : Write)]).map Write.id := by
      intro id hmem
      rw [List.map_append]
      exact mem_append_left _ hmem
    rw [hrun]
    constructor
    · exact Nat.le_succ_of_le h.lastId
    · intro e he
      rcases mem_cons.mp he with rfl | hold
      · exact ⟨hid, le_rfl⟩
      · exact ⟨(h.created e hold).1, Nat.le_succ_of_le (h.created e hold).2⟩
    · rw [map_cons, nodup_cons]
      refine ⟨fun hmem => ?_, h.created_nodup⟩
      obtain ⟨e, he, heq⟩ := List.mem_map.mp hmem
      have hle := (h.created e he).2
      omega
    · intro e he
      rcases mem_cons.mp he with rfl | hold
      · exact ⟨entry.2, hentry⟩
      · exact h.created_asked e hold
    · intro e he
      rcases mem_cons.mp he with rfl | hold
      · exact hwritten
      · exact hkept _ (h.created_written e hold)
    · exact fun id hmem => hkept _ (h.updated_written id hmem)
    · intro e he
      have hcases : e ∈ run.createdFolders ∨ (node.isContainer = true ∧ e.1 = run.lastId + 1) := by
        split at he
        · rename_i hcontainer
          rcases mem_cons.mp he with rfl | hold
          · exact Or.inr ⟨hcontainer, rfl⟩
          · exact Or.inl hold
        · exact Or.inl he
      rcases hcases with hold | ⟨hcontainer, heq⟩
      · obtain ⟨write, hwrite, hrest⟩ := h.folders e hold
        exact ⟨write, mem_append_left _ hwrite, hrest⟩
      · exact ⟨_, mem_append_right _ mem_cons_self, heq.symm, node, rfl, hcontainer⟩
    · refine h.add_writes (fun _ h => h) hfolders (subset_cons_self _ _) rfl rfl
        (writes_of_fits rfl hfits (Or.inl ⟨rfl, hid, entry.1, mem_cons_self, ?_⟩) hasked)
      exact hplace.mono hfolders (subset_cons_self _ _)
    · exact h.add_nodup hfresh
    · exact h.add_pending rfl none
    · exact h.add_names hdifferent
    · exact h.add_replaced hfits.replaces

theorem Accepts.update (hsound : Sound account) {updated : List Nat}
    (h : Accepts server account request done updated run) {entry : Nat × NodeObject}
    (hentry : entry ∈ request.updates) (hfirst : documentId entry.1 ∉ updated)
    (happart : Apart account request (done ++ (updateAim account.nodes entry).toList))
    (hspared : Spared account request (done ++ (updateAim account.nodes entry).toList)
      (updated ++ [documentId entry.1])) :
    Accepts server account request (done ++ (updateAim account.nodes entry).toList)
      (updated ++ [documentId entry.1]) (updateStep server token account request run entry) := by
  have hbefore : Spared account request (done ++ (updateAim account.nodes entry).toList) updated :=
    fun hreplacing aim haim item hitem hcollides hmem =>
      hspared hreplacing aim haim item hitem hcollides (mem_append_left _ hmem)
  rcases updateStep_cases hsound (fun e he => (h.created e he).1) (mem_filter.mp hentry).1 with
    ⟨replaced, notUpdated, hreplaces, hrun⟩ |
      ⟨current, node, replaced, -, hcurrent, hfile, hfits, hplace, hasked, hrun⟩
  · refine h.refused ?_ (subset_append_left _ _) hrun
    exact hreplaces.elim Or.inl fun hreplaces => hreplaces.2
  · have hexists : account.nodes.lookup (documentId entry.1) ≠ none :=
      hcurrent ▸ some_ne_none _
    have hfresh : documentId entry.1 ∉ run.writes.map Write.id := by
      intro hmem
      rcases h.id_cases hmem with ⟨hlt, -⟩ | ⟨-, hin⟩
      · have hle := hsound.below _ hexists
        omega
      · exact hfirst hin
    have hdifferent : ∀ earlier ∈ run.writes,
        Different earlier ⟨documentId entry.1, some node, some current⟩ :=
      h.different happart hbefore hfits rfl
    have hkept : ∀ id ∈ run.writes.map Write.id, id ∈ (run.writes ++
        [(⟨documentId entry.1, some node, some current⟩ : Write)]).map Write.id := by
      intro id hmem
      rw [List.map_append]
      exact mem_append_left _ hmem
    rw [hrun]
    constructor
    · exact h.lastId
    · exact h.created
    · exact h.created_nodup
    · exact h.created_asked
    · exact fun e he => hkept _ (h.created_written e he)
    · intro id hid
      rcases mem_append.mp hid with hold | hnew
      · exact hkept _ (h.updated_written id hold)
      · cases mem_singleton.mp hnew
        exact List.mem_map.mpr ⟨_, mem_append_right _ mem_cons_self, rfl⟩
    · intro e he
      obtain ⟨write, hwrite, hrest⟩ := h.folders e he
      exact ⟨write, mem_append_left _ hwrite, hrest⟩
    · refine h.add_writes (subset_append_left _ _) (fun _ h => h) (fun _ h => h) rfl rfl
        (writes_of_fits rfl hfits (Or.inr ⟨current, rfl, hcurrent, ?_, hfile, ?_⟩) hasked)
      · exact mem_append_right _ mem_cons_self
      · exact hplace.mono (fun _ h => h) fun _ h => h
    · exact h.add_nodup hfresh
    · exact h.add_pending rfl (some (documentId entry.1))
    · exact h.add_names hdifferent
    · exact h.add_replaced hfits.replaces

/-! ## The whole request -/

theorem updateStep_of_destroyed {entry : Nat × NodeObject} (h : entry.1 ∈ request.destroy) :
    updateStep server token account request run entry =
      { run with notUpdated := run.notUpdated ++ [(entry.1, SetError.new .willDestroy)] } := by
  simp [updateStep, prepareUpdate, Or.inl h]

theorem Apart.of_append {done later : List Aim} (h : Apart account request (done ++ later)) :
    Apart account request done := fun hreplacing =>
  (h hreplacing).sublist (sublist_append_left _ _)

theorem Spared.mono {done done' : List Aim}
    (h : Spared account request done updated) (hdone : done' ⊆ done) (hupdated : updated' ⊆ updated) :
    Spared account request done' updated' := fun hreplacing aim haim item hitem hcollides hmem =>
  h hreplacing aim (hdone haim) item hitem hcollides (hupdated hmem)

theorem filterMap_concat {α β : Type} (f : α → Option β) (entries : List α) (entry : α) :
    (entries ++ [entry]).filterMap f = entries.filterMap f ++ (f entry).toList := by
  cases h : f entry with
  | none | some value => simp [h]

theorem accepts_creates (hsound : Sound account) (entries : List (String × NodeObject))
    (hentries : ∀ entry ∈ entries, entry ∈ request.create)
    (happart : Apart account request (entries.filterMap createAim)) :
    Accepts server account request (entries.filterMap createAim) []
      (entries.foldl (createStep server token account request)
        ⟨account.lastId, [], [], [], [], [], [], [], []⟩) := by
  induction entries using List.reverseRecOn with
  | nil => exact accepts_start
  | append_singleton entries entry ih =>
    rw [filterMap_concat] at happart ⊢
    rw [foldl_append]
    have hrun := ih (fun e he => hentries e (mem_append_left _ he)) happart.of_append
    exact hrun.create hsound (hentries entry (mem_append_right _ mem_cons_self)) happart
      fun _ _ _ _ _ _ hmem => nomatch hmem

theorem accepts_updates (hsound : Sound account)
    (hrun : Accepts server account request done [] run) (entries : List (Nat × NodeObject))
    (hentries : ∀ entry ∈ entries, entry ∈ request.update)
    (hdistinct : (updatedIds (request.kept entries)).Nodup)
    (happart : Apart account request
      (done ++ (request.kept entries).filterMap (updateAim account.nodes)))
    (hspared : Spared account request
      (done ++ (request.kept entries).filterMap (updateAim account.nodes))
      (updatedIds (request.kept entries))) :
    Accepts server account request (done ++ (request.kept entries).filterMap (updateAim account.nodes))
      (updatedIds (request.kept entries))
      (entries.foldl (updateStep server token account request) run) := by
  induction entries using List.reverseRecOn with
  | nil =>
    rw [SetRequest.kept, filter_nil, filterMap_nil, List.append_nil]
    exact hrun
  | append_singleton entries entry ih =>
    have hin := hentries entry (mem_append_right _ mem_cons_self)
    have hbefore := fun e he => hentries e (mem_append_left _ he)
    rw [foldl_append]
    by_cases hdestroy : entry.1 ∈ request.destroy
    · have hsame : request.kept (entries ++ [entry]) = request.kept entries := by
        simp [SetRequest.kept, hdestroy]
      rw [hsame] at hdistinct happart hspared ⊢
      have hdone := ih hbefore hdistinct happart hspared
      rw [foldl_cons, updateStep_of_destroyed hdestroy]
      refine { hdone with writes := ?_ }
      intro write hwrite
      obtain ⟨node, hnode, hw⟩ := hdone.writes write hwrite
      exact ⟨node, hnode, hw.mono (fun _ h => h) (fun _ h => h) (fun _ h => h) (fun _ h => h)
        fun _ h => h⟩
    · have hmore : request.kept (entries ++ [entry]) = request.kept entries ++ [entry] := by
        simp [SetRequest.kept, hdestroy]
      rw [hmore, filterMap_concat, ← append_assoc] at happart hspared ⊢
      rw [hmore, updatedIds, List.map_append] at hdistinct
      rw [updatedIds, List.map_append] at hspared ⊢
      have hdone := ih hbefore (nodup_append.mp hdistinct).1 happart.of_append
        (hspared.mono (subset_append_left _ _) (subset_append_left _ _))
      refine hdone.update hsound ?_ ?_ happart hspared
      · exact mem_filter.mpr ⟨hin, decide_eq_true_eq.mpr hdestroy⟩
      · intro hmem
        exact (nodup_append.mp hdistinct).2.2 _ hmem _ mem_cons_self rfl

theorem accepts_acceptedRun (hsound : Sound account) (hdistinct : (updatedIds request.updates).Nodup)
    (happart : Apart account request (aims account.nodes request))
    (hspared : Spared account request (aims account.nodes request) (updatedIds request.updates)) :
    Accepts server account request (aims account.nodes request) (updatedIds request.updates)
      (acceptedRun server token account request) :=
  accepts_updates hsound (accepts_creates hsound _ (fun _ h => h) happart.of_append) _
    (fun _ h => h) hdistinct happart hspared

end Bearmail.File
