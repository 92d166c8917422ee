import Bearmail.Folder.Commands

/-!
# The mailbox hierarchy

The parents of an account's mailboxes under every sequence of mailbox operations, from IMAP
and from JMAP. Two checks are missing: a rename may put a mailbox below itself, and the
updates of one request are checked one by one but written together. The ids of new mailboxes
can also run into those of default folders when there are several without a fixed id.
-/

namespace Bearmail.Folder

open Parents Relation
open List Option

/-! ## Runs -/

inductive Operation where
  | set (hasMessages : Nat → Bool) (token : AccessToken) (request : SetRequest)
  | create (session : Session) (mailboxName : String) (role : Option SpecialUse)
  | rename (session : Session) (mailboxName newMailboxName : String)
  | delete (hasMessages : Nat → Bool) (session : Session) (mailboxName : String)

def Operation.run (server : Server) (account : Account) : Operation → Account
  | .set hasMessages token request => (mailboxSet server hasMessages token account request).1
  | .create session mailboxName role => (createFolder server session account mailboxName role).1
  | .rename session mailboxName newMailboxName =>
    (renameFolder server session account mailboxName newMailboxName).1
  | .delete hasMessages session mailboxName =>
    (deleteFolder server hasMessages session account mailboxName).1

/-- The moves among some writes: those that give a mailbox another parent. -/
def Moves (before : Mailboxes) (writes : List Write) (id parent : Nat) : Prop :=
  ∃ write ∈ writes, write.id = id ∧ write.mailbox.parent = some parent ∧
    ¬ IsParent (parentOf before) id parent

/-- Moves that lead back to where they started, each to the place of the next mailbox moved, or
below it. -/
def HasCircle (before : Mailboxes) (writes : List Write) : Prop :=
  ∃ id, TransGen (Circles (parentOf before) (Moves before writes)) id id

/-- No mailbox goes below itself: not by the accepted updates of a request, and not by a
rename. -/
def Operation.Orderly (server : Server) (account : Account) : Operation → Prop
  | .set _ token request =>
    ¬ HasCircle (afterCreates server token account request).1
      ((requestUpdates server token account request).map Prod.snd)
  | .rename session mailboxName newMailboxName =>
    ∀ params id mailbox, renameParams server session account mailboxName newMailboxName =
        .ok (params, id, mailbox) →
      ∀ parent, params.parentMailboxId = some parent → ¬ OnPath (parentOf account.mailboxes) parent id
  | .create .. => True
  | .delete .. => True

inductive OrderlyRun (config : Config) (accountId : Nat) : Account → Prop
  | start : OrderlyRun config accountId (createSystemFolders config accountId)
  | step {account : Account} (h : OrderlyRun config accountId account) (server : Server)
      (hconfig : server.config = config) (operation : Operation)
      (horderly : operation.Orderly server account) :
      OrderlyRun config accountId (operation.run server account)

/-- Ids are handed out above those of all mailboxes, and parents form a forest. -/
structure Sound (account : Account) : Prop where
  forest : Forest (parentOf account.mailboxes)
  below : ∀ id, account.mailboxes.lookup id ≠ none → id ≤ account.lastId

/-! ## The start -/

variable {mailboxes before after : Mailboxes} {id last : Nat} {m : Mailbox} {config : Config}
  {hasMessages : Nat → Bool} {token : AccessToken} {writes : List Write} {mailboxName : String}

theorem lookup_foldl_insert {writes : List (Nat × Mailbox)}
    (h : (writes.foldl (fun s w => s.insert w.1 w.2) mailboxes).lookup id = some m) :
    mailboxes.lookup id = some m ∨ (id, m) ∈ writes := by
  induction writes generalizing mailboxes with
  | nil => exact Or.inl h
  | cons w writes ih =>
    rcases ih h with hold | hmem
    · by_cases hid : id = w.1
      · subst hid
        rw [AList.lookup_insert, Option.some.injEq] at hold
        exact Or.inr (hold ▸ mem_cons_self)
      · rw [AList.lookup_insert_ne hid] at hold
        exact Or.inl hold
    · exact Or.inr (mem_cons_of_mem _ hmem)

/-- A default folder is at the root, and only extra ones have an id above the fixed ones. -/
theorem mem_systemFolders {accountId : Nat} {folders : List DefaultFolder}
    (hreal : ∀ folder ∈ folders, folder.specialUse ≠ .shared)
    (h : (id, m) ∈ systemFolders accountId last folders) :
    m.parentId = 0 ∧ (id ≤ archiveId ∨ id ≤ last + (folders.filter DefaultFolder.isExtra).length) := by
  induction folders generalizing last with
  | nil => cases h
  | cons folder folders ih =>
    rcases mem_cons.mp h with heq | hmem
    · obtain ⟨rfl, rfl⟩ := Prod.mk.inj heq
      refine ⟨rfl, ?_⟩
      unfold folderId
      cases huse : folder.specialUse with
      | inbox => left; simp [inboxId, archiveId]
      | trash => left; simp [trashId, archiveId]
      | junk => left; simp [junkId, archiveId]
      | drafts => left; simp [draftsId, archiveId]
      | sent => left; simp [sentId, archiveId]
      | archive => left; simp
      | shared => exact absurd huse (hreal folder mem_cons_self)
      | _ => right; simp [DefaultFolder.isExtra, huse]
    · obtain ⟨hroot, hid⟩ := ih (fun f hf => hreal f (mem_cons_of_mem _ hf)) hmem
      refine ⟨hroot, ?_⟩
      by_cases hextra : folder.isExtra = true
      · rw [if_pos hextra] at hid
        simp only [filter_cons, hextra, if_true, length_cons]
        omega
      · rw [if_neg hextra] at hid
        rw [filter_cons, if_neg hextra]
        exact hid

theorem sound_start {accountId : Nat}
    (hextra : (config.defaultFolders.filter DefaultFolder.isExtra).length ≤ 1) :
    Sound (createSystemFolders config accountId) := by
  have hmem : ∀ id m, (createSystemFolders config accountId).mailboxes.lookup id = some m →
      m.parentId = 0 ∧ id ≤ archiveId + 1 := by
    intro id m hm
    rcases lookup_foldl_insert hm with hempty | hmem
    · cases hempty
    · obtain ⟨hroot, hid⟩ := mem_systemFolders (fun f hf => (config.realUses f hf).2) hmem
      exact ⟨hroot, by omega⟩
  constructor
  · intro id hid
    obtain ⟨p, hp⟩ := ne_none_iff_exists'.mp hid
    obtain ⟨m, hm, -⟩ := parentOf_eq_some.mp hp
    exact .root (parentOf_eq_some.mpr ⟨m, hm, Mailbox.parent_eq_none.mpr (hmem id m hm).1⟩)
  · intro id hid
    obtain ⟨m, hm⟩ := ne_none_iff_exists'.mp hid
    exact (hmem id m hm).2

/-! ## Single writes -/

theorem parentOf_ne_none : parentOf mailboxes id ≠ none ↔ mailboxes.lookup id ≠ none := by
  rw [parentOf, Ne, map_eq_none_iff]

theorem parentOf_insert_self (mailboxes : Mailboxes) (id : Nat) (m : Mailbox) :
    parentOf (mailboxes.insert id m) id = some m.parent := by
  simp [parentOf, AList.lookup_insert]

theorem parentOf_insert_of_ne {id' : Nat} (h : id' ≠ id) :
    parentOf (mailboxes.insert id m) id' = parentOf mailboxes id' := by
  rw [parentOf, AList.lookup_insert_ne h, parentOf]

theorem forest_insert (h : Forest (parentOf mailboxes)) (hfresh : mailboxes.lookup id = none)
    (hparent : ∀ p, m.parent = some p → mailboxes.lookup p ≠ none) :
    Forest (parentOf (mailboxes.insert id m)) := by
  refine h.insert (x := id) (p := m.parent) ?_ ?_ (parentOf_insert_self _ _ _)
    fun y hy => parentOf_insert_of_ne hy
  · simp [parentOf, hfresh]
  · exact fun q hq => parentOf_ne_none.mpr (hparent q hq)

variable {server : Server}

theorem sound_destroy {removeEmails : Bool} {account account' : Account} (h : Sound account)
    (hok : mailboxDestroy server hasMessages token removeEmails account id = .ok account') :
    Sound account' := by
  unfold mailboxDestroy at hok
  split at hok
  · cases hok
  split at hok
  · cases hok
  rename_i hchildren
  split at hok
  · cases hok
  cases hm : account.mailboxes.lookup id with
  | none => simp [hm] at hok
  | some mailbox =>
    simp only [hm] at hok
    split at hok
    · cases hok
    cases hok
    constructor
    · refine h.forest.erase (x := id) ?_ ?_ ?_
      · intro y hy
        obtain ⟨m, hm', hparent⟩ := parentOf_eq_some.mp hy
        refine hchildren (List.any_eq_true.mpr ⟨⟨y, m⟩, ?_, ?_⟩)
        · exact (server.order.lists _).mem.mpr hm'
        · have hp := Mailbox.parent_eq_some.mp hparent
          simp [Mailbox.cachedParentId, hp]
      · simp [parentOf]
      · intro y hy
        simp [parentOf, AList.lookup_erase_ne hy]
    · intro y hy
      refine h.below y fun hnone => hy ?_
      by_cases hyid : y = id
      · subst hyid
        exact AList.lookup_erase _ _
      · rw [AList.lookup_erase_ne hyid]
        exact hnone

/-! ## The creates of a request -/

def Numbered : Nat → List Write → Prop
  | _, [] => True
  | last, write :: writes =>
    write.id = last + 1 ∧ write.assertParent = write.mailbox.parent ∧ Numbered (last + 1) writes

theorem numbered_append {writes' : List Write} : Numbered last (writes ++ writes') ↔
      Numbered last writes ∧ Numbered (last + writes.length) writes' := by
  induction writes generalizing last with
  | nil => simp [Numbered]
  | cons write writes ih =>
    rw [cons_append, Numbered, Numbered, ih, length_cons, Nat.add_right_comm last 1 writes.length]
    tauto

theorem numbered_createStep {ctx : SetContext} {run : CreateRun} (object : String × List Change)
    (h : Numbered last run.writes ∧ run.lastId = last + run.writes.length) :
    Numbered last (createStep server mailboxes ctx run object).writes ∧
      (createStep server mailboxes ctx run object).lastId =
        last + (createStep server mailboxes ctx run object).writes.length := by
  unfold createStep
  split
  · exact h
  · split
    · exact h
    · refine ⟨numbered_append.mpr ⟨h.1, ?_⟩, ?_⟩
      · exact ⟨by rw [h.2], rfl, trivial⟩
      · simp only [length_append, length_singleton]
        omega

theorem numbered_createRun (server : Server) (token : AccessToken) (account : Account)
    (request : SetRequest) :
    Numbered account.lastId (createRun server token account request).writes ∧
      (createRun server token account request).lastId =
        account.lastId + (createRun server token account request).writes.length := by
  unfold createRun
  generalize hrun : CreateRun.mk account.lastId [] account.mailboxes.keys [] [] = run
  have hinit : Numbered account.lastId run.writes ∧ run.lastId = account.lastId + run.writes.length := by
    subst hrun
    exact ⟨trivial, rfl⟩
  clear hrun
  induction request.create generalizing run with
  | nil => exact hinit
  | cons object objects ih => exact ih _ (numbered_createStep object hinit)

theorem forest_numbered {mailboxes' : Mailboxes} (hn : Numbered last writes)
    (hf : Forest (parentOf mailboxes)) (hbelow : ∀ id, mailboxes.lookup id ≠ none → id ≤ last)
    (h : commitChunk mailboxes writes = some mailboxes') :
    Forest (parentOf mailboxes') ∧ ∀ id, mailboxes'.lookup id ≠ none → id ≤ last + writes.length := by
  induction writes generalizing last mailboxes with
  | nil =>
    rw [commitChunk, Option.some.injEq] at h
    exact h ▸ ⟨hf, hbelow⟩
  | cons write writes ih =>
    obtain ⟨hid, hassert, hn⟩ := hn
    obtain ⟨next, happly, hrest⟩ := commitChunk_cons h
    obtain ⟨rfl, hparent, -⟩ := Write.apply_eq_some happly
    have hfresh : mailboxes.lookup write.id = none := by
      by_contra hne
      have := hbelow _ hne
      omega
    have hnext := ih hn (forest_insert hf hfresh fun p hp => ?_) ?_ hrest
    · refine ⟨hnext.1, fun id hne => ?_⟩
      have := hnext.2 id hne
      rw [length_cons]
      omega
    · have := hparent p (hassert.trans hp)
      exact isSome_iff_ne_none.mp this
    · intro id hne
      by_cases heq : id = write.id
      · omega
      · rw [AList.lookup_insert_ne heq] at hne
        have := hbelow id hne
        omega

variable {account : Account}

theorem sound_afterCreates (h : Sound account) (request : SetRequest) :
    Sound { account with
      mailboxes := (afterCreates server token account request).1
      lastId := (createRun server token account request).lastId } := by
  obtain ⟨hn, hlast⟩ := numbered_createRun server token account request
  obtain ⟨front, rest, hsplit, hfront, -⟩ := commitBatch_front server.isLarge account.mailboxes
    (createRun server token account request).writes
  rw [hsplit] at hn
  obtain ⟨hforest, hbelow⟩ :=
    forest_numbered (numbered_append.mp hn).1 h.forest h.below hfront
  refine ⟨hforest, fun id hid => ?_⟩
  have hle := hbelow id hid
  simp only
  rw [hlast, hsplit, length_append]
  omega

/-! ## The updates of a request -/

/-- After some of the writes: every mailbox is what it was, or what an update has made of it,
below a mailbox that was there. -/
def Updated (before : Mailboxes) (writes : List Write) (after : Mailboxes) : Prop :=
  ∀ id, after.lookup id = before.lookup id ∨
    ∃ write ∈ writes, write.id = id ∧ after.lookup id = some write.mailbox ∧
      ∀ p, write.mailbox.parent = some p → before.lookup p ≠ none

/-- Updates are writes of mailboxes that were there, and assert their parents. -/
structure AreUpdates (before : Mailboxes) (writes : List Write) : Prop where
  there : ∀ write ∈ writes, before.lookup write.id ≠ none
  parent : ∀ write ∈ writes, write.assertParent = write.mailbox.parent

theorem Updated.lookup_ne_none (hw : AreUpdates before writes) (h : Updated before writes after)
    (id : Nat) : after.lookup id ≠ none ↔ before.lookup id ≠ none := by
  rcases h id with hsame | ⟨write, hmem, rfl, hsome, -⟩
  · rw [hsame]
  · rw [hsome]
    exact ⟨fun _ => hw.there write hmem, fun _ => some_ne_none _⟩

theorem updated_commitBatch (isLarge : List Write → Bool) (hw : AreUpdates before writes) :
    Updated before writes (commitBatch isLarge before writes).1 := by
  refine commitBatch_keeps isLarge (P := Updated before writes) (fun id => Or.inl rfl) ?_
  intro write hmem s s' hs happly id
  obtain ⟨rfl, hparent, -⟩ := Write.apply_eq_some happly
  by_cases hid : id = write.id
  · refine Or.inr ⟨write, hmem, hid.symm, ?_, fun p hp => ?_⟩
    · rw [hid, AList.lookup_insert]
    · have hsome := hparent p ((hw.parent write hmem).trans hp)
      exact (hs.lookup_ne_none hw p).mp (isSome_iff_ne_none.mp hsome)
  · rw [AList.lookup_insert_ne hid]
    exact hs id

theorem forest_updated (hw : AreUpdates before writes) (hf : Forest (parentOf before))
    (hu : Updated before writes after) (hno : ¬ HasCircle before writes) :
    Forest (parentOf after) := by
  have hmoves : ∀ m q, (Moves before writes m q ∧ parentOf before q ≠ none) →
      m ∈ {id | id ∈ writes.map Write.id} := by
    rintro m q ⟨⟨write, hmem, rfl, -⟩, -⟩
    exact List.mem_map_of_mem hmem
  refine hf.move (finite_toSet (writes.map Write.id)) hmoves ?_ (fun m q h => h.2) ?_ ?_
  · intro x hx
    rw [parentOf_ne_none] at hx ⊢
    exact (hu.lookup_ne_none hw x).mp hx
  · intro x
    rcases hu x with hsame | ⟨write, hmem, hid, hsome, hparent⟩
    · exact Or.inl (by rw [parentOf, hsame, parentOf])
    · have hafter : parentOf after x = some write.mailbox.parent := by
        simp [parentOf, hsome]
      cases hp : write.mailbox.parent with
      | none => exact Or.inr (Or.inl (hafter.trans (by rw [hp])))
      | some q =>
        rw [hp] at hafter
        by_cases hold : IsParent (parentOf before) x q
        · exact Or.inl (hafter.trans hold.symm)
        · exact Or.inr (Or.inr ⟨q, hafter, ⟨write, hmem, hid, hp, hold⟩,
            parentOf_ne_none.mpr (hparent q hp)⟩)
  · intro m hcircle
    refine hno ⟨m, TransGen.mono ?_ _ _ hcircle⟩
    rintro a b ⟨q, hq, hpath, q', hq'⟩
    exact ⟨q, hq.1, hpath, q', hq'.1⟩

theorem areUpdates_requestUpdates (server : Server) (token : AccessToken) (account : Account)
    (request : SetRequest) :
    AreUpdates (afterCreates server token account request).1
      ((requestUpdates server token account request).map Prod.snd) := by
  constructor
  · intro write hmem
    obtain ⟨current, changes, hcurrent, -⟩ := mem_requestUpdates hmem
    rw [hcurrent]
    exact some_ne_none _
  · intro write hmem
    obtain ⟨current, changes, -, -, hassert, -⟩ := mem_requestUpdates hmem
    exact hassert

theorem sound_foldl_destroyStep {removeEmails : Bool} (ids : List Nat)
    {run : Account × SetResponse} (h : Sound run.1) :
    Sound (ids.foldl (destroyStep server hasMessages token removeEmails) run).1 := by
  induction ids generalizing run with
  | nil => exact h
  | cons id ids ih =>
    refine ih ?_
    unfold destroyStep
    cases hd : mailboxDestroy server hasMessages token removeEmails run.1 (documentId id) with
    | ok account => exact sound_destroy h hd
    | error err => exact h

theorem sound_mailboxSet {request : SetRequest}
    (h : Sound account) (hno : (Operation.set hasMessages token request).Orderly server account) :
    Sound (mailboxSet server hasMessages token account request).1 := by
  have hcreated : Sound { account with
      mailboxes := (afterCreates server token account request).1
      lastId := (createRun server token account request).lastId } := sound_afterCreates h request
  have hw := areUpdates_requestUpdates server token account request
  simp only [mailboxSet]
  by_cases hwritten : (afterCreates server token account request).2 = false
  · rw [if_pos hwritten]
    exact hcreated
  · rw [if_neg hwritten]
    refine sound_foldl_destroyStep _ ?_
    have hu := updated_commitBatch server.isLarge hw
    refine ⟨forest_updated hw hcreated.forest hu hno, fun id hid => ?_⟩
    exact hcreated.below id ((hu.lookup_ne_none hw id).mp hid)

/-! ## What the check of a move does -/

/-! ## Names and paths -/

section Names

variable {server : Server} {session : Session} {account : Account}

theorem specialUse_mem {items : List Item} {use : SpecialUse} (h : specialUse items use = some id) :
    ∃ item ∈ items, item.1 = id := by
  unfold specialUse at h
  split at h
  · cases h
  · obtain ⟨item, hfind, rfl⟩ := map_eq_some_iff.mp h
    exact ⟨item, mem_reverse.mp (List.mem_of_find?_eq_some hfind), rfl⟩

theorem effectiveMailboxId_mem {items : List Item} {name : String} {item : Item} (h : item ∈ items) :
    ∃ found ∈ items, found.1 = effectiveMailboxId config items name item.1 := by
  unfold effectiveMailboxId
  cases hfound : (config.defaultFolders.find? fun folder =>
      decide (folder.name = name ∨ name ∈ folder.aliases)).bind fun folder =>
    specialUse items folder.specialUse with
  | none => exact ⟨item, h, rfl⟩
  | some id =>
    obtain ⟨folder, -, huse⟩ := bind_eq_some_iff.mp hfound
    exact specialUse_mem huse

theorem mem_mailboxNames {name : String} (h : (name, id) ∈ mailboxNames server session account) :
    account.mailboxes.lookup id ≠ none := by
  obtain ⟨item, hitem, heq⟩ := List.mem_map.mp (mem_reverse.mp h)
  obtain ⟨-, rfl⟩ := Prod.mk.inj heq
  obtain ⟨found, hfound, hid⟩ := effectiveMailboxId_mem hitem
  rw [← hid, (server.order.lists account.mailboxes).mem.mp (mem_of_mem_filter hfound)]
  exact some_ne_none _

theorem findParent_mem {names : List (String × Nat)} {accountPrefix : Option String}
    {path create : List String} (h : (findParent names accountPrefix path create).1 = some id) :
    ∃ name, (name, id) ∈ names := by
  induction path generalizing create with
  | nil => cases h
  | cons item rest ih =>
    rw [findParent] at h
    cases hlookup : names.lookup (joinPath (item :: rest).reverse) with
    | some id' =>
      simp only [hlookup, Option.some.injEq] at h
      obtain ⟨before, after, heq, -⟩ := lookup_eq_some_iff.mp hlookup
      refine ⟨joinPath (item :: rest).reverse, ?_⟩
      rw [heq, ← h]
      exact mem_append_right _ mem_cons_self
    | none =>
      simp only [hlookup] at h
      split at h
      · cases h
      · exact ih h

theorem validateMailboxCreate_ok {role : Option SpecialUse} {params : CreateParams}
    (h : validateMailboxCreate server session account mailboxName role = .ok params)
    (hid : params.parentMailboxId = some id) : account.mailboxes.lookup id ≠ none := by
  obtain ⟨parsed, -, h⟩ := Fallible.bind_eq_ok.mp h
  obtain ⟨path, -, h⟩ := Fallible.bind_eq_ok.mp h
  dsimp only at h
  split at h
  · cases h
  · obtain ⟨-, -, h⟩ := Fallible.bind_eq_ok.mp h
    obtain ⟨-, -, h⟩ := Fallible.bind_eq_ok.mp h
    obtain rfl := Except.ok.inj h
    split at hid
    · obtain ⟨name, hname⟩ := findParent_mem hid
      exact mem_mailboxNames hname
    · cases hid

theorem renameSource_ok {mailbox : Mailbox}
    (h : renameSource server session account mailboxName = .ok (id, mailbox)) :
    account.mailboxes.lookup id = some mailbox := by
  unfold renameSource at h
  split at h
  · cases h
  cases hname : (mailboxNames server session account).lookup mailboxName with
  | none => simp [hname] at h
  | some found =>
    simp only [hname] at h
    cases hm : account.mailboxes.lookup found with
    | none => simp [hm] at h
    | some m =>
      simp only [hm] at h
      split at h
      · cases h
      · cases h
        exact hm

theorem renameParams_ok {newMailboxName : String} {params : CreateParams} {mailbox : Mailbox}
    (h : renameParams server session account mailboxName newMailboxName = .ok (params, id, mailbox)) :
    validateMailboxCreate server session account newMailboxName none = .ok params ∧
      account.mailboxes.lookup id = some mailbox := by
  obtain ⟨params', hparams, h⟩ := Fallible.bind_eq_ok.mp h
  obtain ⟨source, hsource, h⟩ := Fallible.bind_eq_ok.mp h
  dsimp only at h
  split at h
  · obtain ⟨-, -, h⟩ := Fallible.bind_eq_ok.mp h
    cases h
    exact ⟨hparams, renameSource_ok hsource⟩
  · cases h
    exact ⟨hparams, renameSource_ok hsource⟩

end Names

/-! ## Paths of new mailboxes -/

/-- A place for a new mailbox, or for the one that is renamed: the root, or below a mailbox that
is there and not below `id`. -/
def IsPlace (mailboxes : Mailboxes) (id parentId : Nat) : Prop :=
  ∀ p, parentId = p + 1 → mailboxes.lookup p ≠ none ∧ ¬ OnPath (parentOf mailboxes) p id

theorem isPlace_insert (hf : Forest (parentOf mailboxes)) {new : Nat} (hid : id ≠ new)
    (hfresh : mailboxes.lookup new = none) (hplace : IsPlace mailboxes id m.parentId) :
    IsPlace (mailboxes.insert new m) id (new + 1) := by
  intro p hp
  obtain rfl : new = p := Nat.succ.inj hp
  refine ⟨by rw [AList.lookup_insert]; exact some_ne_none _, fun hpath => ?_⟩
  rcases Relation.ReflTransGen.cases_head hpath with rfl | ⟨q, hq, hrest⟩
  · exact hid rfl
  · rw [IsParent, parentOf_insert_self, Option.some.injEq] at hq
    obtain ⟨hexists, hnot⟩ := hplace q (Mailbox.parent_eq_some.mp hq)
    have hnone : parentOf mailboxes new = none := by simp [parentOf, hfresh]
    exact hnot (hf.onPath_of_insert hnone (fun y hy => parentOf_insert_of_ne hy)
      (parentOf_ne_none.mpr hexists) hrest)

/-- What the new mailboxes of a path leave behind. -/
structure PathWritten (before after : Mailboxes) (last next : Nat) : Prop where
  forest : Forest (parentOf after)
  kept : ∀ id, before.lookup id ≠ none → after.lookup id = before.lookup id
  fresh : ∀ id, after.lookup id ≠ none → before.lookup id ≠ none ∨ last < id ∧ id ≤ next

theorem pathWritten_refl (hf : Forest (parentOf mailboxes)) (last next : Nat) :
    PathWritten mailboxes mailboxes last next :=
  ⟨hf, fun _ _ => rfl, fun _ h => Or.inl h⟩

theorem commitChunk_pathWrites (role : Option SpecialUse) {items : List String} {parentId : Nat}
    (hf : Forest (parentOf mailboxes))
    (hfresh : ∀ k, last < k → k ≤ last + items.length → mailboxes.lookup k = none)
    (hid : id ≤ last ∨ last + items.length < id) (hplace : IsPlace mailboxes id parentId) :
    ∃ after, commitChunk mailboxes (pathWrites role items (last + items.length) parentId) =
        some after ∧ PathWritten mailboxes after last (last + items.length) ∧
      IsPlace after id (lastParent items (last + items.length) parentId) := by
  induction items generalizing mailboxes parentId with
  | nil => exact ⟨mailboxes, rfl, pathWritten_refl hf _ _, hplace⟩
  | cons item items ih =>
    rw [pathWrites, length_cons]
    generalize hm : ({ Mailbox.new item with
      parentId
      role := if items.isEmpty then role.getD .none else .none } : Mailbox) = m
    have hparent : m.parentId = parentId := by rw [← hm]
    rw [← hparent] at hplace
    have hnew : mailboxes.lookup (last + (items.length + 1)) = none :=
      hfresh _ (by omega) (by rw [length_cons])
    have happly : (Write.mk (last + (items.length + 1)) m none none).apply mailboxes =
        some (mailboxes.insert (last + (items.length + 1)) m) := by
      simp [Write.apply]
    have hforest : Forest (parentOf (mailboxes.insert (last + (items.length + 1)) m)) :=
      forest_insert hf hnew fun p hp => (hplace p (Mailbox.parent_eq_some.mp hp)).1
    have hkept : ∀ k, k ≠ last + (items.length + 1) →
        (mailboxes.insert (last + (items.length + 1)) m).lookup k = mailboxes.lookup k :=
      fun k hk => AList.lookup_insert_ne hk
    rw [length_cons] at hid
    obtain ⟨after, hcommit, hwritten, hlast⟩ := ih hforest (fun k hlow hhigh => by
        rw [hkept k (by omega)]
        exact hfresh k hlow (by rw [length_cons]; omega))
      (by omega) (isPlace_insert hf (by omega) hnew hplace)
    refine ⟨after, ?_, ⟨hwritten.forest, fun k hk => ?_, fun k hk => ?_⟩, hlast⟩
    · rw [commitChunk]
      exact hcommit
    · have hne : k ≠ last + (items.length + 1) := fun heq => hk (heq ▸ hnew)
      rw [← hkept k hne] at hk ⊢
      exact hwritten.kept k hk
    · rcases hwritten.fresh k hk with hold | hrange
      · by_cases hne : k = last + (items.length + 1)
        · exact Or.inr ⟨by omega, by omega⟩
        · rw [hkept k hne] at hold
          exact Or.inl hold
      · exact Or.inr ⟨hrange.1, by omega⟩

theorem sound_pathWritten (h : Sound account) {n : Nat}
    (hw : PathWritten account.mailboxes after account.lastId (account.lastId + n)) :
    Sound { account.assignDocumentIds n with mailboxes := after } := by
  refine ⟨hw.forest, fun id hid => ?_⟩
  simp only [Account.assignDocumentIds]
  rcases hw.fresh id hid with hold | hrange
  · have := h.below id hold
    omega
  · exact hrange.2

theorem Sound.fresh (h : Sound account) (n k : Nat) (hk : account.lastId < k)
    (_ : k ≤ account.lastId + n) : account.mailboxes.lookup k = none := by
  by_contra hne
  have := h.below k hne
  omega

/-! ## Commands -/

theorem elim_succ_eq {parent : Option Nat} {p : Nat} (h : parent.elim 0 (· + 1) = p + 1) :
    parent = some p := by
  cases parent with
  | none => cases h
  | some q => exact congrArg some (Nat.succ.inj h)

theorem sound_createFolder {session : Session} {role : Option SpecialUse} (h : Sound account) :
    Sound (createFolder server session account mailboxName role).1 := by
  unfold createFolder
  cases hparams : createParams server session account mailboxName role with
  | error err => exact h
  | ok params =>
    obtain ⟨params', hvalid, hparams⟩ := Fallible.bind_eq_ok.mp hparams
    obtain ⟨-, -, hparams⟩ := Fallible.bind_eq_ok.mp hparams
    obtain rfl := Except.ok.inj hparams
    -- no mailbox is renamed: an id that is not there stands for it
    have hplace : IsPlace account.mailboxes (account.lastId + params'.path.length + 1)
        (params'.parentMailboxId.elim 0 (· + 1)) := by
      intro p hp
      have hexists := validateMailboxCreate_ok hvalid (elim_succ_eq hp)
      refine ⟨hexists, fun hpath => ?_⟩
      have hlast := h.below _ (parentOf_ne_none.mp
        (h.forest.onPath_exists (parentOf_ne_none.mpr hexists) hpath))
      omega
    obtain ⟨after, hcommit, hwritten, -⟩ := commitChunk_pathWrites role h.forest
      (h.fresh params'.path.length) (Or.inr (Nat.lt_succ_self _)) hplace
    simp only [commitCommand, Account.assignDocumentIds]
    rw [commitBatch_of_commitChunk server.isLarge hcommit]
    exact sound_pathWritten h hwritten

theorem sound_renameFolder {session : Session} {newMailboxName : String} (h : Sound account)
    (horderly : (Operation.rename session mailboxName newMailboxName).Orderly server account) :
    Sound (renameFolder server session account mailboxName newMailboxName).1 := by
  unfold renameFolder
  cases hparams : renameParams server session account mailboxName newMailboxName with
  | error err => exact h
  | ok result =>
    obtain ⟨params, id, mailbox⟩ := result
    obtain ⟨hvalid, hsource⟩ := renameParams_ok hparams
    have hid : account.mailboxes.lookup id ≠ none := by
      rw [hsource]
      exact some_ne_none _
    have hplace : IsPlace account.mailboxes id (params.parentMailboxId.elim 0 (· + 1)) := by
      intro p hp
      have hparent := elim_succ_eq hp
      exact ⟨validateMailboxCreate_ok hvalid hparent, horderly params id mailbox hparams p hparent⟩
    obtain ⟨after, hcommit, hwritten, hlast⟩ := commitChunk_pathWrites none h.forest
      (h.fresh params.path.dropLast.length) (Or.inl (h.below id hid)) hplace
    have hsound := sound_pathWritten h hwritten
    have hafter : after.lookup id = some mailbox := (hwritten.kept id hid).trans hsource
    generalize hparentId : lastParent params.path.dropLast (account.lastId + params.path.dropLast.length)
      (params.parentMailboxId.elim 0 (· + 1)) = parentId at hlast
    have hall : commitChunk (account.assignDocumentIds params.path.dropLast.length).mailboxes
        (renameWrites params (account.assignDocumentIds params.path.dropLast.length) id mailbox) =
        some (after.insert id { mailbox with
          name := params.path.getLast?.getD ""
          parentId := parentId }) := by
      simp only [renameWrites, Account.assignDocumentIds]
      rw [commitChunk_append, hcommit, hparentId]
      simp [commitChunk, Write.apply, hafter]
    simp only [commitCommand]
    rw [commitBatch_of_commitChunk server.isLarge hall]
    constructor
    · refine hsound.forest.moveOne (x := id) ?_ ?_ (parentOf_insert_self _ _ _)
        fun y hy => parentOf_insert_of_ne hy
      · rw [parentOf_ne_none, hafter]
        exact some_ne_none _
      · intro q hq
        obtain ⟨hexists, hnot⟩ := hlast q (Mailbox.parent_eq_some.mp hq)
        exact ⟨parentOf_ne_none.mpr hexists, hnot⟩
    · intro y hy
      by_cases heq : y = id
      · have := h.below id hid
        simp only [Account.assignDocumentIds]
        omega
      · rw [AList.lookup_insert_ne heq] at hy
        exact hsound.below y hy

theorem sound_deleteFolder {session : Session} (h : Sound account) :
    Sound (deleteFolder server hasMessages session account mailboxName).1 := by
  unfold deleteFolder
  cases getMailboxByName session (mailboxNames server session account) mailboxName with
  | none => exact h
  | some id =>
    simp only
    cases hdestroy : mailboxDestroy server hasMessages session.token true account id with
    | error err => exact h
    | ok account' => exact sound_destroy h hdestroy

/-! ## Every run -/

theorem sound_run {operation : Operation}
    (h : Sound account) (horderly : operation.Orderly server account) :
    Sound (operation.run server account) := by
  cases operation with
  | set hasMessages token request => exact sound_mailboxSet h horderly
  | create session mailboxName role => exact sound_createFolder h
  | rename session mailboxName newMailboxName => exact sound_renameFolder h horderly
  | delete hasMessages session mailboxName => exact sound_deleteFolder h

theorem sound_orderlyRun {accountId : Nat}
    (hextra : (config.defaultFolders.filter DefaultFolder.isExtra).length ≤ 1)
    (h : OrderlyRun config accountId account) : Sound account := by
  induction h with
  | start => exact sound_start hextra
  | step _ server _ operation horderly ih => exact sound_run ih horderly

/-- In every account that is reached, when no operation puts a mailbox below itself, the
parents form a forest, and every mailbox gets the path made of the names of its ancestors. -/
theorem run_forest {config : Config} {accountId : Nat} {account : Account}
    (hextra : (config.defaultFolders.filter DefaultFolder.isExtra).length ≤ 1)
    (h : OrderlyRun config accountId account) :
    (∀ id, ¬ TransGen (IsParent (parentOf account.mailboxes)) id id) ∧
      (∀ id parent, IsParent (parentOf account.mailboxes) id parent →
        account.mailboxes.lookup parent ≠ none) ∧
      ∀ items order, Lists items account.mailboxes →
        Topological.Orders (treeEdges items) order →
        ∀ id, account.mailboxes.lookup id ≠ none →
          ∃ path, PathOf items id path ∧ buildTree items order id = some path := by
  have hsound := sound_orderlyRun hextra h
  refine ⟨hsound.forest.not_ancestor, ?_, ?_⟩
  · intro id parent hparent
    exact parentOf_ne_none.mp (hsound.forest.parent_exists hparent)
  · intro items order hlists horder id hid
    exact buildTree_path hlists hsound.forest horder hid

/-! ## An account -/

/-- A server with three default folders, which lists mailboxes as they are stored. -/
def threeFolders : Server where
  config :=
    { mailboxMaxDepth := 10
      mailboxNameMaxLen := 255
      maxMailboxes := 100
      sharedFolder := "Shared Folders"
      defaultFolders :=
        [⟨"Inbox", [], .inbox, true⟩, ⟨"Drafts", [], .drafts, true⟩, ⟨"Sent", [], .sent, true⟩]
      toLowercase := String.toLower
      distinctUses := by decide
      realUses := by decide }
  aclValidate := fun _ => none
  isLarge := fun _ => false
  order := ⟨AList.entries, fun _ => List.Perm.refl _⟩

def owner : AccessToken := ⟨1, fun id => id == 1, fun _ => false⟩

def ownSession : Session := ⟨owner, none, fun _ => false, fun items => 0 :: items.map (·.1 + 1)⟩

/-- Drafts below Sent and Sent below Drafts, in one request. -/
def swapRequest : SetRequest where
  create := []
  update := [(draftsId, [.parentId sentId]), (sentId, [.parentId draftsId])]
  destroy := []
  onDestroyRemoveEmails := false

theorem run_forest_created :
    (threeFolders.config.defaultFolders.filter DefaultFolder.isExtra).length ≤ 1 ∧
      ∀ id, ¬ TransGen (IsParent (parentOf ((Operation.create ownSession "Work/Bills" none).run
        threeFolders (createSystemFolders threeFolders.config 1)).mailboxes)) id id :=
  ⟨by decide, (run_forest (by decide)
    (.step .start threeFolders rfl (.create ownSession "Work/Bills" none) trivial)).1⟩

/-- Each of two updates is checked against the mailboxes as they are before the request. -/
theorem updates_form_circle :
    TransGen (IsParent (parentOf ((Operation.set (fun _ => false) owner swapRequest).run
      threeFolders (createSystemFolders threeFolders.config 1)).mailboxes)) draftsId draftsId := by
  refine .head (b := sentId) ?_ (.single ?_)
  all_goals
    rw [IsParent]
    decide

end Bearmail.Folder
