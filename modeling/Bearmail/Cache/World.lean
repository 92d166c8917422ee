import Bearmail.Cache.Said

/-!
# Documents and the log

What holds of the documents and the log in every state (`World`), and what a commit does to what the
log says about a document: `Agrees.commit`, that a value that was right, or was named by the log, is
still so, unless the document is deleted and had been inserted behind the change id.
-/

namespace Bearmail.Cache

open Sync

/-- Files and scheduling messages are items. -/
def Valid (collection : SyncCollection) (key : Bool × Nat) : Prop :=
  key.1 = true → collection.isCalcard = true

/-- The log of the store, and what it says about the documents. -/
structure World (collection : SyncCollection) (server : Server) : Prop where
  ascending : Ascending server.history
  positive : ∀ commit ∈ server.history, 0 < commit.1
  fresh : ∀ isContainer, Fresh isContainer server.history
  distinct : ∀ commit ∈ server.history, commit.2.Distinct
  noProperties : ∀ commit ∈ server.history, ∀ isContainer, commit.2.propertyChanges isContainer = []
  noUpdates : collection = .calendarEventNotification → ∀ commit ∈ server.history,
    ∀ isContainer, commit.2.updates isContainer = []
  valid : ∀ commit ∈ server.history, ∀ key : Bool × Nat, commit.2.mentions key.1 key.2 →
    Valid collection key
  log : ∃ cut, server.log = recorded cut server.history ∧
    ∀ k, cut = some k → k ∈ server.history.map Prod.fst
  documents : ∀ key : Bool × Nat, (server.documents.lookup key).isSome =
    existing key.1 key.2 server.history
  fits : ∀ key data, server.documents.lookup key = some data → fits collection key.1 key.2 data = true

variable {config : Config} {collection : SyncCollection} {server server' : Server}

theorem valid_of_fits {key : Bool × Nat} {data : DavResourceMetadata}
    (h : fits collection key.1 key.2 data = true) : Valid collection key := by
  intro hkey
  rw [hkey] at h
  cases collection with
  | calendar | addressBook => rfl
  | fileNode | calendarEventNotification => cases data <;> cases h

structure Committed (config : Config) (server : Server) (changeId : Nat) (writes : List Write)
    (server' : Server) : Prop where
  positive : 0 < changeId
  last : ∀ commit ∈ server.history, commit.1 < changeId
  nodup : (writes.map Write.key).Nodup
  valid : ∀ write ∈ writes, write.isValid config.collection server.documents server.history = true
  eq : server' = { server with
    documents := writes.foldl Write.apply server.documents
    log := server.log ++ [(changeId, some (entryOf writes))]
    history := server.history ++ [(changeId, entryOf writes)] }

theorem committed_of_commit {changeId : Nat} {writes : List Write}
    (h : commit config server changeId writes = some server') :
    Committed config server changeId writes server' := by
  unfold commit at h
  split at h
  · rename_i hcond
    cases h
    exact ⟨hcond.1, hcond.2.1, hcond.2.2.1, List.all_eq_true.mp hcond.2.2.2, rfl⟩
  · cases h

section Commit

variable {changeId : Nat} {writes : List Write}

variable (h : Committed config server changeId writes server')
include h

theorem Committed.write {write : Write} (hwrite : write ∈ writes) :
    match write with
    | .insert isContainer id data =>
      (∀ commit ∈ server.history, ¬ commit.2.mentions isContainer id) ∧
        fits config.collection isContainer id data = true
    | .update isContainer id data => server.documents.lookup (isContainer, id) ≠ none ∧
      fits config.collection isContainer id data = true ∧
      config.collection ≠ .calendarEventNotification
    | .delete isContainer id => server.documents.lookup (isContainer, id) ≠ none := by
  have hvalid := h.valid write hwrite
  cases write with
  | insert isContainer id data =>
    rw [Write.isValid, Bool.and_eq_true] at hvalid
    refine ⟨fun commit hcommit hmentions => ?_, hvalid.2⟩
    have hnew := List.all_eq_true.mp hvalid.1 commit hcommit
    rw [Bool.and_eq_true, Bool.not_eq_true', decide_eq_true_eq] at hnew
    rcases hmentions with htouches | hdeletes
    · rw [hnew.1] at htouches
      cases htouches
    · exact hnew.2 hdeletes
  | update isContainer id data =>
    rw [Write.isValid, Bool.and_eq_true, Bool.and_eq_true, decide_eq_true_eq] at hvalid
    exact ⟨Option.isSome_iff_ne_none.mp hvalid.1.1, hvalid.1.2, hvalid.2⟩
  | delete isContainer id => exact Option.isSome_iff_ne_none.mp hvalid

theorem Committed.history : server'.history = server.history ++ [(changeId, entryOf writes)] := by
  rw [h.eq]

theorem Committed.leaves {write : Write} (hwrite : write ∈ writes) (present : Bool) :
    (entryOf writes).leaves write.key.1 write.key.2 present =
      match write with
      | .insert .. => true
      | .update .. => present
      | .delete .. => false := by
  obtain ⟨hinserts, -, -, hdeletes⟩ := entryOf_ids writes write.key.1
  have hmem : ∀ kind, write.key.2 ∈ Write.ids kind write.key.1 writes ↔ write.kind = kind := by
    intro kind
    rw [mem_ids]
    constructor
    · rintro ⟨write', hwrite', hkind, hkey⟩
      rw [← hkind, List.inj_on_of_nodup_map h.nodup hwrite' hwrite hkey]
    · exact fun hkind => ⟨write, hwrite, hkind, rfl⟩
  rw [LogEntry.leaves, hinserts, hdeletes]
  simp only [hmem]
  cases write <;> simp [Write.kind]

omit h

theorem World.commit (hworld : World config.collection server)
    (h : Committed config server changeId writes server') : World config.collection server' := by
  have hhistory := h.history
  have hlast : ∀ commit ∈ server'.history, commit ∈ server.history ∨
      commit = (changeId, entryOf writes) := by
    intro commit hcommit
    rw [hhistory] at hcommit
    exact (List.mem_append.mp hcommit).imp_right List.mem_singleton.mp
  have hwrites : ∀ key : Bool × Nat, (∃ write ∈ writes, write.key = key) →
      Valid config.collection key := by
    rintro key ⟨write, hwrite, rfl⟩
    have hneeds := h.write hwrite
    cases write with
    | insert isContainer id data => exact valid_of_fits hneeds.2
    | update isContainer id data => exact valid_of_fits hneeds.2.1
    | delete isContainer id =>
      obtain ⟨data, hdata⟩ := Option.ne_none_iff_exists'.mp hneeds
      exact valid_of_fits (hworld.fits _ data hdata)
  refine ⟨?_, ?_, ?_, ?_, ?_, ?_, ?_, ?_, ?_, ?_⟩
  · rw [hhistory]
    exact ascending_append hworld.ascending h.last
  · intro commit hcommit
    rcases hlast commit hcommit with hold | rfl
    · exact hworld.positive commit hold
    · exact h.positive
  · intro isContainer
    rw [hhistory]
    refine List.pairwise_append.mpr ⟨hworld.fresh isContainer, List.pairwise_singleton _ _, ?_⟩
    intro commit hcommit new hnew id hid
    rw [List.mem_singleton.mp hnew, (entryOf_ids writes isContainer).1] at hid
    obtain ⟨write, hwrite, hkind, hkey⟩ := mem_ids.mp hid
    have hneeds := h.write hwrite
    cases write with
    | insert container id' data =>
      obtain ⟨rfl, rfl⟩ := Prod.mk.inj hkey
      exact hneeds.1 commit hcommit
    | update | delete => cases hkind
  · intro commit hcommit
    rcases hlast commit hcommit with hold | rfl
    · exact hworld.distinct commit hold
    · exact distinct_entryOf h.nodup
  · intro commit hcommit isContainer
    rcases hlast commit hcommit with hold | rfl
    · exact hworld.noProperties commit hold isContainer
    · exact (entryOf_ids writes isContainer).2.2.1
  · intro hscheduling commit hcommit isContainer
    rcases hlast commit hcommit with hold | rfl
    · exact hworld.noUpdates hscheduling commit hold isContainer
    · rw [(entryOf_ids writes isContainer).2.1]
      refine List.eq_nil_iff_forall_not_mem.mpr fun id hid => ?_
      obtain ⟨write, hwrite, hkind, -⟩ := mem_ids.mp hid
      have hneeds := h.write hwrite
      cases write with
      | insert => cases hkind
      | update => exact hneeds.2.2 hscheduling
      | delete => cases hkind
  · intro commit hcommit key hmentions
    rcases hlast commit hcommit with hold | rfl
    · exact hworld.valid commit hold key hmentions
    · exact hwrites key (mentions_entryOf.mp hmentions)
  · obtain ⟨cut, hlog, hcut⟩ := hworld.log
    refine ⟨cut, ?_, fun k hk => ?_⟩
    · rw [hhistory, recorded_append, ← hlog, h.eq]
      · rfl
      · intro k hk
        obtain ⟨commit, hcommit, heq⟩ := List.mem_map.mp (hcut k hk)
        rw [← heq]
        exact h.last commit hcommit
    · rw [hhistory, List.map_append]
      exact List.mem_append_left _ (hcut k hk)
  · intro key
    rw [hhistory, existing_append_singleton, ← hworld.documents key, h.eq]
    by_cases hwritten : ∃ write ∈ writes, write.key = key
    · obtain ⟨write, hwrite, rfl⟩ := hwritten
      have hneeds := h.write hwrite
      rw [h.leaves hwrite, lookup_apply h.nodup hwrite]
      cases write with
      | insert => rfl
      | update => exact (Option.isSome_iff_ne_none.mpr hneeds.1).symm
      | delete => rfl
    · rw [LogEntry.leaves_of_not_mentions fun hmentions => hwritten (mentions_entryOf.mp hmentions),
        lookup_apply_of_ne fun write hwrite heq => hwritten ⟨write, hwrite, heq⟩]
  · intro key data hdata
    rw [h.eq] at hdata
    by_cases hwritten : ∃ write ∈ writes, write.key = key
    · obtain ⟨write, hwrite, rfl⟩ := hwritten
      have hneeds := h.write hwrite
      rw [lookup_apply h.nodup hwrite] at hdata
      cases write with
      | insert => cases hdata; exact hneeds.2
      | update => cases hdata; exact hneeds.2.1
      | delete => cases hdata
    · rw [lookup_apply_of_ne fun write hwrite heq => hwritten ⟨write, hwrite, heq⟩] at hdata
      exact hworld.fits key data hdata

end Commit

/-! ## Values of a document -/

/-- A value is that of the document in the store, or the log names the document behind the change id. -/
def Agrees (server : Server) (changeId : Nat) (key : Bool × Nat) (value : Option DavResourceMetadata) :
    Prop :=
  said server.history changeId key ≠ [] ∨ value = server.documents.lookup key

theorem deleteKinds_ne_nil {kinds : List ChangeKind} (h : ChangeKind.insert ∉ kinds) :
    deleteKinds kinds ≠ [] := by
  unfold deleteKinds
  split
  · rename_i hfound
    exact absurd (List.mem_of_find?_eq_some hfound) h
  · simp
  · simp

variable {changeId' : Nat}

section Values

variable {changeId newId : Nat} {writes : List Write} {key : Bool × Nat}

theorem said_append {history : History} {commit : Nat × LogEntry} (h : changeId < commit.1) :
    said (history ++ [commit]) changeId key = commit.2.fold key.1 key.2 (said history changeId key) := by
  rw [said, after, List.filter_append, List.filter_cons_of_pos (by simpa using h), List.filter_nil,
    saidBy_append_singleton]
  rfl

variable (h : Committed config server newId writes server')
include h

theorem Committed.said (hlt : changeId < newId) : said server'.history changeId key =
      (entryOf writes).fold key.1 key.2 (said server.history changeId key) := by
  rw [h.history]
  exact said_append hlt

theorem Agrees.commit (hlt : changeId < newId) {value : Option DavResourceMetadata}
    (hdelete : .delete key.1 key.2 ∈ writes → value ≠ none →
      ChangeKind.insert ∉ said server.history changeId key)
    (hagrees : Agrees server changeId key value) : Agrees server' changeId key value := by
  unfold Agrees
  rw [h.said hlt]
  by_cases hwritten : ∃ write ∈ writes, write.key = key
  · obtain ⟨write, hwrite, rfl⟩ := hwritten
    rw [fold_entryOf h.nodup hwrite]
    cases write with
    | insert => exact Or.inl (by simp [Write.fold, insertKinds])
    | update =>
      obtain ⟨-, -, ⟨kind, hkind, -⟩, -⟩ := mem_updateKinds false
        (Cache.said server.history changeId (Write.key (.update _ _ _)))
      exact Or.inl (List.ne_nil_of_mem hkind)
    | delete isContainer id =>
      by_cases hinsert : ChangeKind.insert ∈ Cache.said server.history changeId (isContainer, id)
      · refine Or.inr ?_
        rw [h.eq, lookup_apply h.nodup hwrite]
        by_contra hvalue
        exact hdelete hwrite hvalue hinsert
      · exact Or.inl (deleteKinds_ne_nil hinsert)
  · have hnot : ¬ (entryOf writes).mentions key.1 key.2 :=
      fun hmentions => hwritten (mentions_entryOf.mp hmentions)
    rw [LogEntry.fold_of_not_mentions hnot, h.eq, lookup_apply_of_ne fun write hwrite heq =>
      hwritten ⟨write, hwrite, heq⟩]
    exact hagrees

omit h

theorem means_said {history : History} (hascending : Ascending history)
    (hfresh : Fresh key.1 history) (hdistinct : ∀ commit ∈ history, commit.2.Distinct) :
    Means (existing key.1 key.2 (upTo changeId history)) (said history changeId key)
      (existing key.1 key.2 history) (decide (lastChange key.1 key.2 history ≠
        lastChange key.1 key.2 (upTo changeId history))) := by
  have hsplit := upTo_append_after hascending changeId
  have hbehind : ∀ commit ∈ after changeId history, commit.2.Distinct :=
    fun commit hcommit => hdistinct commit (mem_after.mp hcommit).1
  have hmeans := @fold_means key.1 (upTo changeId history) (after changeId history)
    (hsplit.symm ▸ hfresh) hbehind key.2
  rwa [hsplit, kindsOf_partFold hbehind] at hmeans

variable (hworld : World collection server)
include hworld

theorem World.present (changeId : Nat) (key : Bool × Nat) : (server.documents.lookup key).isSome ↔
      (existing key.1 key.2 (upTo changeId server.history) = true ∨
        .insert ∈ said server.history changeId key) ∧ .delete ∉ said server.history changeId key := by
  rw [hworld.documents key]
  exact (means_said hworld.ascending (hworld.fresh key.1) hworld.distinct).present

theorem World.means_saidBetween :
    Means (existing key.1 key.2 (upTo changeId (upTo changeId' server.history)))
      (saidBetween server.history changeId changeId' key)
      (existing key.1 key.2 (upTo changeId' server.history))
      (decide (lastChange key.1 key.2 (upTo changeId' server.history) ≠
        lastChange key.1 key.2 (upTo changeId (upTo changeId' server.history)))) :=
  means_said (hworld.ascending.filter _) ((hworld.fresh key.1).sublist List.filter_sublist)
    fun commit hcommit => hworld.distinct commit (List.mem_filter.mp hcommit).1

theorem World.agrees_of_delete (h : ChangeKind.delete ∈ saidBetween server.history changeId changeId' key) :
    Agrees server changeId' key none := by
  by_cases hsaid : said server.history changeId' key = []
  · refine Or.inr ?_
    have hbefore : ¬ existing key.1 key.2 (upTo changeId' server.history) = true :=
      fun hnow => (hworld.means_saidBetween.present.mp hnow).2 h
    have hpresent := hworld.present changeId' key
    rw [hsaid] at hpresent
    have hnone : ¬ (server.documents.lookup key).isSome = true := fun hsome =>
      (hpresent.mp hsome).1.elim hbefore fun hin => nomatch hin
    exact (Option.not_isSome_iff_eq_none.mp hnone).symm
  · exact Or.inl hsaid

theorem World.said_of_insert (h : ChangeKind.insert ∈ saidBetween server.history changeId changeId' key) :
    saidBetween server.history changeId changeId' key = [.insert] :=
  (hworld.means_saidBetween.inserted h).1

theorem World.lookup_of_insert (h : ChangeKind.insert ∈ saidBetween server.history changeId changeId' key) :
    said server.history changeId' key ≠ [] ∨ (server.documents.lookup key).isSome := by
  by_cases hsaid : said server.history changeId' key = []
  · refine Or.inr ?_
    have hbefore : existing key.1 key.2 (upTo changeId' server.history) = true := by
      refine hworld.means_saidBetween.present.mpr ⟨Or.inr h, fun hdelete => ?_⟩
      rw [hworld.said_of_insert h] at hdelete
      cases List.mem_singleton.mp hdelete
    rw [hworld.present changeId' key, hsaid]
    exact ⟨Or.inl hbefore, List.not_mem_nil⟩
  · exact Or.inl hsaid

theorem World.said_of_between (hle : changeId ≤ changeId')
    (h : saidBetween server.history changeId changeId' key = []) :
    said server.history changeId key = said server.history changeId' key := by
  rw [said, after_eq_append hworld.ascending hle]
  exact saidBy_append_of_nil h

omit hworld

theorem Committed.lt (h : Committed config server newId writes server')
    (hknown : Known server.history changeId) : changeId < newId :=
  hknown.lt h.positive h.last

end Values

/-! ## Scans -/

structure Scan (history : History) (changeId : Nat) (changes : Changes) : Prop where
  known : Known history changes.toChangeId
  lt : changeId < changes.toChangeId
  said : ∀ key : Bool × Nat, kindsOf key.1 key.2 changes.changes =
    saidBetween history changeId changes.toChangeId key

theorem Scan.commit {newId changeId : Nat} {writes : List Write} {changes : Changes}
    (h : Committed config server newId writes server') (hscan : Scan server.history changeId changes) :
    Scan server'.history changeId changes := by
  have hlt := h.lt hscan.known
  rw [h.history]
  refine ⟨hscan.known.append _, hscan.lt, fun key => ?_⟩
  rw [hscan.said, saidBetween, saidBetween, upTo_append_new hlt]

theorem World.scan (hworld : World collection server) {changeId : Nat}
    (htruncated : (server.log.changes false (.since changeId)).isTruncated = false) :
    (∀ key : Bool × Nat, kindsOf key.1 key.2 (server.log.changes false (.since changeId)).changes =
        said server.history changeId key) ∧
    ((server.log.changes false (.since changeId)).changes ≠ [] →
      Scan server.history changeId (server.log.changes false (.since changeId)) ∧
      after (server.log.changes false (.since changeId)).toChangeId server.history = []) := by
  obtain ⟨cut, hlog, -⟩ := hworld.log
  rw [hlog] at htruncated ⊢
  obtain ⟨start, hstart, hscanned⟩ := changes_since hworld.ascending (cut_le_of_since htruncated)
  generalize (recorded cut server.history).changes false (.since changeId) = changes at *
  have hdistinct : ∀ commit ∈ after changeId server.history, commit.2.Distinct :=
    fun commit hcommit => hworld.distinct commit (mem_after.mp hcommit).1
  have hsaid : ∀ key : Bool × Nat,
      kindsOf key.1 key.2 changes.changes = said server.history changeId key := by
    intro key
    rw [hscanned.changes, effects_false]
    exact kindsOf_foldAll hdistinct
  refine ⟨hsaid, fun hne => ?_⟩
  have hvisited : after changeId server.history ≠ [] := by
    intro hnil
    rw [hscanned.empty hnil, hstart.changes] at hne
    exact hne rfl
  obtain ⟨before, last, hsplit, hlast⟩ := hscanned.stop hvisited
  have hmem : last ∈ after changeId server.history := by rw [hsplit]; simp
  obtain ⟨hhistory, hlt⟩ := mem_after.mp hmem
  rw [hlast] at hlt
  -- nothing is behind the last change
  have hafter : after changes.toChangeId server.history = [] := by
    rw [← after_after (Nat.le_of_lt hlt), hsplit, ← hlast]
    have hascending : Ascending (before ++ [last]) := hsplit ▸ hworld.ascending.filter _
    exact after_of_split hascending
  refine ⟨⟨?_, hlt, fun key => ?_⟩, hafter⟩
  · exact Or.inr (List.mem_map.mpr ⟨last, hhistory, hlast⟩)
  · have hall := upTo_append_after hworld.ascending changes.toChangeId
    rw [hafter, List.append_nil] at hall
    rw [hsaid, saidBetween, hall]

end Bearmail.Cache
