import Bearmail.Dav.SyncClient

/-!
# When a client of sync-collection is in sync

A page of changes is an offset into a list that is made anew for every request, and the token behind
the last page is that of the current state. What a request leaves out is not reported any more.
-/

namespace Bearmail.Dav

open Sync
open Jmap (CacheIds documentId)
open Bool
open List hiding after

/-! ## Pages -/

variable (state : PageState)

section Pages

variable {α : Type} {limit : Nat}

attribute [local simp] pageLoop

theorem pageLoop_limited (l : List α) (h : (pageLoop limit state l).2.isSyncLimited = false) : state.isSyncLimited = false := by
  induction l generalizing state with
  | nil => exact h
  | cons a l ih =>
    rw [pageLoop] at h
    split at h
    · exact ih { state with offset := state.offset - 1 } h
    · split at h
      · exact ih { state with totalChanges := state.totalChanges + 1 } h
      · have hlimited := ih { state with isSyncLimited := true } h
        cases hlimited

theorem pageLoop_subset (l : List α) : (pageLoop limit state l).1 ⊆ l := by
  induction l generalizing state with
  | nil => exact List.Subset.refl _
  | cons a l ih =>
    rw [pageLoop]
    split
    · exact subset_cons_of_subset a (ih _)
    · split
      · exact cons_subset_cons a (ih _)
      · exact subset_cons_of_subset a (ih _)

theorem pageLoop_complete (l : List α) (h : (pageLoop limit state l).2.isSyncLimited = false) :
    (pageLoop limit state l).1 = l.drop state.offset ∧
      (pageLoop limit state l).2.offset = state.offset - l.length := by
  induction l generalizing state with
  | nil => exact ⟨drop_nil.symm, (Nat.sub_zero _).symm⟩
  | cons a l ih =>
    rw [pageLoop] at h ⊢
    split at h
    · rename_i hoffset
      obtain ⟨hkept, hstate⟩ := ih _ h
      rw [if_pos hoffset]
      obtain ⟨n, hn⟩ := Nat.exists_eq_add_of_lt hoffset
      refine ⟨?_, ?_⟩
      · rw [hkept]
        simp [hn, drop_succ_cons]
      · rw [hstate, length_cons]
        dsimp only
        omega
    · rename_i hoffset
      rw [if_neg hoffset]
      have hzero : state.offset = 0 := by omega
      split at h
      · rename_i htotal
        obtain ⟨hkept, hstate⟩ := ih _ h
        rw [if_pos htotal]
        dsimp only at hkept hstate ⊢
        rw [hzero] at hkept hstate ⊢
        refine ⟨?_, ?_⟩
        · rw [hkept]
          rfl
        · rw [hstate]
          omega
      · exact nomatch pageLoop_limited _ _ h

end Pages

namespace ChangeSet

variable (set : ChangeSet) (limit seq : Nat)

/-- How many of the changes a request leaves out. -/
def offset : Nat := if limit < set.totalChanges then limit * seq else 0

def skipped (n : Nat) : ChangeSet where
  vanished := set.vanished.take n
  containers := set.containers.take (n - set.vanished.length)
  children := set.children.take (n - set.vanished.length - set.containers.length)

def documents (collection : Collection) (resource : Resource) : List Nat :=
  if collection.containerHasChildren && !resource.isContainer then set.children else set.containers

theorem page_subset : (set.page limit seq).1.vanished ⊆ set.vanished ∧
      ∀ collection resource, (set.page limit seq).1.documents collection resource ⊆
        set.documents collection resource := by
  unfold page
  split
  · refine ⟨pageLoop_subset _ _, fun collection resource => ?_⟩
    unfold documents
    split
    all_goals exact pageLoop_subset _ _
  · exact ⟨List.Subset.refl _, fun _ _ => List.Subset.refl _⟩

/-- The last page has everything that was not left out; and when it still has vanished paths, it
has all documents. -/
theorem page_complete (h : (set.page limit seq).2 = false) :
    (∀ path ∈ set.vanished, path ∈ (set.page limit seq).1.vanished ∨
        path ∈ (set.skipped (set.offset limit seq)).vanished) ∧
      ∀ collection resource, ∀ id ∈ set.documents collection resource,
        id ∈ (set.page limit seq).1.documents collection resource ∨
          (id ∈ (set.skipped (set.offset limit seq)).documents collection resource ∧
            (set.page limit seq).1.vanished = []) := by
  have hsplit : ∀ {α : Type} (n : Nat) (l : List α), ∀ a ∈ l, a ∈ l.drop n ∨ a ∈ l.take n := by
    intro α n l a ha
    rw [← take_append_drop n l] at ha
    exact (mem_append.mp ha).symm
  unfold page offset at *
  by_cases hlimit : limit < set.totalChanges
  · rw [if_pos hlimit] at h ⊢
    dsimp only at h ⊢
    have hcontainers := pageLoop_limited _ _ h
    have hvanished := pageLoop_limited _ _ hcontainers
    obtain ⟨hchildren, -⟩ := pageLoop_complete _ _ h
    obtain ⟨hcontainers, hstate'⟩ := pageLoop_complete _ _ hcontainers
    obtain ⟨hvanished, hstate⟩ := pageLoop_complete _ _ hvanished
    rw [hstate', hstate] at hchildren
    rw [hstate] at hcontainers
    -- a document is left out only behind all vanished paths
    have hlast : ∀ n id, id ∈ (set.containers.take (limit * seq - set.vanished.length)) ∨
        id ∈ set.children.take (limit * seq - set.vanished.length - n) →
        set.vanished.drop (limit * seq) = [] := by
      intro n id hmem
      refine drop_eq_nil_of_le ?_
      by_contra hlt
      have hzero : limit * seq - set.vanished.length = 0 := by omega
      rw [hzero] at hmem
      rcases hmem with hmem | hmem
      · cases hmem
      · rw [Nat.zero_sub] at hmem
        cases hmem
    rw [if_pos hlimit, hvanished]
    refine ⟨hsplit _ _, fun collection resource id hid => ?_⟩
    unfold documents at hid ⊢
    split at hid
    · rename_i hkind
      rw [if_pos hkind, if_pos hkind, hchildren]
      rcases hsplit (limit * seq - set.vanished.length - set.containers.length) _ id hid with
        hmem | hmem
      · exact Or.inl hmem
      · exact Or.inr ⟨hmem, hlast _ id (Or.inr hmem)⟩
    · rename_i hkind
      rw [if_neg hkind, if_neg hkind, hcontainers]
      rcases hsplit (limit * seq - set.vanished.length) _ id hid with hmem | hmem
      · exact Or.inl hmem
      · exact Or.inr ⟨hmem, hlast 0 id (Or.inl hmem)⟩
  · rw [if_neg hlimit] at h ⊢
    exact ⟨fun path hpath => Or.inl hpath, fun collection resource id hid => Or.inl hid⟩

theorem display_shows (collection : Collection) (resource : Resource) :
    (set.display collection).shows collection resource = true ↔
      resource.documentId ∈ set.documents collection resource := by
  unfold Display.shows display documents
  cases collection.containerHasChildren with
  | false => simp
  | true =>
    cases resource.isContainer with
    | false | true => simp

end ChangeSet

/-! ## Careful runs -/

section Careful

variable (collection : Collection) (query : DavQuery)

def Commit.members (commit : Commit) : List Resource :=
  found collection query (.ofReader collection commit.resources commit.readable) commit.resources

def Changes (entry : LogEntry) (resource : Resource) : Prop :=
  resource.documentId ∈ entry.inserts (collection.loggedAsContainer resource) ∨
    resource.documentId ∈ entry.updates (collection.loggedAsContainer resource)

/-- A commit logs what it does to the members. No document id is used again. -/
structure Logged (w : World) (changeId : Nat) (commit : Commit) : Prop where
  fresh : ∀ isContainer, ∀ id ∈ commit.entry.inserts isContainer, ¬ Mentioned isContainer id w.history
  present : ∀ resource ∈ commit.members collection query,
    existing (collection.loggedAsContainer resource) resource.documentId
      (w.history ++ [(changeId, commit.entry)]) = true
  changed : ∀ resource ∈ commit.members collection query,
    resource ∉ w.members collection query → Changes collection commit.entry resource
  removed : ∀ resource ∈ w.members collection query,
    (∀ other ∈ commit.members collection query, other.path ≠ resource.path) →
      ∃ path ∈ commit.vanished, path.isPrefixOf resource.path = true
  vanished : ∀ path ∈ commit.vanished, ∀ resource ∈ commit.members collection query,
    path.isPrefixOf resource.path = true → Changes collection commit.entry resource

/-- The log goes back to the token; when something that the client has is gone, the vanished paths
are read; what is left out is what the client has; and what is found fits in the response. -/
structure Answerable (w : World) (token : SyncToken) (limit : Nat) : Prop where
  kept : (w.log.changes false (.since token.id)).isTruncated = false
  noticed : ∀ path resource, w.client.members path = some resource →
    w.memberAt collection query path = none → collection.hasVanished = true ∧
      maybeHasVanished (w.log.changes false (.since token.id)).changes = true
  skippedPaths : ∀ vanished ∈ ((w.changeSet collection token.id).skipped
        ((w.changeSet collection token.id).offset limit token.seq)).vanished,
    ∀ path, vanished.isPrefixOf path = true → w.memberAt collection query path = none →
      w.client.members path = none
  skippedDocuments : ∀ resource ∈ w.members collection query,
    resource.documentId ∈ ((w.changeSet collection token.id).skipped
        ((w.changeSet collection token.id).offset limit token.seq)).documents collection resource →
      w.client.members resource.path = some resource
  fits : (found collection query
    (((w.changeSet collection token.id).page limit token.seq).1.display collection)
      w.resources).length ≤ limit

def Careful (maxResults : Nat) (w : World) : Label → Prop
  | .commit changeId commit => Logged collection query w changeId commit
  | .initial limit => (w.members collection query).length ≤ min limit maxResults
  | .sync limit =>
    ∀ token, w.client.syncToken = some token → Answerable collection query w token (min limit maxResults)
  | _ => True

end Careful

/-! ## The invariant -/

section Invariant

variable (collection : Collection) (query : DavQuery)

/-- The client is not right about a path, and will hear of it: what is there has changed since the
token, or the path has vanished. -/
def Pending (w : World) (id : Nat) (path : Path) : Prop :=
  (∃ resource ∈ w.members collection query, resource.path = path ∧
      ∃ commit ∈ after id w.history, Changes collection commit.2 resource) ∨
    (w.memberAt collection query path = none ∧
      ∃ entry ∈ w.gone, id < entry.1 ∧ ∃ vanished ∈ entry.2, vanished.isPrefixOf path = true)

structure Inv (w : World) : Prop where
  ascending : Ascending w.history
  distinct : ∀ commit ∈ w.history, commit.2.Distinct
  noProperties : ∀ commit ∈ w.history, ∀ isContainer, commit.2.propertyChanges isContainer = []
  fresh : ∀ isContainer, Fresh isContainer w.history
  log : ∃ cut, w.log = recorded cut w.history ∧ (∀ k, cut = some k → k ∈ w.history.map Prod.fst) ∧
    ∀ entry ∈ w.gone, (∀ k, cut = some k → k ≤ entry.1) → entry ∈ w.vanishedLog
  vanishedLog : w.vanishedLog ⊆ w.gone
  gone : ∀ entry ∈ w.gone, entry.1 ∈ w.history.map Prod.fst
  cache : ∀ ids, w.cache = some ids → ids.Follows w.history
  paths : (w.resources.map Resource.path).Nodup
  present : ∀ resource ∈ w.members collection query,
    existing (collection.loggedAsContainer resource) resource.documentId w.history = true
  /-- what is below a path that has vanished is newer -/
  covered : ∀ entry ∈ w.gone, ∀ vanished ∈ entry.2, ∀ resource ∈ w.members collection query,
    vanished.isPrefixOf resource.path = true →
      ∃ commit ∈ w.history, entry.1 ≤ commit.1 ∧ Changes collection commit.2 resource
  client : ∀ token, w.client.syncToken = some token → Known w.history token.id ∧
    ∀ path, w.client.members path = w.memberAt collection query path ∨
      Pending collection query w token.id path

theorem inv_new (readable : Option (List Nat)) : Inv collection query (World.new readable) where
  ascending := List.Pairwise.nil
  distinct := fun _ h => by cases h
  noProperties := fun _ h => by cases h
  fresh := fun _ => List.Pairwise.nil
  log := ⟨none, rfl, fun _ h => (by cases h), fun _ h => (by cases h)⟩
  vanishedLog := List.Subset.refl _
  gone := fun _ h => by cases h
  cache := fun _ h => by cases h
  paths := nodup_nil
  present := fun _ h => by cases h
  covered := fun _ h => by cases h
  client := fun _ h => by cases h

end Invariant

variable {resources : List Resource} {resource : Resource} {path : Path} {id : Nat}
  {cut : Option Nat} {history : History}

section Members

variable {collection : Collection} {query : DavQuery}

theorem found_subset (display : Display) (resources : List Resource) :
    found collection query display resources ⊆ resources := filter_subset_self _

theorem eq_of_path (h : (resources.map Resource.path).Nodup) {other : Resource}
    (hmem : resource ∈ resources) (hother : other ∈ resources)
    (hpath : resource.path = other.path) :
    resource = other :=
  inj_on_of_nodup_map h hmem hother hpath

theorem find_path_eq_some_iff (h : (resources.map Resource.path).Nodup) :
    (resources.find? fun other => decide (other.path = path)) = some resource ↔
      resource ∈ resources ∧ resource.path = path := by
  constructor
  · intro hfind
    exact ⟨List.mem_of_find?_eq_some hfind, by simpa using List.find?_some hfind⟩
  · rintro ⟨hmem, rfl⟩
    cases hfind : resources.find? fun other => decide (other.path = resource.path) with
    | none => exact absurd (decide_eq_true rfl) (List.find?_eq_none.mp hfind resource hmem)
    | some other =>
      have hother := List.mem_of_find?_eq_some hfind
      have hpath : other.path = resource.path := by simpa using List.find?_some hfind
      rw [eq_of_path h hother hmem hpath]

theorem find_path_eq_none_iff : (resources.find? fun other => decide (other.path = path)) = none ↔
      ∀ resource ∈ resources, resource.path ≠ path := by
  simp [List.find?_eq_none]

theorem nodup_found (h : (resources.map Resource.path).Nodup) (display : Display) :
    ((found collection query display resources).map Resource.path).Nodup :=
  h.sublist (filter_sublist.map _)

theorem memberAt_eq_some_iff {w : World} (h : (w.resources.map Resource.path).Nodup) :
    w.memberAt collection query path = some resource ↔
      resource ∈ w.members collection query ∧ resource.path = path :=
  find_path_eq_some_iff (nodup_found h _)

theorem memberAt_eq_none_iff {w : World} : w.memberAt collection query path = none ↔
      ∀ resource ∈ w.members collection query, resource.path ≠ path :=
  find_path_eq_none_iff

end Members

/-! ## Commits -/

section Commits

variable {collection : Collection} {query : DavQuery} {w w' : World}

theorem after_subset_append (id : Nat) (history : History) (commit : Nat × LogEntry) :
    after id history ⊆ after id (history ++ [commit]) := by
  intro earlier hmem
  obtain ⟨hhistory, hlt⟩ := mem_after.mp hmem
  exact mem_after.mpr ⟨mem_append_left _ hhistory, hlt⟩

theorem client_commit (h : Inv collection query w) {changeId : Nat} {commit : Commit}
    (hlogged : Logged collection query w changeId commit) (hid : id < changeId)
    (hpath : w.client.members path = w.memberAt collection query path ∨
      Pending collection query w id path) :
    w.client.members path = (w.commit changeId commit).memberAt collection query path ∨
      Pending collection query (w.commit changeId commit) id path := by
  have hnew : (changeId, commit.entry) ∈ after id (w.commit changeId commit).history :=
    mem_after.mpr ⟨mem_append_right _ mem_cons_self, hid⟩
  cases hnow : (w.commit changeId commit).memberAt collection query path with
  | some resource =>
    obtain ⟨hmem, hat⟩ := (memberAt_eq_some_iff commit.paths).mp hnow
    by_cases hold : resource ∈ w.members collection query
    · have hbefore := (memberAt_eq_some_iff h.paths).mpr ⟨hold, hat⟩
      rcases hpath with hright | hchanged | hvanished
      · exact Or.inl (hright.trans hbefore)
      · obtain ⟨other, hother, hotherAt, earlier, hearlier, hchanges⟩ := hchanged
        have hsame : other = resource := by
          have hotherBefore := (memberAt_eq_some_iff h.paths).mpr ⟨hother, hotherAt⟩
          exact Option.some.inj (hotherBefore.symm.trans hbefore)
        rw [hsame] at hchanges
        exact Or.inr (Or.inl ⟨resource, hmem, hat, earlier, after_subset_append _ _ _ hearlier,
          hchanges⟩)
      · rw [hvanished.1] at hbefore
        cases hbefore
    · have hchanges := hlogged.changed resource hmem hold
      exact Or.inr (Or.inl ⟨resource, hmem, hat, _, hnew, hchanges⟩)
  | none =>
    cases hbefore : w.memberAt collection query path with
    | none =>
      rcases hpath with hright | hchanged | hvanished
      · exact Or.inl (hright.trans hbefore)
      · obtain ⟨other, hother, hotherAt, -⟩ := hchanged
        exact absurd hotherAt (memberAt_eq_none_iff.mp hbefore other hother)
      · obtain ⟨-, entry, hentry, hlt, hstarts⟩ := hvanished
        exact Or.inr (Or.inr ⟨hnow, entry, mem_append_left _ hentry, hlt, hstarts⟩)
    | some resource =>
      obtain ⟨hmem, hat⟩ := (memberAt_eq_some_iff h.paths).mp hbefore
      have hnone : ∀ other ∈ commit.members collection query, other.path ≠ resource.path := by
        rw [hat]
        exact memberAt_eq_none_iff.mp hnow
      obtain ⟨vanished, hvanished, hstarts⟩ := hlogged.removed resource hmem hnone
      rw [hat] at hstarts
      exact Or.inr (Or.inr ⟨hnow, (changeId, commit.vanished),
        mem_append_right _ mem_cons_self, hid, vanished, hvanished, hstarts⟩)

theorem inv_commit (h : Inv collection query w) {maxResults changeId : Nat} {commit : Commit}
    (hlogged : Logged collection query w changeId commit)
    (hstep : w.step collection query maxResults (.commit changeId commit) = some w') :
    Inv collection query w' := by
  simp only [World.step] at hstep
  split at hstep
  case isFalse => cases hstep
  case isTrue hvalid =>
    obtain ⟨hpos, hnew⟩ := hvalid
    obtain ⟨cut, hlog, hcut, hvanished⟩ := h.log
    have hbelow : ∀ id, Known w.history id → id < changeId := fun id hknown =>
      hknown.lt hpos hnew
    cases hstep
    refine ⟨ascending_append h.ascending hnew, ?_, ?_, fun isContainer => ?_, ⟨cut, ?_, ?_, ?_⟩,
      ?_, ?_, ?_, commit.paths, hlogged.present, ?_, ?_⟩
    · intro commit' hmem
      rcases mem_append.mp hmem with hmem | hmem
      · exact h.distinct commit' hmem
      · rw [mem_singleton.mp hmem]
        exact commit.distinct
    · intro commit' hmem isContainer
      rcases mem_append.mp hmem with hmem | hmem
      · exact h.noProperties commit' hmem isContainer
      · rw [mem_singleton.mp hmem, LogEntry.propertyChanges, commit.noProperties, ite_self]
    · refine pairwise_append.mpr ⟨h.fresh isContainer, pairwise_singleton _ _, ?_⟩
      intro earlier hmem new hsingle id hinserted hmentions
      rw [mem_singleton.mp hsingle] at hinserted
      exact hlogged.fresh isContainer id hinserted ⟨earlier, hmem, hmentions⟩
    · dsimp [World.commit]
      rw [recorded_append fun k hk => hbelow k (Or.inr (hcut k hk)), hlog]
      rfl
    · intro k hk
      dsimp [World.commit]
      rw [List.map_append]
      exact mem_append_left _ (hcut k hk)
    · intro entry hentry hkept
      rcases mem_append.mp hentry with hentry | hentry
      · exact mem_append_left _ (hvanished entry hentry hkept)
      · exact mem_append_right _ hentry
    · exact append_subset.mpr ⟨List.Subset.trans h.vanishedLog (subset_append_left _ _),
        subset_append_right _ _⟩
    · intro entry hentry
      dsimp [World.commit]
      rw [List.map_append]
      rcases mem_append.mp hentry with hentry | hentry
      · exact mem_append_left _ (h.gone entry hentry)
      · rw [mem_singleton.mp hentry]
        exact mem_append_right _ mem_cons_self
    · intro ids hids
      exact (h.cache ids hids).append hpos hnew
    · intro entry hentry vanished hvanished resource hmem hstarts
      rcases mem_append.mp hentry with hentry | hentry
      · by_cases hold : resource ∈ w.members collection query
        · obtain ⟨commit', hcommit', hle, hchanges⟩ :=
            h.covered entry hentry vanished hvanished resource hold hstarts
          exact ⟨commit', mem_append_left _ hcommit', hle, hchanges⟩
        · refine ⟨_, mem_append_right _ mem_cons_self, ?_, hlogged.changed resource hmem hold⟩
          exact Nat.le_of_lt (hbelow _ (Or.inr (h.gone entry hentry)))
      · rw [mem_singleton.mp hentry] at hvanished ⊢
        exact ⟨_, mem_append_right _ mem_cons_self, Nat.le_refl _,
          hlogged.vanished vanished hvanished resource hmem hstarts⟩
    · intro token htoken
      obtain ⟨hknown, hpaths⟩ := h.client token htoken
      exact ⟨hknown.append _, fun path => client_commit h hlogged (hbelow _ hknown) (hpaths path)⟩

end Commits

/-! ## Cut logs -/

section Cut

variable {collection : Collection} {query : DavQuery} {w w' : World}

theorem recorded_cut_le {item : Nat × Option LogEntry} (hmem : item ∈ recorded cut history) :
    ∀ k, cut = some k → k ≤ item.1 := by
  rintro k rfl
  rcases mem_cons.mp hmem with rfl | hmem
  · exact Nat.le_refl _
  · obtain ⟨commit, hcommit, rfl⟩ := mem_map.mp hmem
    exact Nat.le_of_lt (mem_after.mp hcommit).2

theorem recorded_eq_cons_none {k : Nat} {kept : Log} (h : (k, none) :: kept = recorded cut history) :
    cut = some k := by
  cases cut with
  | none =>
    cases history with
    | nil => cases h
    | cons commit history => exact nomatch congrArg Prod.snd (List.cons.inj h).1
  | some k' => exact congrArg (fun item => some item.1) (List.cons.inj h).1.symm

theorem vanishedLog_deleteChanges (hascending : Ascending history)
    (hcut : ∀ k, cut = some k → k ∈ history.map Prod.fst) {vanishedLog gone : VanishedLog}
    (hvanished : ∀ entry ∈ gone, (∀ k, cut = some k → k ≤ entry.1) → entry ∈ vanishedLog)
    (maxEntries : Nat) :
    ∃ cut', (recorded cut history).deleteChanges maxEntries = recorded cut' history ∧
      (∀ k, cut' = some k → k ∈ history.map Prod.fst) ∧
      ∀ entry ∈ gone, (∀ k, cut' = some k → k ≤ entry.1) →
        entry ∈ vanishedLog.deleteChanges (recorded cut history) maxEntries := by
  obtain ⟨cut', hlog, hcut'⟩ := recorded_deleteChanges hascending hcut maxEntries
  unfold VanishedLog.deleteChanges
  unfold Log.deleteChanges at hlog ⊢
  split
  · rename_i hlength
    rw [if_pos hlength] at hlog
    cases hdrop : (recorded cut history).drop ((recorded cut history).length - (maxEntries + 1)) with
    | nil => exact ⟨cut, rfl, hcut, hvanished⟩
    | cons first kept =>
      rw [hdrop] at hlog
      refine ⟨cut', hlog, hcut', fun entry hentry hkept => ?_⟩
      have hfirst := hkept first.1 (recorded_eq_cons_none hlog)
      have hmem : first ∈ recorded cut history := by
        have hdropped : first ∈ (recorded cut history).drop
            ((recorded cut history).length - (maxEntries + 1)) := by
          rw [hdrop]
          exact mem_cons_self
        exact mem_of_mem_drop hdropped
      refine mem_filter.mpr ⟨hvanished entry hentry fun k hk => ?_, decide_eq_true hfirst⟩
      exact Nat.le_trans (recorded_cut_le hmem k hk) hfirst
  · exact ⟨cut, rfl, hcut, hvanished⟩

theorem deleteChanges_subset (vanishedLog : VanishedLog) (log : Log) (maxEntries : Nat) :
    vanishedLog.deleteChanges log maxEntries ⊆ vanishedLog := by
  unfold VanishedLog.deleteChanges
  split
  · split
    · exact List.Subset.refl _
    · exact filter_subset_self _
  · exact List.Subset.refl _

theorem inv_deleteChanges (h : Inv collection query w) (maxEntries : Nat) :
    Inv collection query { w with
      log := w.log.deleteChanges maxEntries
      vanishedLog := w.vanishedLog.deleteChanges w.log maxEntries } := by
  obtain ⟨cut, hlog, hcut, hvanished⟩ := h.log
  refine ⟨h.ascending, h.distinct, h.noProperties, h.fresh, ?_, ?_, h.gone, h.cache, h.paths,
    h.present, h.covered, h.client⟩
  · dsimp only
    rw [hlog]
    exact vanishedLog_deleteChanges h.ascending hcut hvanished maxEntries
  · exact List.Subset.trans (deleteChanges_subset _ _ _) h.vanishedLog

end Cut

/-! ## Requests -/

section Requests

variable {collection : Collection} {query : DavQuery} {w w' : World}

theorem fetched_follows (h : Inv collection query w) : w.fetched.Follows w.history := by
  obtain ⟨cut, hlog, hcut, -⟩ := h.log
  rw [World.fetched, hlog]
  exact (Jmap.fetch_follows .resources h.ascending hcut h.cache).1

theorem inv_request (h : Inv collection query w) {client : Client}
    (hclient : ∀ token, client.syncToken = some token → Known w.history token.id ∧
      ∀ path, client.members path = w.memberAt collection query path ∨
        Pending collection query w token.id path) :
    Inv collection query { w with cache := some w.fetched, client } := by
  refine ⟨h.ascending, h.distinct, h.noProperties, h.fresh, h.log, h.vanishedLog, h.gone, ?_,
    h.paths, h.present, h.covered, hclient⟩
  rintro ids hids
  cases hids
  exact fetched_follows h

theorem truncated_of_fits {limit : Nat} {paths : List Resource} (h : paths.length ≤ limit) :
    truncated limit paths = paths := by
  rw [truncated, take_of_length_le h, ite_self]

theorem initial_members {limit maxResults : Nat}
    (hfits : (w.members collection query).length ≤ min limit maxResults) (client : Client)
    (hempty : client.members = fun _ => none) (path : Path) :
    (client.apply (w.initialResponse collection query maxResults limit)).members path =
      w.memberAt collection query path := by
  have hitems : (w.initialResponse collection query maxResults limit).items =
      w.members collection query := truncated_of_fits hfits
  have hremoved : (w.initialResponse collection query maxResults limit).removed = [] := rfl
  rw [Client.apply, hitems, hempty]
  dsimp only
  rw [World.memberAt]
  cases (w.members collection query).find? fun resource => decide (resource.path = path) with
  | none | some resource => rfl

/-! ### What is found -/

theorem mem_bitmap {ids : List Nat} : id ∈ bitmap ids ↔ id ∈ ids := by
  rw [bitmap, mem_insertionSort, mem_dedup]

theorem mem_changedIds {p : Change → Bool} {changes : List Change} {change : Change}
    (hmem : change ∈ changes) (hp : p change = true)
    (hkind : change.kind = .insert ∨ change.kind = .update) :
    documentId change.id ∈ changedIds p changes := by
  refine mem_bitmap.mpr (mem_map.mpr ⟨change, mem_filter.mpr ⟨hmem, ?_⟩, rfl⟩)
  rw [hp]
  exact decide_eq_true hkind

theorem mem_intersect {documentIds : Option (List Nat)} {changes : List Nat} (hmem : id ∈ changes)
    (h : ∀ ids, documentIds = some ids → id ∈ ids) : id ∈ intersect documentIds changes := by
  cases documentIds with
  | none => exact hmem
  | some ids => exact mem_filter.mpr ⟨hmem, decide_eq_true (h ids rfl)⟩

theorem mem_display {readable : Option (List Nat)}
    (hshows : (Display.ofReader collection resources readable).shows collection resource = true) :
    ∀ ids, (if collection.containerHasChildren && !resource.isContainer then
        (Display.ofReader collection resources readable).children
      else (Display.ofReader collection resources readable).containers) = some ids →
      resource.documentId ∈ ids := by
  intro ids hids
  unfold Display.shows Display.ofReader at hshows
  unfold Display.ofReader at hids
  cases readable with
  | none => cases hkind : collection.containerHasChildren <;> simp [hkind] at hids
  | some containers =>
    cases hkind : collection.containerHasChildren with
    | false =>
      simp [hkind] at hshows hids
      exact hids ▸ hshows
    | true =>
      cases hcontainer : resource.isContainer with
      | false =>
        simp [hkind, hcontainer] at hshows hids
        rw [← hids]
        simpa using hshows
      | true =>
        simp [hkind, hcontainer] at hshows hids
        exact hids ▸ hshows

variable (h : Inv collection query w)
include h

theorem changes_eq_foldAll (hkept : (w.log.changes false (.since id)).isTruncated = false) :
    (w.log.changes false (.since id)).changes = foldAll (after id w.history) := by
  obtain ⟨cut, hlog, -, -⟩ := h.log
  rw [hlog] at hkept ⊢
  obtain ⟨base, -, hscan⟩ := @changes_since id cut w.history false h.ascending (cut_le_of_since hkept)
  rw [hscan.changes, effects_false]

theorem documents_of_changes (hkept : (w.log.changes false (.since id)).isTruncated = false)
    (hmem : resource ∈ w.members collection query) {commit : Nat × LogEntry}
    (hcommit : commit ∈ after id w.history) (hchanges : Changes collection commit.2 resource) :
    resource.documentId ∈ (w.changeSet collection id).documents collection resource := by
  have htouches : commit.2.touches (collection.loggedAsContainer resource) resource.documentId =
      true := by
    exact decide_eq_true (hchanges.imp_right Or.inl)
  obtain ⟨kind, hkind, hlisted⟩ := listed_of_touches h.ascending (h.fresh _) h.distinct
    (fun commit' hmem' => h.noProperties commit' hmem' _) (h.present resource hmem) hcommit htouches
  have hchange : (⟨collection.loggedAsContainer resource, kind, resource.documentId⟩ : Change) ∈
      (w.log.changes false (.since id)).changes := by
    rw [changes_eq_foldAll h hkept]
    rw [← partOf_foldAll] at hlisted
    exact (mem_partOf.mp hlisted).1
  have hdocument : documentId resource.documentId = resource.documentId :=
    Nat.mod_eq_of_lt resource.documentId_lt
  have hshows := (mem_filter.mp hmem).2
  rw [and_eq_true] at hshows
  have hdisplay := mem_display hshows.2
  have hchanged : ∀ p : Change → Bool,
      p ⟨collection.loggedAsContainer resource, kind, resource.documentId⟩ = true →
      resource.documentId ∈ changedIds p (w.log.changes false (.since id)).changes := by
    intro p hp
    have hid := mem_changedIds hchange hp hkind
    rwa [hdocument] at hid
  unfold ChangeSet.documents World.changeSet changeSet
  dsimp only
  split
  · rename_i hchild
    rw [if_pos hchild] at hdisplay
    obtain ⟨hchildren, hitem⟩ := and_eq_true_iff.mp hchild
    rw [if_pos hchildren]
    refine mem_intersect (hchanged _ ?_) hdisplay
    simp [Collection.loggedAsContainer, hitem]
  · rename_i hchild
    rw [if_neg hchild] at hdisplay
    split
    · rename_i hchildren
      refine mem_intersect (hchanged _ ?_) hdisplay
      simpa [Collection.loggedAsContainer, hchildren] using hchild
    · exact mem_intersect (hchanged _ rfl) hdisplay

theorem changes_of_vanished {vanished : Path}
    (hvanished : vanished ∈ (w.changeSet collection id).vanished)
    (hmem : resource ∈ w.members collection query)
    (hstarts : vanished.isPrefixOf resource.path = true) :
    ∃ commit ∈ after id w.history, Changes collection commit.2 resource := by
  have hsince : vanished ∈ w.vanishedLog.since id := by
    unfold World.changeSet changeSet at hvanished
    dsimp only at hvanished
    split at hvanished
    · exact hvanished
    · cases hvanished
  obtain ⟨entry, hentry, hpath⟩ := mem_flatMap.mp hsince
  obtain ⟨hlogged, hlt⟩ := mem_filter.mp hentry
  obtain ⟨commit, hcommit, hle, hchanges⟩ := h.covered entry (h.vanishedLog hlogged) vanished hpath
    resource hmem hstarts
  exact ⟨commit, mem_after.mpr ⟨hcommit, Nat.lt_of_lt_of_le (of_decide_eq_true hlt) hle⟩, hchanges⟩

/-- A path that vanished since a change id is among the vanished ones, when these are read. -/
theorem mem_vanished (hkept : (w.log.changes false (.since id)).isTruncated = false)
    (hread : collection.hasVanished = true ∧
      maybeHasVanished (w.log.changes false (.since id)).changes = true) {entry : Nat × List Path}
    (hentry : entry ∈ w.gone) (hlt : id < entry.1) {vanished : Path}
    (hvanished : vanished ∈ entry.2) : vanished ∈ (w.changeSet collection id).vanished := by
  obtain ⟨cut, hlog, -, hstored⟩ := h.log
  have hcut : ∀ k, cut = some k → k ≤ entry.1 := by
    rw [hlog] at hkept
    intro k hk
    exact Nat.le_trans (cut_le_of_since hkept k hk) (Nat.le_of_lt hlt)
  unfold World.changeSet changeSet
  dsimp only
  rw [hread.1, hread.2]
  exact mem_flatMap.mpr ⟨entry, mem_filter.mpr ⟨hstored entry hentry hcut,
    decide_eq_true hlt⟩, hvanished⟩

omit h

/-! ### One page -/

section Page

variable {token : SyncToken} {limit maxResults : Nat}

def World.page (collection : Collection) (w : World) (token : SyncToken) (limit : Nat) : ChangeSet :=
  ((w.changeSet collection token.id).page limit token.seq).1

theorem mem_items (hfits : (found collection query ((w.page collection token limit).display
      collection) w.resources).length ≤ limit) :
    resource ∈ truncated limit (found collection query ((w.page collection token limit).display
        collection) w.resources) ↔
      resource ∈ w.resources ∧ query.inScope resource.path = true ∧
        resource.documentId ∈ (w.page collection token limit).documents collection resource := by
  rw [truncated_of_fits hfits, found, mem_filter, and_eq_true, ChangeSet.display_shows]

theorem shows_of_documents
    (h : resource.documentId ∈ (w.changeSet collection id).documents collection resource) :
    (w.display collection).shows collection resource = true := by
  have hmem : ∀ {documentIds : Option (List Nat)} {changes : List Nat} {doc : Nat},
      doc ∈ intersect documentIds changes → ∀ ids, documentIds = some ids → doc ∈ ids := by
    rintro documentIds changes doc hdoc ids rfl
    exact of_decide_eq_true (mem_filter.mp hdoc).2
  unfold ChangeSet.documents World.changeSet changeSet at h
  unfold Display.shows World.display Display.ofReader at *
  cases hreadable : w.readable with
  | none => rfl
  | some containers =>
    rw [hreadable] at h
    cases hkind : collection.containerHasChildren with
    | false =>
      simp only [hkind, Bool.false_and, false_eq_true, if_false] at h ⊢
      exact decide_eq_true (hmem h _ rfl)
    | true =>
      cases hcontainer : resource.isContainer with
      | false =>
        simp only [hkind, hcontainer, Bool.not_false, Bool.and_true, if_true, false_eq_true,
          if_false, Option.map_some] at h ⊢
        exact decide_eq_true (hmem h _ rfl)
      | true =>
        simp only [hkind, hcontainer, Bool.not_true, Bool.and_false, false_eq_true, if_false,
          if_true] at h ⊢
        exact decide_eq_true (hmem h _ rfl)

theorem items_subset (hfits : (found collection query ((w.page collection token limit).display
      collection) w.resources).length ≤ limit) :
    truncated limit (found collection query ((w.page collection token limit).display collection)
      w.resources) ⊆ w.members collection query := by
  intro resource hmem
  obtain ⟨hresource, hscope, hdocument⟩ := (mem_items hfits).mp hmem
  have hset := ((w.changeSet collection token.id).page_subset limit token.seq).2 collection resource
    hdocument
  refine mem_filter.mpr ⟨hresource, ?_⟩
  rw [hscope, shows_of_documents hset]
  rfl

/-- A path with a member, behind a page: the client has the member, or it has changed. -/
theorem member_page (h : Inv collection query w) (hanswer : Answerable collection query w token limit)
    {response : Response}
    (hitems : response.items = truncated limit (found collection query
      ((w.page collection token limit).display collection) w.resources))
    (hremoved : response.removed = (w.page collection token limit).vanished)
    {resource : Resource} (hmem : resource ∈ w.members collection query)
    (hpath : w.client.members resource.path = some resource ∨
      ∃ commit ∈ after token.id w.history, Changes collection commit.2 resource) :
    ((w.client.apply response).members resource.path = some resource ∨
        ∃ commit ∈ after token.id w.history, Changes collection commit.2 resource) ∧
      (((w.changeSet collection token.id).page limit token.seq).2 = false →
        (w.client.apply response).members resource.path = some resource) := by
  have hunique : ∀ other ∈ response.items, other.path = resource.path → other = resource := by
    intro other hother hat
    rw [hitems] at hother
    exact eq_of_path h.paths (found_subset _ _ (items_subset hanswer.fits hother))
      (found_subset _ _ hmem) hat
  unfold Client.apply
  dsimp only
  cases hfind : response.items.find? fun other => decide (other.path = resource.path) with
  | some other =>
    have hother := hunique other (List.mem_of_find?_eq_some hfind) (by simpa using List.find?_some hfind)
    rw [hother]
    exact ⟨Or.inl rfl, fun _ => rfl⟩
  | none =>
    -- it is not in the page, so either it has not changed or it has been left out
    have hnot : resource.documentId ∉ (w.page collection token limit).documents collection
        resource := by
      intro hdocument
      refine find_path_eq_none_iff.mp hfind resource ?_ rfl
      rw [hitems]
      obtain ⟨hresource, hshows⟩ := mem_filter.mp hmem
      exact (mem_items hanswer.fits).mpr ⟨hresource, (and_eq_true_iff.mp hshows).1, hdocument⟩
    have hskipped : ((w.changeSet collection token.id).page limit token.seq).2 = false →
        (∃ commit ∈ after token.id w.history, Changes collection commit.2 resource) →
        w.client.members resource.path = some resource ∧
          (w.page collection token limit).vanished = [] := by
      rintro hlast ⟨commit, hcommit, hchanges⟩
      have hdocument := documents_of_changes h hanswer.kept hmem hcommit hchanges
      rcases ((w.changeSet collection token.id).page_complete limit token.seq hlast).2 collection
        resource _ hdocument with hpage | ⟨hskip, hnone⟩
      · exact absurd hpage hnot
      · exact ⟨hanswer.skippedDocuments resource hmem hskip, hnone⟩
    dsimp only
    split
    · rename_i hany
      obtain ⟨vanished, hvanished, hstarts⟩ := any_eq_true.mp hany
      rw [hremoved] at hvanished
      have hset := ((w.changeSet collection token.id).page_subset limit token.seq).1 hvanished
      have hchanges := changes_of_vanished h hset hmem hstarts
      refine ⟨Or.inr hchanges, fun hlast => ?_⟩
      rw [(hskipped hlast hchanges).2] at hvanished
      cases hvanished
    · refine ⟨hpath, fun hlast => ?_⟩
      rcases hpath with hright | hchanges
      · exact hright
      · exact (hskipped hlast hchanges).1

/-- A path without a member, behind a page: the client has nothing, or the path has vanished. -/
theorem nothing_page (h : Inv collection query w)
    (hanswer : Answerable collection query w token limit) {response : Response}
    (hitems : response.items = truncated limit (found collection query
      ((w.page collection token limit).display collection) w.resources))
    (hremoved : response.removed = (w.page collection token limit).vanished) {path : Path}
    (hnone : w.memberAt collection query path = none)
    (hpath : w.client.members path = none ∨ ∃ entry ∈ w.gone, token.id < entry.1 ∧
      ∃ vanished ∈ entry.2, vanished.isPrefixOf path = true) :
    ((w.client.apply response).members path = none ∨ ∃ entry ∈ w.gone, token.id < entry.1 ∧
        ∃ vanished ∈ entry.2, vanished.isPrefixOf path = true) ∧
      (((w.changeSet collection token.id).page limit token.seq).2 = false →
        (w.client.apply response).members path = none) := by
  have hfind : (response.items.find? fun other => decide (other.path = path)) = none := by
    refine find_path_eq_none_iff.mpr fun other hother => ?_
    rw [hitems] at hother
    exact memberAt_eq_none_iff.mp hnone other (items_subset hanswer.fits hother)
  unfold Client.apply
  dsimp only
  rw [hfind]
  dsimp only
  split
  · exact ⟨Or.inl rfl, fun _ => rfl⟩
  · rename_i hany
    refine ⟨hpath, fun hlast => ?_⟩
    rcases hpath with hright | ⟨entry, hentry, hlt, vanished, hvanished, hstarts⟩
    · exact hright
    · cases hhas : w.client.members path with
      | none => rfl
      | some resource =>
        have hread := hanswer.noticed path resource hhas hnone
        have hset := mem_vanished h hanswer.kept hread hentry hlt hvanished
        rcases ((w.changeSet collection token.id).page_complete limit token.seq hlast).1 vanished
          hset with hpage | hskip
        · refine absurd (any_eq_true.mpr ⟨vanished, ?_, hstarts⟩) hany
          rw [hremoved]
          exact hpage
        · rw [← hhas]
          exact hanswer.skippedPaths vanished hskip path hstarts hnone

theorem client_sync (h : Inv collection query w) (htoken : w.client.syncToken = some token)
    (hanswer : Answerable collection query w token (min limit maxResults)) (path : Path) :
    ((w.client.apply (w.syncResponse collection query maxResults token limit)).members path =
          w.memberAt collection query path ∨ Pending collection query w token.id path) ∧
      (((w.changeSet collection token.id).page (min limit maxResults) token.seq).2 = false →
        (w.client.apply (w.syncResponse collection query maxResults token limit)).members path =
          w.memberAt collection query path) := by
  obtain ⟨-, hpaths⟩ := h.client token htoken
  cases hat : w.memberAt collection query path with
  | some resource =>
    obtain ⟨hmem, rfl⟩ := (memberAt_eq_some_iff h.paths).mp hat
    have hpath : w.client.members resource.path = some resource ∨
        ∃ commit ∈ after token.id w.history, Changes collection commit.2 resource := by
      rcases hpaths resource.path with hright | hchanged | hvanished
      · exact Or.inl (hright.trans hat)
      · obtain ⟨other, hother, hotherAt, hchanges⟩ := hchanged
        rw [eq_of_path h.paths (found_subset _ _ hother) (found_subset _ _ hmem) hotherAt] at hchanges
        exact Or.inr hchanges
      · rw [hvanished.1] at hat
        cases hat
    obtain ⟨hpage, hlast⟩ := @member_page collection query w token (min limit maxResults) h hanswer
      (w.syncResponse collection query maxResults token limit) rfl rfl resource hmem hpath
    refine ⟨hpage.imp_right fun hchanges => Or.inl ⟨resource, hmem, rfl, hchanges⟩, hlast⟩
  | none =>
    have hpath : w.client.members path = none ∨ ∃ entry ∈ w.gone, token.id < entry.1 ∧
        ∃ vanished ∈ entry.2, vanished.isPrefixOf path = true := by
      rcases hpaths path with hright | hchanged | hvanished
      · exact Or.inl (hright.trans hat)
      · obtain ⟨other, hother, hotherAt, -⟩ := hchanged
        exact absurd hotherAt (memberAt_eq_none_iff.mp hat other hother)
      · exact Or.inr hvanished.2
    obtain ⟨hpage, hlast⟩ := @nothing_page collection query w token (min limit maxResults) h hanswer
      (w.syncResponse collection query maxResults token limit) rfl rfl path hat hpath
    exact ⟨hpage.imp_right fun hvanished => Or.inr ⟨hat, hvanished⟩, hlast⟩

theorem syncResponse_token : (w.syncResponse collection query maxResults token limit).syncToken =
      if ((w.changeSet collection token.id).page (min limit maxResults) token.seq).2 then
        ⟨token.id, (token.seq + 1) % 2 ^ 32⟩
      else ⟨w.fetched.last, 0⟩ := rfl

end Page

end Requests

/-! ## Runs -/

section Runs

variable {collection : Collection} {query : DavQuery} {maxResults limit : Nat} {w w' : World}

theorem inv_initial (h : Inv collection query w)
    (hfits : (w.members collection query).length ≤ min limit maxResults)
    (hstep : w.step collection query maxResults (.initial limit) = some w') :
    Inv collection query w' ∧ InSync collection query w' := by
  cases hstep
  have hright := initial_members hfits ⟨fun _ => none, none, false⟩ rfl
  refine ⟨inv_request h ?_, hright⟩
  rintro token htoken
  cases htoken
  exact ⟨(fetched_follows h).last, fun path => Or.inl (hright path)⟩

theorem inv_sync (h : Inv collection query w)
    (hcareful : Careful collection query maxResults w (.sync limit))
    (hstep : w.step collection query maxResults (.sync limit) = some w') :
    Inv collection query w' ∧ (w'.client.limited = false → InSync collection query w') := by
  cases htoken : w.client.syncToken with
  | none =>
    simp only [World.step, htoken] at hstep
    cases hstep
  | some token =>
    simp only [World.step, htoken] at hstep
    cases hstep
    have hpath := client_sync h htoken (hcareful token htoken)
    refine ⟨inv_request h ?_, fun hlimited path => (hpath path).2 ?_⟩
    · intro token' htoken'
      cases htoken'
      rw [syncResponse_token]
      cases hlast : ((w.changeSet collection token.id).page (min limit maxResults) token.seq).2 with
      | true => exact ⟨(h.client token htoken).1, fun path => (hpath path).1⟩
      | false =>
        exact ⟨(fetched_follows h).last, fun path => Or.inl ((hpath path).2 hlast)⟩
    · exact (or_eq_false_iff.mp hlimited).2

theorem inv_step {label : Label} (h : Inv collection query w)
    (hcareful : Careful collection query maxResults w label)
    (hstep : w.step collection query maxResults label = some w') : Inv collection query w' := by
  cases label with
  | commit changeId commit => exact inv_commit h hcareful hstep
  | deleteChanges maxEntries =>
    cases hstep
    exact inv_deleteChanges h maxEntries
  | evict =>
    cases hstep
    exact ⟨h.ascending, h.distinct, h.noProperties, h.fresh, h.log, h.vanishedLog, h.gone,
      fun _ hids => (nomatch hids), h.paths, h.present, h.covered, h.client⟩
  | fetch =>
    cases hstep
    exact inv_request h h.client
  | initial limit => exact (inv_initial h hcareful hstep).1
  | sync limit => exact (inv_sync h hcareful hstep).1

/-- In every run of careful steps, a report that is not marked as limited leaves the client in
sync. -/
theorem sync_in_sync (collection : Collection) (query : DavQuery) (maxResults : Nat)
    (readable : Option (List Nat)) (labels : List Label) (w : World)
    (hcareful : Runs.Along (World.step collection query maxResults)
      (Careful collection query maxResults) (World.new readable) labels)
    (hrun : Runs.run (World.step collection query maxResults) (World.new readable) labels = some w)
    (limit : Nat) (report : Label) (hreport : report = .initial limit ∨ report = .sync limit)
    (hcarefulReport : Careful collection query maxResults w report) (w' : World)
    (hstep : w.step collection query maxResults report = some w')
    (hlimited : w'.client.limited = false) : InSync collection query w' := by
  have hinv : Inv collection query w :=
    Runs.run_invariant (Inv collection query) (fun _ _ _ h hcond hstep => inv_step h hcond hstep)
      hcareful (inv_new collection query readable) hrun
  rcases hreport with rfl | rfl
  · exact (inv_initial hinv hcarefulReport hstep).2
  · exact (inv_sync hinv hcarefulReport hstep).2 hlimited

end Runs

/-! ## Examples -/

def oneCalendar : DavQuery := ⟨some ["work"], 1, true⟩

def event (name : String) (documentId content : Nat) (h : documentId < 2 ^ 32) : Resource :=
  ⟨["work", name], documentId, false, [0], content, h⟩

theorem one_small : 1 < 2 ^ 32 := by decide

theorem two_small : 2 < 2 ^ 32 := by decide

theorem three_small : 3 < 2 ^ 32 := by decide

def eventA : Resource := event "a" 1 1 one_small

def eventB : Resource := event "b" 2 1 two_small

def eventC : Resource := event "c" 3 1 three_small

def eventCommit (inserts deletes : List Nat) (vanished : List Path) (resources : List Resource)
    (hinserts : inserts.Nodup) (hdeletes : deletes.Nodup)
    (paths : (resources.map Resource.path).Nodup) : Commit where
  entry := ⟨[], [], [], [], inserts, [], deletes⟩
  vanished
  resources
  readable := none
  distinct := ⟨List.nodup_nil, List.nodup_nil, List.nodup_nil, List.nodup_nil, hinserts,
    List.nodup_nil, hdeletes⟩
  noProperties := rfl
  paths

def insertA : Commit := eventCommit [1] [] [] [eventA] (by decide) (by decide) (by decide)

def insertB : Commit := eventCommit [2] [] [] [eventA, eventB] (by decide) (by decide) (by decide)

def insertABC : Commit :=
  eventCommit [1, 2, 3] [] [] [eventA, eventB, eventC] (by decide) (by decide) (by decide)

def deleteA : Commit :=
  eventCommit [] [1] [["work", "a"]] [eventB, eventC] (by decide) (by decide) (by decide)

def insertC : Commit :=
  eventCommit [3] [] [] [eventA, eventB, eventC] (by decide) (by decide) (by decide)

/-- A calendar with an event in it, under another name. -/
def calendarAt (name : String) (inserts updates : List Nat) (vanished : List Path)
    (hinserts : inserts.Nodup) (hupdates : updates.Nodup) : Commit where
  entry := ⟨inserts, updates, [], [], inserts, [], []⟩
  vanished
  resources := [⟨[name], 1, true, [], 1, one_small⟩, ⟨[name, "a"], 1, false, [1], 1, one_small⟩]
  readable := none
  distinct := ⟨hinserts, hupdates, List.nodup_nil, List.nodup_nil, hinserts, List.nodup_nil,
    List.nodup_nil⟩
  noProperties := rfl
  paths := by simp

instance (collection : Collection) (entry : LogEntry) (resource : Resource) :
    Decidable (Changes collection entry resource) :=
  inferInstanceAs (Decidable (_ ∨ _))

def eventRun : List Label := [.commit 1 insertA, .initial 5, .commit 2 insertB]

theorem sync_in_sync_eventRun :
    ∃ w w', Runs.run (World.step .calendar oneCalendar 100) (World.new none) eventRun = some w ∧
      w.step .calendar oneCalendar 100 (.sync 5) = some w' ∧
      w'.client.members ["work", "b"] = some eventB ∧ InSync .calendar oneCalendar w' := by
  refine ⟨_, _, rfl, rfl, by decide, ?_⟩
  refine sync_in_sync .calendar oneCalendar 100 none eventRun _ ?_ rfl 5 (.sync 5) (Or.inr rfl) ?_ _
    rfl (by decide)
  · refine ⟨⟨?_, by decide, by decide, by decide, by decide⟩, ?_⟩
    · rintro isContainer id - ⟨commit, hmem, -⟩
      cases hmem
    · rintro next hnext
      cases hnext
      have hfits : (((World.new none).commit 1 insertA).members .calendar oneCalendar).length ≤
          min 5 100 := by decide
      refine ⟨hfits, ?_⟩
      rintro next hnext
      cases hnext
      refine ⟨⟨?_, by decide, by decide, by decide, by decide⟩,
        fun _ _ => trivial⟩
      intro isContainer id hid
      unfold Mentioned LogEntry.mentions
      revert isContainer id hid
      decide
  · rintro token htoken
    cases htoken
    refine ⟨by decide, ?_, ?_, by decide, by decide⟩
    · -- event A is still there
      rintro path resource hclient hnone
      have hmem : resource = eventA ∧ path = ["work", "a"] := by
        rw [World.commit, initial_members (by decide) _ rfl] at hclient
        obtain ⟨hmem, rfl⟩ := (memberAt_eq_some_iff (by decide)).mp hclient
        revert resource
        decide
      obtain ⟨rfl, rfl⟩ := hmem
      exact absurd hnone (by decide)
    · rintro vanished hvanished
      exfalso
      revert vanished
      decide

/-- A last report behind a run: whether it is marked as limited, and what the client then has at a
path, and what is there. -/
def outcome (collection : Collection) (query : DavQuery) (labels : List Label) (limit : Nat)
    (path : Path) : Option (Bool × Option Resource × Option Resource) :=
  (Runs.run (World.step collection query 100) (World.new none) labels).bind fun w =>
    (w.step collection query 100 (.sync limit)).map fun w' =>
      (w'.client.limited, w'.client.members path, w'.memberAt collection query path)

/-- A listing that is cut short comes with the token of the whole; a commit between two pages moves
what is behind the offset, and may take back what was reported without a trace; another limit moves
the offset; a log that was cut is read as it is; and what is in a calendar moves with it unsaid. -/
theorem sync_out_of_sync :
    outcome .calendar oneCalendar [.commit 1 insertABC, .initial 2] 2 ["work", "c"] =
      some (false, none, some eventC) ∧
    outcome .calendar oneCalendar [.initial 5, .commit 1 insertABC, .sync 1, .commit 2 deleteA,
        .sync 1] 1 ["work", "b"] =
      some (false, none, some eventB) ∧
    outcome .calendar oneCalendar [.initial 5, .commit 1 insertABC, .sync 1, .commit 2 deleteA,
        .sync 1] 1 ["work", "a"] =
      some (false, some eventA, none) ∧
    outcome .calendar oneCalendar [.initial 5, .commit 1 insertABC, .sync 1] 2 ["work", "b"] =
      some (false, none, some eventB) ∧
    outcome .calendar oneCalendar [.commit 1 insertA, .initial 5, .commit 2 insertB,
        .commit 3 insertC, .deleteChanges 1] 5 ["work", "b"] =
      some (false, none, some eventB) ∧
    outcome .calendar ⟨none, 2, false⟩
        [.commit 1 (calendarAt "work" [1] [] [] (by decide) (by decide)), .initial 5,
          .commit 2 (calendarAt "home" [] [1] [["work"]] (by decide) (by decide))] 5 ["home", "a"] =
      some (false, none, some ⟨["home", "a"], 1, false, [1], 1, by decide⟩) := by
  refine ⟨?_, ?_, ?_, ?_, ?_, ?_⟩ <;> decide

end Bearmail.Dav
