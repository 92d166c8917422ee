import Bearmail.Sync.Scan
import Bearmail.Store.Collections
import Bearmail.Lib.Ordered

/-!
# Cutting the logs of an account

`delete_changes` in `common/src/storage/transaction.rs`. A log that is longer than it may be keeps its
newest entries, and the one before them stands without a value for all that was deleted. A client reads on
from the change id that it has: either it comes across the entry without a value, or nothing that it would
have read is missing.

Left out are the failures of the store.
-/

namespace Bearmail.Sync

open Bearmail.Store
open List

/-- The logs, those of vanished names with the bytes of their values. -/
@[ext] structure LogStore where
  logs : (accountId : Nat) → SyncCollection → Ordered.Table (Option LogEntry)
  vanished : (accountId : Nat) → VanishedCollection → Ordered.Table (List UInt8)

def LogStore.changes (store : LogStore) (accountId : Nat) (collection : SyncCollection)
    (query : Query) : Changes :=
  Log.changes (store.logs accountId collection).entries (decide (collection = .shareNotification)) query

/-! ## The program -/

/-- The scan from the newest entry on: the change id that it has come to, and how many entries it saw. -/
def countBack (maxEntries : Nat) : List Nat → Nat × Nat → Nat × Nat
  | [], counted => counted
  | changeId :: rest, (_, numChanges) =>
    if numChanges + 1 ≤ maxEntries then countBack maxEntries rest (changeId, numChanges + 1)
    else (changeId, numChanges + 1)

/-- The collections whose logs `delete_changes` counts. -/
def countedCollections : List SyncCollection :=
  [.email, .thread, .identity, .emailSubmission, .sieveScript, .fileNode, .addressBook, .calendar,
    .calendarEventNotification]

/-- The entries before an id are deleted, and it is written that the log was cut there. -/
def LogStore.deleteBefore (accountId : Nat) (collection : SyncCollection) (firstChangeId : Nat)
    (store : LogStore) : LogStore where
  logs account other :=
    if account = accountId ∧ other = collection then
      ((store.logs account other).deleteRange 0 firstChangeId).put firstChangeId none
    else store.logs account other
  vanished account other :=
    if account = accountId ∧ collection.vanishedCollection = some other then
      (store.vanished account other).deleteRange 0 firstChangeId
    else store.vanished account other

def LogStore.truncate (accountId maxEntries : Nat) (store : LogStore) (collection : SyncCollection) :
    LogStore :=
  let ids := (store.logs accountId collection).entries.map Prod.fst
  let (firstChangeId, numChanges) := countBack maxEntries ids.reverse (0, 0)
  if numChanges > maxEntries then store.deleteBefore accountId collection firstChangeId else store

def LogStore.truncateAll (accountId maxEntries : Nat) (store : LogStore) : LogStore :=
  countedCollections.foldl (LogStore.truncate accountId maxEntries) store

/-- Notifications are not counted; those from before an id, which stands for a time, are deleted. -/
def LogStore.deleteNotifications (accountId changeId : Nat) (store : LogStore) : LogStore where
  logs account other :=
    if account = accountId ∧ other = .shareNotification then
      (store.logs account other).deleteRange 0 changeId
    else store.logs account other
  vanished := store.vanished

def LogStore.deleteChanges (accountId : Nat) (maxEntries oldest : Option Nat) (store : LogStore) :
    LogStore :=
  let store := match maxEntries with
    | some maxEntries => store.truncateAll accountId maxEntries
    | none => store
  match oldest with
  | some changeId => store.deleteNotifications accountId changeId
  | none => store

/-! ## The scan -/

theorem countBack_of_le {maxEntries : Nat} {ids : List Nat} {counted : Nat × Nat}
    (h : counted.2 + ids.length ≤ maxEntries) :
    (countBack maxEntries ids counted).2 = counted.2 + ids.length := by
  induction ids generalizing counted with
  | nil => rfl
  | cons changeId rest ih =>
    rw [length_cons] at h ⊢
    rw [countBack, if_pos (by omega), ih (by simp only; omega)]
    omega

theorem countBack_of_lt {maxEntries : Nat} {ids : List Nat} {counted : Nat × Nat}
    (hcounted : counted.2 ≤ maxEntries) (h : maxEntries < counted.2 + ids.length) :
    ∃ newer changeId older, ids = newer ++ changeId :: older ∧ counted.2 + newer.length = maxEntries ∧
      countBack maxEntries ids counted = (changeId, maxEntries + 1) := by
  induction ids generalizing counted with
  | nil =>
    simp only [length_nil] at h
    omega
  | cons changeId rest ih =>
    rw [length_cons] at h
    by_cases hmore : counted.2 + 1 ≤ maxEntries
    · obtain ⟨newer, first, older, hsplit, hlength, hcount⟩ :=
        @ih (changeId, counted.2 + 1) hmore (by simp only; omega)
      refine ⟨changeId :: newer, first, older, by rw [hsplit]; rfl, ?_, ?_⟩
      · simp only [length_cons] at hlength ⊢
        omega
      · rw [countBack, if_pos hmore, hcount]
    · have hlast : counted.2 = maxEntries := by omega
      exact ⟨[], changeId, rest, rfl, hlast, by rw [countBack, if_neg hmore, hlast]⟩

/-- A log that is not too long, or what comes before and behind the entry at which it is cut. -/
theorem countBack_entries (maxEntries : Nat) (log : Log) :
    let ids := log.map Prod.fst
    (log.length ≤ maxEntries ∧ (countBack maxEntries ids.reverse (0, 0)).2 ≤ maxEntries) ∨
    ∃ older first newer, log = older ++ first :: newer ∧ newer.length = maxEntries ∧
      countBack maxEntries ids.reverse (0, 0) = (first.1, maxEntries + 1) := by
  intro ids
  have hlength : ids.reverse.length = log.length := by simp [ids]
  by_cases h : log.length ≤ maxEntries
  · refine .inl ⟨h, ?_⟩
    rw [countBack_of_le (by simp only; omega)]
    omega
  · obtain ⟨newer, changeId, older, hsplit, hnewer, hcount⟩ :=
      @countBack_of_lt maxEntries ids.reverse (0, 0) (Nat.zero_le _) (by simp only; omega)
    have hids : log.map Prod.fst = older.reverse ++ changeId :: newer.reverse := by
      have := congrArg List.reverse hsplit
      simpa [ids] using this
    obtain ⟨before, rest, rfl, hbefore, hrest⟩ := map_eq_append_iff.mp hids
    obtain ⟨first, behind, rfl, hfirst, hbehind⟩ := map_eq_cons_iff.mp hrest
    refine .inr ⟨before, first, behind, rfl, ?_, by rw [hcount, hfirst]⟩
    have := congrArg List.length hbehind
    simp only [length_map, length_reverse] at this
    omega

/-! ## One log -/

section One

variable {accountId account maxEntries firstChangeId : Nat} {collection other : SyncCollection}
  {store : LogStore}

variable {first : Nat × Option LogEntry}

theorem LogStore.deleteBefore_logs_self {older newer : Log}
    (h : (store.logs accountId collection).entries = older ++ first :: newer) :
    ((store.deleteBefore accountId collection first.1).logs accountId collection).entries =
      (first.1, none) :: newer := by
  have hascending := (store.logs accountId collection).ascending
  rw [h] at hascending
  have hlogs : (store.deleteBefore accountId collection first.1).logs accountId collection =
      ((store.logs accountId collection).deleteRange 0 first.1).put first.1 none :=
    if_pos ⟨rfl, rfl⟩
  rw [hlogs, Ordered.Table.entries_put, Ordered.Table.entries_deleteRange, h,
    Ordered.deleteRange_head hascending, Ordered.put_head]

theorem LogStore.deleteBefore_logs_other (h : ¬ (account = accountId ∧ other = collection)) :
    (store.deleteBefore accountId collection firstChangeId).logs account other =
      store.logs account other :=
  if_neg h

theorem LogStore.truncate_cases (accountId maxEntries : Nat) (store : LogStore)
    (collection : SyncCollection) :
    ((store.logs accountId collection).entries.length ≤ maxEntries ∧
      store.truncate accountId maxEntries collection = store) ∨
    ∃ older first newer, (store.logs accountId collection).entries = older ++ first :: newer ∧
      newer.length = maxEntries ∧
      store.truncate accountId maxEntries collection =
        store.deleteBefore accountId collection first.1 := by
  rcases countBack_entries maxEntries (store.logs accountId collection).entries with
    ⟨hlength, hcount⟩ | ⟨older, first, newer, hsplit, hlength, hcount⟩
  · refine .inl ⟨hlength, ?_⟩
    exact if_neg (Nat.not_lt_of_ge hcount)
  · refine .inr ⟨older, first, newer, hsplit, hlength, ?_⟩
    rw [truncate, hcount]
    exact if_pos (Nat.lt_succ_self _)

theorem LogStore.truncate_logs_other (h : ¬ (account = accountId ∧ other = collection)) :
    (store.truncate accountId maxEntries collection).logs account other =
      store.logs account other := by
  rcases store.truncate_cases accountId maxEntries collection with
    ⟨-, htruncate⟩ | ⟨older, first, newer, -, -, htruncate⟩
  · rw [htruncate]
  · rw [htruncate, deleteBefore_logs_other h]

/-! ## Reading on -/

def ReadsOn (before after : Changes) : Prop := after.isTruncated = true ∨ after = before

theorem ReadsOn.trans {before between after : Changes} (h : ReadsOn before between)
    (h' : ReadsOn between after) : ReadsOn before after := by
  rcases h' with htruncated | rfl
  · exact .inl htruncated
  · exact h

theorem scans_since {log : Log} {changeId : Nat} {newer : Log}
    {older : Log} (h : Ordered.Ascending log) (hlog : log = older ++ first :: newer)
    (hle : first.1 ≤ changeId) :
    (log.filter fun item => (Query.since changeId).scans item.1) =
      ((first :: newer).filter fun item => (Query.since changeId).scans item.1) := by
  subst hlog
  obtain ⟨-, -, hbefore⟩ := pairwise_append.mp h
  have hnone : (older.filter fun item => (Query.since changeId).scans item.1) = [] := by
    refine filter_eq_nil_iff.mpr fun item hmem hscans => ?_
    have hlt := hbefore item hmem first mem_cons_self
    have hge : changeId ≤ item.1 := of_decide_eq_true hscans
    omega
  simp [filter_append, hnone]

theorem foldl_visit_isTruncated {isShareLog : Bool} {query : Query} (items : Log)
    {changelog : Changes} (h : changelog.isTruncated = true) :
    (items.foldl (Changes.visit isShareLog query) changelog).isTruncated = true := by
  induction items generalizing changelog with
  | nil => exact h
  | cons item items ih => exact ih (visit_isTruncated h item)

theorem readsOn_cut {older newer : Log}
    (h : Ordered.Ascending (older ++ first :: newer)) (isShareLog : Bool) (changeId : Nat) :
    ReadsOn (Log.changes (older ++ first :: newer) isShareLog (.since changeId))
      (Log.changes ((first.1, none) :: newer) isShareLog (.since changeId)) := by
  rcases Nat.lt_or_ge changeId first.1 with hlt | hle
  · left
    have hscans : (Query.since changeId).scans first.1 = true := decide_eq_true (Nat.le_of_lt hlt)
    rw [Log.changes, filter_cons, if_pos hscans, foldl_cons]
    refine foldl_visit_isTruncated _ ?_
    rw [Changes.visit, if_pos (.inr (Nat.ne_of_gt hlt))]
  · right
    rw [Log.changes, Log.changes, scans_since h rfl hle, filter_cons, filter_cons]
    by_cases hscans : (Query.since changeId).scans first.1 = true
    · have heq : first.1 = changeId := Nat.le_antisymm hle (of_decide_eq_true hscans)
      have hskip : ¬ ((Query.since changeId).isInclusive = true ∨
          first.1 ≠ (Query.since changeId).fromChangeId) := by
        simp [Query.isInclusive, Query.fromChangeId, heq]
      have hvisit : Changes.visit isShareLog (.since changeId) .empty (first.1, none) =
          Changes.visit isShareLog (.since changeId) .empty first := by
        rw [Changes.visit, if_neg hskip, Changes.visit, if_neg hskip]
      rw [if_pos hscans, if_pos hscans, foldl_cons, foldl_cons, hvisit]
    · rw [if_neg hscans, if_neg hscans]

theorem LogStore.truncate_readsOn (store : LogStore) (accountId maxEntries : Nat)
    (collection : SyncCollection) (account : Nat) (other : SyncCollection) (changeId : Nat) :
    ReadsOn (store.changes account other (.since changeId))
      ((store.truncate accountId maxEntries collection).changes account other (.since changeId)) := by
  by_cases hsame : account = accountId ∧ other = collection
  · obtain ⟨rfl, rfl⟩ := hsame
    rcases store.truncate_cases account maxEntries other with
      ⟨-, htruncate⟩ | ⟨older, first, newer, hsplit, -, htruncate⟩
    · rw [htruncate]
      exact .inr rfl
    · have hascending := (store.logs account other).ascending
      rw [htruncate, changes, changes, deleteBefore_logs_self hsplit, hsplit]
      rw [hsplit] at hascending
      exact readsOn_cut hascending _ changeId
  · rw [changes, changes, truncate_logs_other hsame]
    exact .inr rfl

end One

/-! ## Cutting again -/

section Again

variable {accountId maxEntries : Nat} {collection other : SyncCollection} {store : LogStore}

theorem LogStore.deleteBefore_comm (h : collection ≠ other) (store : LogStore)
    (firstChangeId secondChangeId : Nat) :
    (store.deleteBefore accountId collection firstChangeId).deleteBefore accountId other secondChangeId =
      (store.deleteBefore accountId other secondChangeId).deleteBefore accountId collection
        firstChangeId := by
  refine LogStore.ext (funext fun account => funext fun c => ?_)
    (funext fun account => funext fun v => ?_)
  · by_cases hfirst : account = accountId ∧ c = collection
    · have hsecond : ¬ (account = accountId ∧ c = other) := fun hc => h (hfirst.2.symm.trans hc.2)
      simp [deleteBefore, if_pos hfirst, if_neg hsecond]
    · simp [deleteBefore, if_neg hfirst]
  · simp only [deleteBefore]
    split
    · split
      · ext1
        simp [Ordered.deleteRange, Bool.and_comm]
      · rfl
    · rfl

theorem LogStore.truncate_deleteBefore (h : collection ≠ other) (store : LogStore) (changeId : Nat) :
    (store.deleteBefore accountId other changeId).truncate accountId maxEntries collection =
      (store.truncate accountId maxEntries collection).deleteBefore accountId other changeId := by
  have hlogs : (store.deleteBefore accountId other changeId).logs accountId collection =
      store.logs accountId collection := deleteBefore_logs_other fun hc => h hc.2
  unfold truncate
  rw [hlogs]
  dsimp only
  split
  · exact deleteBefore_comm h.symm store _ _
  · rfl

theorem LogStore.truncate_comm (store : LogStore) (collection other : SyncCollection) :
    (store.truncate accountId maxEntries collection).truncate accountId maxEntries other =
      (store.truncate accountId maxEntries other).truncate accountId maxEntries collection := by
  by_cases h : collection = other
  · rw [h]
  · rcases store.truncate_cases accountId maxEntries collection with
      ⟨-, hsame⟩ | ⟨older, first, newer, -, -, hcut⟩
    · rw [hsame]
      rcases store.truncate_cases accountId maxEntries other with
        ⟨-, hsame'⟩ | ⟨older, first, newer, -, -, hcut⟩
      · rw [hsame', hsame]
      · rw [hcut, truncate_deleteBefore h, hsame]
    · rw [hcut, truncate_deleteBefore (Ne.symm h)]
      rcases store.truncate_cases accountId maxEntries other with
        ⟨-, hsame'⟩ | ⟨older', first', newer', -, -, hcut'⟩
      · rw [hsame', hcut]
      · rw [hcut', truncate_deleteBefore h, hcut, deleteBefore_comm h]

theorem LogStore.truncate_again (store : LogStore) (collection : SyncCollection) :
    (store.truncate accountId maxEntries collection).truncate accountId maxEntries collection =
      store.truncate accountId maxEntries collection := by
  rcases store.truncate_cases accountId maxEntries collection with
    ⟨-, hsame⟩ | ⟨older, first, newer, hsplit, hlength, hcut⟩
  · simp [hsame]
  · have hself := deleteBefore_logs_self hsplit
    rw [hcut]
    rcases (store.deleteBefore accountId collection first.1).truncate_cases accountId maxEntries
      collection with ⟨hshort, -⟩ | ⟨older', first', newer', hsplit', hlength', hcut'⟩
    · rw [hself, length_cons] at hshort
      omega
    · -- the entry at the cut is again the one behind which so many are kept
      have hlengths := congrArg List.length hsplit'
      rw [hself] at hsplit' hlengths
      simp only [length_cons, length_append] at hlengths
      have hnil : older' = [] := length_eq_zero_iff.mp (by omega)
      subst hnil
      obtain ⟨hfirst, -⟩ := List.cons.inj hsplit'
      rw [hcut', ← hfirst]
      refine LogStore.ext (funext fun account => funext fun c => ?_)
        (funext fun account => funext fun v => ?_)
      · by_cases hc : account = accountId ∧ c = collection
        · obtain ⟨rfl, rfl⟩ := hc
          ext1
          have hagain := @deleteBefore_logs_self account c _ (first.1, none) [] newer hself
          rw [hagain, hself]
        · rw [deleteBefore_logs_other hc]
      · simp only [deleteBefore]
        split
        · exact Ordered.Table.deleteRange_deleteRange _ _ _
        · rfl

theorem LogStore.truncate_deleteNotifications {collection : SyncCollection}
    (h : collection ≠ .shareNotification) (store : LogStore) (changeId : Nat) :
    (store.deleteNotifications accountId changeId).truncate accountId maxEntries collection =
      (store.truncate accountId maxEntries collection).deleteNotifications accountId changeId := by
  have hlogs : (store.deleteNotifications accountId changeId).logs accountId collection =
      store.logs accountId collection := if_neg fun hc => h hc.2
  unfold truncate
  rw [hlogs]
  dsimp only
  split
  · refine LogStore.ext (funext fun account => funext fun c => ?_) rfl
    by_cases hc : account = accountId ∧ c = .shareNotification
    · have hother : ¬ (account = accountId ∧ c = collection) :=
        fun hc' => h (hc'.2.symm.trans hc.2)
      simp [deleteNotifications, if_pos hc, deleteBefore_logs_other hother]
    · simp [deleteBefore, deleteNotifications, if_neg hc]
  · rfl

theorem LogStore.deleteNotifications_again (store : LogStore) (changeId : Nat) :
    (store.deleteNotifications accountId changeId).deleteNotifications accountId changeId =
      store.deleteNotifications accountId changeId := by
  refine LogStore.ext (funext fun account => funext fun c => ?_) rfl
  simp only [deleteNotifications]
  split
  · exact Ordered.Table.deleteRange_deleteRange _ _ _
  · rfl

end Again

/-! ## All logs -/

section All

variable {accountId maxEntries : Nat} {store : LogStore}

theorem LogStore.truncateAll_readsOn (store : LogStore) (account : Nat)
    (collection : SyncCollection) (changeId : Nat) :
    ReadsOn (store.changes account collection (.since changeId))
      ((store.truncateAll accountId maxEntries).changes account collection (.since changeId)) := by
  unfold truncateAll
  induction countedCollections generalizing store with
  | nil => exact .inr rfl
  | cons first rest ih => exact (store.truncate_readsOn _ _ _ _ _ _).trans (ih _)

theorem LogStore.truncateAll_again (store : LogStore) :
    (store.truncateAll accountId maxEntries).truncateAll accountId maxEntries =
      store.truncateAll accountId maxEntries :=
  Ordered.foldl_again truncate_again truncate_comm countedCollections store

theorem LogStore.truncateAll_deleteNotifications (store : LogStore) (changeId : Nat) :
    (store.deleteNotifications accountId changeId).truncateAll accountId maxEntries =
      (store.truncateAll accountId maxEntries).deleteNotifications accountId changeId := by
  have hcounted : SyncCollection.shareNotification ∉ countedCollections := by decide
  unfold truncateAll
  generalize countedCollections = collections at hcounted ⊢
  induction collections generalizing store with
  | nil => rfl
  | cons first rest ih =>
    simp [foldl_cons, truncate_deleteNotifications fun heq => hcounted (heq ▸ mem_cons_self),
      ih _ (fun hmem => hcounted (mem_cons_of_mem _ hmem)), foldl_cons]

theorem LogStore.deleteChanges_changes {oldest : Option Nat} {collection : SyncCollection}
    (h : oldest = none ∨ collection ≠ .shareNotification) (store : LogStore) (account : Nat)
    (query : Query) :
    (store.deleteChanges accountId (some maxEntries) oldest).changes account collection query =
      (store.truncateAll accountId maxEntries).changes account collection query := by
  cases oldest with
  | none => rw [deleteChanges]
  | some changeId =>
    have hne : ¬ (account = accountId ∧ collection = .shareNotification) :=
      fun hc => h.resolve_left nofun hc.2
    rw [deleteChanges, changes, changes, deleteNotifications]
    simp [if_neg hne]

/-- A client that reads on from a change id is told of a log that was cut, or misses nothing, and a second
cut changes nothing. Only notifications are also deleted by their age. -/
theorem LogStore.deleteChanges_readsOn (store : LogStore) (accountId maxEntries : Nat)
    (oldest : Option Nat) :
    let cut := store.deleteChanges accountId (some maxEntries) oldest
    (∀ account collection changeId, oldest = none ∨ collection ≠ .shareNotification →
      let before := store.changes account collection (.since changeId)
      let after := cut.changes account collection (.since changeId)
      after.isTruncated = true ∨
        (after.changes = before.changes ∧ after.toChangeId = before.toChangeId)) ∧
    cut.deleteChanges accountId (some maxEntries) oldest = cut := by
  intro cut
  refine ⟨fun account collection changeId hnotification => ?_, ?_⟩
  · have hreads := @truncateAll_readsOn accountId maxEntries store account collection changeId
    rw [← deleteChanges_changes hnotification] at hreads
    exact hreads.imp_right fun heq => ⟨congrArg _ heq, congrArg _ heq⟩
  · cases oldest with
    | none =>
      have hcut : cut = store.truncateAll accountId maxEntries := by rw [← deleteChanges]
      rw [hcut, deleteChanges, truncateAll_again]
    | some changeId =>
      have hcut : cut = (store.truncateAll accountId maxEntries).deleteNotifications accountId
          changeId := by rw [← deleteChanges]
      rw [hcut, deleteChanges]
      simp [truncateAll_deleteNotifications, truncateAll_again, deleteNotifications_again]

end All

end Bearmail.Sync
