import Bearmail.Store.Issued
import Bearmail.Store.Journal
import Bearmail.Store.RocksDb

/-!
# Change sets and their entries

The account and the log that a change set is for, within a segment and among all of them, and the keys of
the entries that the transactions of a route write.
-/

namespace Bearmail.Store

open List

def logOf (set : ChangeSet) : UInt32 × LogCollection := (set.1, set.2.1)

def logged (filed : UInt32 × LogCall) : UInt32 × LogCollection := (filed.1, filed.2.collection)

/-! ## The change sets of a segment -/

def ChangeLogBuilder.Has (changelog : ChangeLogBuilder) : LogCollection → Prop
  | .sync collection => collection ∈ changelog.changes.keys
  | .vanished collection => collection ∈ changelog.vanished.keys

theorem ChangeLogBuilder.has_log (changelog : ChangeLogBuilder) (call : LogCall)
    (collection : LogCollection) :
    (changelog.log call).Has collection ↔ changelog.Has collection ∨ collection = call.collection := by
  cases call <;> cases collection <;> simp [log, change, Has, LogCall.collection, VecMap.mem_keys_modify]

theorem ChangeLogBuilder.not_has_empty (collection : LogCollection) : ¬ empty.Has collection := by
  cases collection <;> exact not_mem_nil

theorem mem_accountSets {entry : UInt32 × ChangeLogBuilder} {collection : LogCollection} :
    (∃ set ∈ accountSets entry, logOf set = (entry.1, collection)) ↔ entry.2.Has collection := by
  cases collection with
  | sync collection =>
    constructor
    · rintro ⟨set, hset, hlog⟩
      rcases mem_append.mp hset with hset | hset
      · obtain ⟨changes, hchanges, rfl⟩ := mem_map.mp hset
        cases hlog
        exact mem_map_of_mem hchanges
      · obtain ⟨vanished, -, rfl⟩ := mem_map.mp hset
        cases hlog
    · intro hhas
      obtain ⟨changes, hchanges, rfl⟩ := mem_map.mp hhas
      exact ⟨_, mem_append_left _ (mem_map_of_mem hchanges), rfl⟩
  | vanished collection =>
    constructor
    · rintro ⟨set, hset, hlog⟩
      rcases mem_append.mp hset with hset | hset
      · obtain ⟨changes, -, rfl⟩ := mem_map.mp hset
        cases hlog
      · obtain ⟨vanished, hvanished, rfl⟩ := mem_map.mp hset
        cases hlog
        exact mem_map_of_mem hvanished
    · intro hhas
      obtain ⟨vanished, hvanished, rfl⟩ := mem_map.mp hhas
      exact ⟨_, mem_append_right _ (mem_map_of_mem hvanished), rfl⟩

theorem accountId_of_mem_accountSets {entry : UInt32 × ChangeLogBuilder} {set : ChangeSet}
    (h : set ∈ accountSets entry) : set.1 = entry.1 := by
  rcases mem_append.mp h with hset | hset
  · obtain ⟨changes, -, rfl⟩ := mem_map.mp hset
    rfl
  · obtain ⟨vanished, -, rfl⟩ := mem_map.mp hset
    rfl

theorem mem_logs_changeSets {changes : VecMap UInt32 ChangeLogBuilder} {log : UInt32 × LogCollection} :
    log ∈ (changeSets changes).map logOf ↔
      ∃ changelog, changes.lookup log.1 = some changelog ∧ changelog.Has log.2 := by
  rw [mem_map]
  constructor
  · rintro ⟨set, hset, rfl⟩
    obtain ⟨entry, hentry, hset⟩ := mem_flatMap.mp hset
    have haccount := accountId_of_mem_accountSets hset
    refine ⟨entry.2, VecMap.mem_entries_iff.mp ?_, mem_accountSets.mp ⟨set, hset, ?_⟩⟩
    · exact haccount ▸ hentry
    · exact Prod.ext haccount rfl
  · rintro ⟨changelog, hlookup, hhas⟩
    have hhas : (log.1, changelog).2.Has log.2 := hhas
    obtain ⟨set, hset, hlog⟩ := mem_accountSets.mpr hhas
    exact ⟨set, mem_flatMap.mpr ⟨_, VecMap.mem_entries_iff.mpr hlookup, hset⟩, hlog⟩

theorem mem_logs_setsOf {filed : List (UInt32 × LogCall)} {log : UInt32 × LogCollection} :
    log ∈ (setsOf filed).map logOf ↔ log ∈ filed.map logged := by
  induction filed using List.reverseRecOn with
  | nil => exact Iff.rfl
  | append_singleton filed last ih =>
    have hsplit : changesOf (filed ++ [last]) = fileInto (changesOf filed) last := by
      rw [changesOf, foldl_append]
      rfl
    rw [List.map_append, mem_append, map_singleton, mem_singleton, ← ih, setsOf,
      mem_logs_changeSets, setsOf, mem_logs_changeSets, hsplit, fileInto]
    by_cases haccount : log.1 = last.1
    · have hlogged : log = logged last ↔ log.2 = last.2.collection :=
        ⟨fun h => congrArg Prod.snd h, fun h => Prod.ext haccount h⟩
      rw [haccount, VecMap.lookup_modify_self, hlogged]
      cases (changesOf filed).lookup last.1 with
      | none => simp [ChangeLogBuilder.has_log, ChangeLogBuilder.not_has_empty]
      | some changelog => simp [ChangeLogBuilder.has_log]
    · have hlogged : log ≠ logged last := fun h => haccount (congrArg Prod.fst h)
      rw [VecMap.lookup_modify_of_ne _ _ _ haccount]
      exact (or_iff_left hlogged).symm

theorem nodup_accountSets (entry : UInt32 × ChangeLogBuilder) :
    ((accountSets entry).map logOf).Nodup := by
  have hsync : (entry.2.changes.entries.map fun changes =>
      (entry.1, LogCollection.sync changes.1)).Nodup := by
    have hmap := entry.2.changes.nodup.map (f := fun collection =>
      (entry.1, LogCollection.sync collection)) fun _ _ heq => by cases heq; rfl
    rwa [map_map] at hmap
  have hvanished : (entry.2.vanished.entries.map fun vanished =>
      (entry.1, LogCollection.vanished vanished.1)).Nodup := by
    have hmap := entry.2.vanished.nodup.map (f := fun collection =>
      (entry.1, LogCollection.vanished collection)) fun _ _ heq => by cases heq; rfl
    rwa [map_map] at hmap
  rw [accountSets, List.map_append, map_map, map_map]
  refine nodup_append.mpr ⟨hsync, hvanished, fun log hlog log' hlog' heq => ?_⟩
  obtain ⟨changes, -, rfl⟩ := mem_map.mp hlog
  obtain ⟨vanished, -, rfl⟩ := mem_map.mp hlog'
  cases heq

theorem nodup_setsOf (filed : List (UInt32 × LogCall)) : ((setsOf filed).map logOf).Nodup := by
  rw [setsOf, changeSets, map_flatMap]
  refine nodup_flatMap.mpr ⟨fun entry _ => nodup_accountSets entry, ?_⟩
  refine (pairwise_map.mp (changesOf filed).nodup).imp fun hne log hlog hlog' => hne ?_
  obtain ⟨set, hset, rfl⟩ := mem_map.mp hlog
  obtain ⟨set', hset', heq⟩ := mem_map.mp hlog'
  rw [← accountId_of_mem_accountSets hset, ← accountId_of_mem_accountSets hset']
  exact (congrArg Prod.fst heq).symm

/-- The logs of all segments are distinct when no two segments have changes of the same log. -/
theorem nodup_flatMap_setsOf (segments : List (List (UInt32 × LogCall))) :
    ((segments.flatMap setsOf).map logOf).Nodup ↔
      segments.Pairwise fun filed filed' =>
        ∀ entry ∈ filed, ∀ entry' ∈ filed', logged entry ≠ logged entry' := by
  rw [map_flatMap, nodup_flatMap, and_iff_right fun filed _ => nodup_setsOf filed]
  refine List.Pairwise.iff fun filed filed' => ⟨fun hdisjoint entry hentry entry' hentry' heq => ?_,
    fun hne log hlog hlog' => ?_⟩
  · exact hdisjoint (mem_logs_setsOf.mpr (mem_map_of_mem hentry))
      (mem_logs_setsOf.mpr (heq ▸ mem_map_of_mem hentry'))
  · obtain ⟨entry, hentry, rfl⟩ := mem_map.mp (mem_logs_setsOf.mp hlog)
    obtain ⟨entry', hentry', heq⟩ := mem_map.mp (mem_logs_setsOf.mp hlog')
    exact hne entry hentry entry' hentry' heq.symm

/-! ## Entries -/

theorem logPut_key_eq {idOf idOf' : UInt32 → UInt64} {set set' : ChangeSet} :
    (logPut idOf set).1 = (logPut idOf' set').1 ↔
      logOf set = logOf set' ∧ idOf set.1 = idOf' set'.1 := by
  constructor
  · intro heq
    obtain ⟨haccount, hcollection, hid⟩ := LogKey.mk.inj heq
    exact ⟨Prod.ext haccount (LogCollection.toUInt8_injective hcollection), hid⟩
  · rintro ⟨hlog, hid⟩
    obtain ⟨haccount, hcollection⟩ := Prod.ext_iff.mp hlog
    exact LogKey.mk.injEq .. ▸ ⟨haccount, congrArg LogCollection.toUInt8 hcollection, hid⟩

theorem nodup_keys_logPut (idOf : UInt32 → UInt64) (sets : List ChangeSet) :
    ((sets.map (logPut idOf)).map Prod.fst).Nodup ↔ (sets.map logOf).Nodup := by
  rw [map_map, nodup_iff_pairwise_ne, nodup_iff_pairwise_ne, pairwise_map, pairwise_map]
  refine List.Pairwise.iff fun set set' => not_congr ?_
  refine logPut_key_eq.trans ⟨And.left, fun hlog => ⟨hlog, ?_⟩⟩
  have haccount : set.1 = set'.1 := (Prod.ext_iff.mp hlog).1
  rw [haccount]

namespace Backend

theorem logPuts_of_no_changes (counted : UInt32 → UInt64) (transactions : List (List ChangeSet)) :
    logPuts false counted transactions = transactions.flatten.map (logPut fun _ => 0) := by
  induction transactions generalizing counted with
  | nil => rfl
  | cons sets rest ih =>
    rw [logPuts, ih, flatten_cons, List.map_append]
    rfl

theorem later_changeId (counted : UInt64) (n : Nat) :
    counted + 1 + 1 + UInt64.ofNat n = counted + 1 + UInt64.ofNat (n + 1) := by
  rw [UInt64.ofNat_add, UInt64.add_assoc (counted + 1), UInt64.add_comm 1]
  rfl

theorem later_changeId_ne (counted : UInt64) {n : Nat} (h : n + 1 < 2 ^ 64) :
    counted + 1 ≠ counted + 1 + 1 + UInt64.ofNat n := by
  intro heq
  rw [later_changeId] at heq
  have hzero := congrArg UInt64.toNat (UInt64.add_eq_left.mp heq.symm)
  rw [UInt64.toNat_ofNat', Nat.mod_eq_of_lt h] at hzero
  exact Nat.succ_ne_zero n hzero

theorem mem_logPuts {counted : UInt32 → UInt64} {transactions : List (List ChangeSet)}
    {put : LogPut} (h : put ∈ logPuts true counted transactions) :
    ∃ n set, n < transactions.length ∧
      put = logPut (fun account => counted account + 1 + UInt64.ofNat n) set := by
  induction transactions generalizing counted with
  | nil => exact absurd h not_mem_nil
  | cons sets rest ih =>
    rcases mem_append.mp h with hput | hput
    · obtain ⟨set, -, rfl⟩ := mem_map.mp hput
      refine ⟨0, set, Nat.succ_pos _, ?_⟩
      simp [logPut, changeIdFor]
    · obtain ⟨n, set, hn, rfl⟩ := ih hput
      exact ⟨n + 1, set, Nat.succ_lt_succ hn, by simp [later_changeId]⟩

theorem nodup_logPuts {counted : UInt32 → UInt64} {transactions : List (List ChangeSet)}
    (hlength : transactions.length ≤ 2 ^ 64) :
    ((logPuts true counted transactions).map Prod.fst).Nodup ↔
      ∀ sets ∈ transactions, (sets.map logOf).Nodup := by
  induction transactions generalizing counted with
  | nil => simp [logPuts]
  | cons sets rest ih =>
    rw [forall_mem_cons, ← ih (Nat.le_of_succ_le hlength), logPuts, List.map_append,
      nodup_append, nodup_keys_logPut]
    refine and_congr_right' (and_iff_left ?_)
    intro key hkey key' hkey' heq
    obtain ⟨put, hput, rfl⟩ := mem_map.mp hkey
    obtain ⟨set, -, rfl⟩ := mem_map.mp hput
    obtain ⟨put', hput', rfl⟩ := mem_map.mp hkey'
    obtain ⟨n, set', hn, rfl⟩ := mem_logPuts hput'
    obtain ⟨hlog, hid⟩ := logPut_key_eq.mp heq
    have haccount : set.1 = set'.1 := (Prod.ext_iff.mp hlog).1
    rw [← haccount] at hid
    exact later_changeId_ne (counted set.1) (Nat.lt_of_lt_of_le (Nat.succ_lt_succ hn) hlength) hid

end Backend

end Bearmail.Store
