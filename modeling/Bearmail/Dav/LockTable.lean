import Bearmail.Dav.Lock

/-!
# What a lock covers

A lock covers its path, and with infinite depth everything below it. `find_locks` finds the locks
that cover a path or something below it. Then what each change of a table does to its locks.
-/

namespace Bearmail.Dav.Lock

open List

/-! ## Paths -/

def Above (path other : Text) : Prop := path ++ ['/'] <+: other

instance (path other : Text) : Decidable (Above path other) :=
  inferInstanceAs (Decidable (_ <+: _))

variable {path : Text} {data : LockData}

theorem Above.length_lt {other : Text} (h : Above path other) : path.length < other.length := by
  have hle := h.length_le
  rw [length_append, length_singleton] at hle
  omega

theorem mem_partsRev {part : Text} : part ∈ partsRev path ↔ ∃ tail, path = tail ++ '/' :: part := by
  induction path with
  | nil => simp [partsRev]
  | cons c rest ih =>
    have hrest : (∃ tail, c :: rest = tail ++ '/' :: part) ↔
        (c = '/' ∧ rest = part) ∨ ∃ tail, rest = tail ++ '/' :: part := by
      constructor
      · rintro ⟨tail, htail⟩
        cases tail with
        | nil =>
          obtain ⟨hc, hrest⟩ := cons_eq_cons.mp htail
          exact Or.inl ⟨hc, hrest⟩
        | cons d tail => exact Or.inr ⟨tail, (cons_eq_cons.mp htail).2⟩
      · rintro (⟨rfl, rfl⟩ | ⟨tail, rfl⟩)
        · exact ⟨[], rfl⟩
        · exact ⟨c :: tail, rfl⟩
    rw [hrest, partsRev]
    by_cases hc : c = '/'
    · rw [if_pos hc, mem_cons, ih]
      simp [hc, eq_comm]
    · rw [if_neg hc, ih]
      simp [hc]

theorem mem_resourceParts {part resource : Text} :
    part ∈ resourceParts resource ↔ part = resource ∨ Above part resource := by
  have hparts : part ∈ (partsRev resource.reverse).map List.reverse ↔ Above part resource := by
    rw [mem_map]
    constructor
    · rintro ⟨rev, hrev, rfl⟩
      obtain ⟨tail, htail⟩ := mem_partsRev.mp hrev
      refine ⟨tail.reverse, ?_⟩
      have hresource := congrArg List.reverse htail
      simpa using hresource.symm
    · rintro ⟨tail, rfl⟩
      refine ⟨part.reverse, mem_partsRev.mpr ⟨tail.reverse, ?_⟩, reverse_reverse part⟩
      simp
  rw [resourceParts, mem_cons, hparts]

/-! ## Locks that are found -/

theorem mem_entries {entry : Text × LockItem} :
    entry ∈ data.entries ↔ ∃ items, (entry.1, items) ∈ data.locks ∧ entry.2 ∈ items := by
  rw [LockData.entries, mem_flatMap]
  constructor
  · rintro ⟨⟨path, items⟩, hgroup, hentry⟩
    obtain ⟨lock, hlock, rfl⟩ := mem_map.mp hentry
    exact ⟨items, hgroup, hlock⟩
  · rintro ⟨items, hgroup, hlock⟩
    exact ⟨(entry.1, items), hgroup, mem_map.mpr ⟨entry.2, hlock, rfl⟩⟩

theorem mem_lookup_iff {groups : List (Text × List LockItem)} (h : (groups.map Prod.fst).Nodup)
    {lock : LockItem} :
    lock ∈ (groups.lookup path).getD [] ↔ ∃ items, (path, items) ∈ groups ∧ lock ∈ items := by
  induction groups with
  | nil => simp
  | cons group rest ih =>
    obtain ⟨other, items⟩ := group
    obtain ⟨hother, hrest⟩ := nodup_cons.mp h
    by_cases hpath : path = other
    · subst hpath
      have hnot : ∀ others, (path, others) ∉ rest := fun others hmem =>
        hother (mem_map.mpr ⟨_, hmem, rfl⟩)
      simp [hnot]
    · rw [lookup_cons, beq_false_of_ne hpath]
      simp [ih hrest, hpath]

/-- A lock covers a path, or something below it. -/
def Reaches (entry : Text × LockItem) (path : Text) : Prop :=
  entry.1 = path ∨ entry.2.depthInfinity = true ∧ Above entry.1 path ∨ Above path entry.1

theorem mem_findLocks {now : Nat} {entry : Text × LockItem} : entry ∈ data.findLocks now path true ↔
      entry ∈ data.entries ∧ now < entry.2.expires ∧ Reaches entry path := by
  obtain ⟨place, lock⟩ := entry
  have hown : (place, lock) ∈ (resourceParts path).flatMap (fun part =>
      (((data.locks.lookup part).getD []).filter fun lock =>
        decide (now < lock.expires) && (path == part || lock.depthInfinity)).map
          fun lock => (part, lock)) ↔
      (place, lock) ∈ data.entries ∧ now < lock.expires ∧
        (place = path ∨ lock.depthInfinity = true ∧ Above place path) := by
    rw [mem_flatMap, mem_entries]
    constructor
    · rintro ⟨part, hpart, hmem⟩
      obtain ⟨lock', hlock, heq⟩ := mem_map.mp hmem
      cases heq
      obtain ⟨hlock, hcond⟩ := mem_filter.mp hlock
      rw [Bool.and_eq_true, decide_eq_true_eq, Bool.or_eq_true, beq_iff_eq] at hcond
      refine ⟨(mem_lookup_iff data.distinct).mp hlock, hcond.1, ?_⟩
      rcases hcond.2 with heq | hinfinity
      · exact Or.inl heq.symm
      · exact (mem_resourceParts.mp hpart).imp_right fun habove => ⟨hinfinity, habove⟩
    · rintro ⟨hentry, hnow, hplace⟩
      refine ⟨place, mem_resourceParts.mpr (hplace.imp_right And.right), ?_⟩
      refine mem_map.mpr ⟨lock, mem_filter.mpr ⟨(mem_lookup_iff data.distinct).mpr hentry, ?_⟩, rfl⟩
      rw [Bool.and_eq_true, decide_eq_true_eq, Bool.or_eq_true, beq_iff_eq]
      exact ⟨hnow, hplace.imp Eq.symm And.left⟩
  have hbelow : (place, lock) ∈ data.locks.flatMap (fun group =>
      if (path ++ ['/']).isPrefixOf group.1 then
        (group.2.filter fun lock => decide (now < lock.expires)).map fun lock => (group.1, lock)
      else []) ↔
      (place, lock) ∈ data.entries ∧ now < lock.expires ∧ Above path place := by
    rw [mem_flatMap, mem_entries]
    constructor
    · rintro ⟨⟨part, items⟩, hgroup, hmem⟩
      split at hmem
      · rename_i hstarts
        obtain ⟨lock', hlock, heq⟩ := mem_map.mp hmem
        cases heq
        obtain ⟨hlock, hnow⟩ := mem_filter.mp hlock
        exact ⟨⟨items, hgroup, hlock⟩, of_decide_eq_true hnow, isPrefixOf_iff_prefix.mp hstarts⟩
      · exact absurd hmem not_mem_nil
    · rintro ⟨⟨items, hgroup, hlock⟩, hnow, habove⟩
      refine ⟨(place, items), hgroup, ?_⟩
      rw [if_pos ( isPrefixOf_iff_prefix.mpr habove)]
      exact mem_map.mpr ⟨lock, mem_filter.mpr ⟨hlock, decide_eq_true hnow⟩, rfl⟩
  rw [LockData.findLocks, if_pos rfl, mem_append, hown, hbelow, Reaches, ← and_or_left,
    ← and_or_left, or_assoc]

/-! ## Changes of a table -/

theorem entries_push (data : LockData) (path : Text) (lock : LockItem) :
    (data.push path lock).entries.Perm ((path, lock) :: data.entries) := by
  obtain ⟨groups, hdistinct⟩ := data
  change (List.flatMap _ (pushGroups path lock groups)).Perm ((path, lock) :: groups.flatMap _)
  clear hdistinct
  induction groups with
  | nil => exact List.Perm.refl _
  | cons group rest ih =>
    obtain ⟨other, items⟩ := group
    by_cases h : other = path
    · subst h
      rw [pushGroups, if_pos rfl]
      simp only [flatMap_cons, List.map_append, map_singleton, append_assoc]
      exact perm_middle
    · rw [pushGroups, if_neg h]
      exact (ih.append_left _).trans perm_middle

theorem modifyItems_eq_some {lockId : Nat} {f : LockItem → LockItem} {items changed : List LockItem}
    (h : modifyItems lockId f items = some changed) :
    ∃ before lock behind, items = before ++ lock :: behind ∧ lock.lockId = lockId ∧
      changed = before ++ f lock :: behind := by
  induction items generalizing changed with
  | nil => cases h
  | cons lock rest ih =>
    simp only [modifyItems] at h
    split at h
    · rename_i hid
      cases h
      exact ⟨[], lock, rest, rfl, hid, rfl⟩
    · obtain ⟨tail, htail, rfl⟩ := Option.map_eq_some_iff.mp h
      obtain ⟨before, found, behind, rfl, hid, rfl⟩ := ih htail
      exact ⟨lock :: before, found, behind, rfl, hid, rfl⟩

theorem entries_modify {changed : LockData} {lockId : Nat} {f : LockItem → LockItem}
    (h : data.modify lockId f = some changed) :
    ∃ before path lock behind, data.entries = before ++ (path, lock) :: behind ∧
      lock.lockId = lockId ∧ changed.entries = before ++ (path, f lock) :: behind := by
  obtain ⟨groups, hdistinct⟩ := data
  obtain ⟨left, hleft⟩ := changed
  have hgroups : modifyGroups lockId f groups = some left := by
    simp only [LockData.modify] at h
    split at h
    · cases h
    · rename_i hsome
      cases h
      exact hsome
  change ∃ before path lock behind, List.flatMap _ groups = _ ∧ _ ∧ List.flatMap _ left = _
  clear h hdistinct hleft
  induction groups generalizing left with
  | nil => cases hgroups
  | cons group rest ih =>
    obtain ⟨path, items⟩ := group
    simp only [modifyGroups] at hgroups
    split at hgroups
    · rename_i items' hitems
      cases hgroups
      obtain ⟨before, lock, behind, rfl, hid, rfl⟩ := modifyItems_eq_some hitems
      refine ⟨before.map fun lock => (path, lock), path, lock, behind.map (fun lock => (path, lock)) ++
          rest.flatMap fun group => group.2.map fun lock => (group.1, lock), ?_, hid, ?_⟩
      all_goals
        simp
    · obtain ⟨tail, htail, rfl⟩ := Option.map_eq_some_iff.mp hgroups
      obtain ⟨before, place, lock, behind, hrest, hid, htail⟩ := ih tail htail
      refine ⟨items.map (fun lock => (path, lock)) ++ before, place, lock, behind, ?_, hid, ?_⟩
      · simp [hrest]
      · simp [htail]

theorem entries_removeLock {left : LockData} {lockId : Nat} (h : data.removeLock lockId = some left) :
    left.entries.Sublist data.entries := by
  obtain ⟨groups, hdistinct⟩ := data
  obtain ⟨rest, hrest⟩ := left
  have hgroups : removeGroups lockId groups = some rest := by
    simp only [LockData.removeLock] at h
    split at h
    · cases h
    · rename_i hsome
      cases h
      exact hsome
  change (List.flatMap _ rest).Sublist (List.flatMap _ groups)
  clear h hdistinct hrest
  induction groups generalizing rest with
  | nil => cases hgroups
  | cons group tail ih =>
    simp only [removeGroups] at hgroups
    split at hgroups
    · cases hgroups
      split
      · exact sublist_append_right _ _
      · exact (eraseP_sublist.map _).append_right _
    · obtain ⟨tail', htail, rfl⟩ := Option.map_eq_some_iff.mp hgroups
      exact (ih tail' htail).append_left _

theorem entries_removeExpired (data : LockData) (now : Nat) : (data.removeExpired now).entries =
      data.entries.filter fun entry => decide (now < entry.2.expires) := by
  obtain ⟨groups, hdistinct⟩ := data
  change List.flatMap _ ((groups.map (retain now)).filter _) = (groups.flatMap _).filter _
  clear hdistinct
  induction groups with
  | nil => rfl
  | cons group rest ih =>
    rw [flatMap_cons, filter_append, map_cons, ← ih, filter_cons]
    have hitems : (group.2.map fun lock => (group.1, lock)).filter
        (fun entry => decide (now < entry.2.expires)) =
        (retain now group).2.map fun lock => ((retain now group).1, lock) := by
      rw [filter_map]
      rfl
    rw [hitems]
    cases hempty : (retain now group).2 with
    | nil => simp
    | cons lock locks => simp [hempty]

end Bearmail.Dav.Lock
