import Bearmail.Dav.LockTable
import Bearmail.Lib.Fallible
import Bearmail.Lib.Runs
import Mathlib.Data.List.Pairwise

/-!
# Exclusive locks

A LOCK request is checked against the locks that reach its path. A request with a lock token writes
the lock that has the token, wherever that is; and a refresh without a token makes a lock, with id 0,
that is not checked at all. Where neither happens, no exclusive lock stands beside a lock that it
overlaps.

The tables are compared without regard to expiry: what has expired goes with the next write, before
anything that overlaps it is there to be seen.
-/

namespace Bearmail.Dav.Lock

open List

def Overlap (a b : Text × LockItem) : Prop :=
  a.1 = b.1 ∨ a.2.depthInfinity = true ∧ Above a.1 b.1 ∨ b.2.depthInfinity = true ∧ Above b.1 a.1

/-- Two locks that have not expired overlap, and one of them is exclusive. -/
def Conflict (now : Nat) (a b : Text × LockItem) : Prop :=
  now < a.2.expires ∧ now < b.2.expires ∧ (a.2.exclusive = true ∨ b.2.exclusive = true) ∧ Overlap a b

instance (a b : Text × LockItem) : Decidable (Overlap a b) :=
  inferInstanceAs (Decidable (_ ∨ _))

instance (now : Nat) (a b : Text × LockItem) : Decidable (Conflict now a b) :=
  inferInstanceAs (Decidable (_ ∧ _))

/-! ## Runs -/

structure Tables where
  store : LockStore
  time : Nat

/-- A request, at a time when the clock has not gone back. A request that fails changes nothing. -/
def Tables.step (config : Config) (tables : Tables) (call : LockCall) : Option Tables :=
  if tables.time ≤ call.checked then
    match handleLockRequest config tables.store call with
    | .ok store => some ⟨store, call.cleaned⟩
    | .error _ => some ⟨tables.store, call.cleaned⟩
  else none

def LockCall.drawn (config : Config) (call : LockCall) : Nat := call.random ^^^ call.expires config

/-- A refresh has a lock token. The lock that a LOCK request has the token of is on the path of the
request. The id that is drawn is a new one. -/
structure Proper (config : Config) (tables : Tables) (call : LockCall) : Prop where
  refresh : call.request = .refresh → 0 < call.ifLockToken
  relock : ∀ info accountId collection path data, call.request = .lock info →
    call.resource = .ok (accountId, collection, path) →
    tables.store (accountId, collection.mainCollection) = some data →
    0 < call.ifLockToken →
    ∀ entry ∈ data.entries, entry.2.lockId = call.ifLockToken → entry.1 = path
  drawn : ∀ info accountId collection path, call.request = .lock info →
    call.resource = .ok (accountId, collection, path) →
    call.drawn config ≠ 0 ∧
    ∀ data, tables.store (accountId, collection.mainCollection) = some data →
      ∀ entry ∈ data.entries, entry.2.lockId ≠ call.drawn config

/-! ## The invariant -/

def Compatible (a b : Text × LockItem) : Prop :=
  a.2.exclusive = true ∨ b.2.exclusive = true → ¬ Overlap a b

theorem Overlap.symm {a b : Text × LockItem} (h : Overlap a b) : Overlap b a := by
  rcases h with h | h | h
  · exact Or.inl h.symm
  · exact Or.inr (Or.inr h)
  · exact Or.inr (Or.inl h)

theorem Compatible.symm {a b : Text × LockItem} (h : Compatible a b) : Compatible b a :=
  fun hexclusive hoverlap => h hexclusive.symm hoverlap.symm

structure Inv (entries : List (Text × LockItem)) : Prop where
  compatible : entries.Pairwise Compatible
  ids : (entries.map fun entry => entry.2.lockId).Nodup
  named : ∀ entry ∈ entries, entry.2.lockId ≠ 0

theorem Inv.sublist {entries left : List (Text × LockItem)} (h : Inv entries)
    (hleft : left.Sublist entries) : Inv left :=
  ⟨h.compatible.sublist hleft, h.ids.sublist (hleft.map _),
    fun entry hentry => h.named entry (hleft.subset hentry)⟩

theorem Inv.perm {entries others : List (Text × LockItem)} (h : Inv entries)
    (hperm : entries.Perm others) : Inv others :=
  ⟨(hperm.pairwise_iff Compatible.symm).mp h.compatible, (hperm.map _).nodup_iff.mp h.ids,
    fun entry hentry => h.named entry (hperm.mem_iff.mpr hentry)⟩

variable {entry : Text × LockItem} {path : Text} {data : LockData} {info : LockInfo}

theorem Inv.cons {others : List (Text × LockItem)} (h : Inv others)
    (hcompatible : ∀ other ∈ others, Compatible entry other)
    (hid : ∀ other ∈ others, other.2.lockId ≠ entry.2.lockId) (hnamed : entry.2.lockId ≠ 0) :
    Inv (entry :: others) := by
  refine ⟨pairwise_cons.mpr ⟨hcompatible, h.compatible⟩, ?_, ?_⟩
  · rw [map_cons, nodup_cons]
    refine ⟨?_, h.ids⟩
    rintro hmem
    obtain ⟨other, hother, heq⟩ := mem_map.mp hmem
    exact hid other hother heq
  · rintro other hother
    rcases mem_cons.mp hother with rfl | hother
    · exact hnamed
    · exact h.named other hother

theorem Inv.refresh {before behind : List (Text × LockItem)} {lock : LockItem}
    (h : Inv (before ++ (path, lock) :: behind)) (expires : Nat) :
    Inv (before ++ (path, { lock with expires }) :: behind) := by
  refine ⟨?_, ?_, ?_⟩
  · have hcompatible := h.compatible
    rw [pairwise_append, pairwise_cons] at hcompatible ⊢
    obtain ⟨hbefore, ⟨hlock, hbehind⟩, hcross⟩ := hcompatible
    refine ⟨hbefore, ⟨fun other hother => hlock other hother, hbehind⟩, ?_⟩
    rintro a ha b hb
    rcases mem_cons.mp hb with rfl | hb
    · exact hcross a ha (path, lock) mem_cons_self
    · exact hcross a ha b (mem_cons_of_mem _ hb)
  · simpa using h.ids
  · rintro entry hentry
    rcases mem_append.mp hentry with hentry | hentry
    · exact h.named entry (mem_append_left _ hentry)
    · rcases mem_cons.mp hentry with rfl | hentry
      · exact h.named (path, lock) (mem_append_right _ mem_cons_self)
      · exact h.named entry (mem_append_right _ (mem_cons_of_mem _ hentry))

/-! ## Steps -/

section Steps

variable {config : Config} {store : LockStore} {call : LockCall}

theorem checkLock_eq_ok (h : call.checkLock config data info path = .ok ())
    (hentry : entry ∈ data.entries) (hexpires : call.checked < entry.2.expires)
    (hreaches : Reaches entry path) : call.conflicts info path entry = false := by
  rw [LockCall.checkLock] at h
  split at h
  · cases h
  · rename_i hfailed
    have hnone : (data.findLocks call.checked path true).filter (call.conflicts info path) = [] := by
      simpa using hfailed
    have hfound := mem_findLocks.mpr ⟨hentry, hexpires, hreaches⟩
    exact Bool.eq_false_iff.mpr (filter_eq_nil_iff.mp hnone entry hfound)

theorem readLocks_eq_ok {accountId : Nat} {collection : Collection}
    (h : call.readLocks config store accountId collection path = .ok data) :
    (store (accountId, collection.mainCollection) = some data ∨ data.entries = []) ∧
      ∀ info, call.request = .lock info → ∀ entry ∈ data.entries, call.checked < entry.2.expires →
        Reaches entry path → call.conflicts info path entry = false := by
  rw [LockCall.readLocks] at h
  cases hdata : store (accountId, collection.mainCollection) with
  | none =>
    have hempty : data.entries = [] := by
      cases hrequest : call.request with
      | unlock =>
        rw [hdata, hrequest] at h
        cases h
      | lock info | refresh =>
        rw [hdata, hrequest] at h
        obtain ⟨-, -, h⟩ := Fallible.bind_eq_ok.mp h
        cases h
        rfl
    refine ⟨Or.inr hempty, fun info _ entry hentry => ?_⟩
    rw [hempty] at hentry
    exact absurd hentry not_mem_nil
  | some table =>
    cases hrequest : call.request with
    | unlock | refresh =>
      rw [hdata, hrequest] at h
      obtain ⟨-, -, h⟩ := Fallible.bind_eq_ok.mp h
      cases h
      exact ⟨Or.inl rfl, fun info hinfo => (nomatch hinfo)⟩
    | lock info =>
      rw [hdata, hrequest] at h
      obtain ⟨-, -, h⟩ := Fallible.bind_eq_ok.mp h
      obtain ⟨_, hcheck, h⟩ := Fallible.bind_eq_ok.mp h
      cases h
      refine ⟨Or.inl rfl, fun info' hinfo entry hentry hexpires hreaches => ?_⟩
      cases hinfo
      exact checkLock_eq_ok hcheck hentry hexpires hreaches

theorem compatible_of_conflicts {lock : LockItem}
    (hconflicts : Reaches entry path → call.conflicts info path entry = false)
    (htoken : entry.2.lockId ≠ call.ifLockToken) (hexclusive : lock.exclusive = info.exclusive)
    (hinfinity : lock.depthInfinity = call.isInfinity) : Compatible (path, lock) entry := by
  rintro hone hoverlap
  have hreaches : Reaches entry path := by
    rcases hoverlap with hpath | ⟨-, habove⟩ | habove
    · exact Or.inl hpath.symm
    · exact Or.inr (Or.inr habove)
    · exact Or.inr (Or.inl habove)
  have hfalse := hconflicts hreaches
  have hlength : (entry.1.length == path.length ||
      entry.2.depthInfinity && decide (entry.1.length < path.length) ||
      call.isInfinity && decide (path.length < entry.1.length)) = true := by
    rcases hoverlap with hpath | ⟨hdepth, habove⟩ | ⟨hdepth, habove⟩
    · simp [show path = entry.1 from hpath]
    · rw [← hinfinity, show lock.depthInfinity = true from hdepth]
      simp [habove.length_lt]
    · rw [hdepth]
      simp [habove.length_lt]
  have hscope : (entry.2.exclusive || info.exclusive) = true := by
    rw [Bool.or_eq_true, ← hexclusive]
    exact hone.symm
  rw [LockCall.conflicts, hlength, hscope, Bool.and_true, Bool.and_true] at hfalse
  exact htoken (bne_eq_false_iff_eq.mp hfalse).symm

theorem writeLock_eq_ok {written : LockData} (hrequest : call.request = .lock info)
    (h : call.writeLock config data path = .ok written)
    (hids : (data.entries.map fun entry => entry.2.lockId).Nodup)
    (hnamed : ∀ entry ∈ data.entries, entry.2.lockId ≠ 0)
    (hplace : 0 < call.ifLockToken → ∀ entry ∈ data.entries,
      entry.2.lockId = call.ifLockToken → entry.1 = path) :
    ∃ others, written.entries.Perm ((path, call.write config .default) :: others) ∧
      others.Sublist data.entries ∧ ∀ other ∈ others, other.2.lockId ≠ call.ifLockToken := by
  rw [LockCall.writeLock] at h
  split at h
  · rename_i htoken
    split at h
    · rename_i changed hchanged
      cases h
      obtain ⟨before, place, lock, behind, hdata, hid, hwritten⟩ := entries_modify hchanged
      have hpath : place = path := hplace htoken (place, lock)
        (hdata ▸ mem_append_right _ mem_cons_self) hid
      have hwrite : call.write config lock = call.write config .default := by
        simp [LockCall.write, hrequest]
      refine ⟨before ++ behind, ?_, ?_, ?_⟩
      · rw [hwritten, hpath, hwrite]
        exact perm_middle
      · rw [hdata]
        exact List.Sublist.append_left (sublist_cons_self _ _) _
      · rintro other hother heq
        have hperm : (data.entries.map fun entry => entry.2.lockId).Perm
            (lock.lockId :: (before ++ behind).map fun entry => entry.2.lockId) := by
          rw [hdata]
          exact perm_middle.map _
        have hnot := (nodup_cons.mp (hperm.nodup_iff.mp hids)).1
        exact hnot (mem_map.mpr ⟨other, hother, heq.trans hid.symm⟩)
    · cases h
  · rename_i htoken
    cases h
    refine ⟨data.entries, entries_push _ _ _, List.Sublist.refl _, fun other hother heq => ?_⟩
    exact hnamed other hother (heq.trans (Nat.eq_zero_of_not_pos htoken))

theorem inv_written {accountId : Nat} {collection : Collection} {written : LockData} {time : Nat}
    (hproper : Proper config ⟨store, time⟩ call)
    (hresource : call.resource = .ok (accountId, collection, path))
    (hstore : ∀ key data, store key = some data → Inv data.entries)
    (hread : call.readLocks config store accountId collection path = .ok data)
    (hwrite : call.writeLocks config data path = .ok written) :
    Inv (written.removeExpired call.cleaned).entries := by
  obtain ⟨htable, hconflicts⟩ := readLocks_eq_ok hread
  have hinv : Inv data.entries := by
    rcases htable with htable | hempty
    · exact hstore _ data htable
    · rw [hempty]
      exact ⟨List.Pairwise.nil, nodup_nil, fun _ h => absurd h not_mem_nil⟩
  rw [entries_removeExpired]
  rw [LockCall.writeLocks] at hwrite
  cases hrequest : call.request with
  | unlock =>
    simp only [hrequest] at hwrite
    split at hwrite
    · cases hwrite
    · split at hwrite
      · rename_i left hleft
        cases hwrite
        exact (hinv.sublist (entries_removeLock hleft)).sublist filter_sublist
      · cases hwrite
  | refresh =>
    simp only [hrequest] at hwrite
    rw [LockCall.writeLock, if_pos (hproper.refresh hrequest)] at hwrite
    split at hwrite
    · rename_i changed hchanged
      cases hwrite
      obtain ⟨before, place, lock, behind, hdata, -, hwritten⟩ := entries_modify hchanged
      have hmoved : call.write config lock = { lock with expires := call.expires config } := by
        simp [LockCall.write, hrequest]
      rw [hdata] at hinv
      rw [hwritten, hmoved]
      exact (hinv.refresh _).sublist filter_sublist
    · cases hwrite
  | lock info =>
    simp only [hrequest] at hwrite
    split at hwrite
    · cases hwrite
    · rename_i changed hchanged
      split at hwrite
      · cases hwrite
      cases hwrite
      obtain ⟨hdrawn, hfresh⟩ := hproper.drawn info accountId collection path hrequest hresource
      have hplace : 0 < call.ifLockToken → ∀ entry ∈ data.entries,
          entry.2.lockId = call.ifLockToken → entry.1 = path := by
        rintro htoken entry hentry
        rcases htable with htable | hempty
        · exact hproper.relock info accountId collection path data hrequest hresource htable htoken
            entry hentry
        · rw [hempty] at hentry
          exact absurd hentry not_mem_nil
      obtain ⟨others, hperm, hsublist, htoken⟩ :=
        writeLock_eq_ok hrequest hchanged hinv.ids hinv.named hplace
      have hnew : call.write config .default =
          ⟨call.drawn config, call.accountId, call.expires config, call.isInfinity, info.exclusive,
            info.owner⟩ := by
        simp only [LockCall.write, hrequest]
        rfl
      rw [hnew] at hperm
      have hleft : Inv ((path, ⟨call.drawn config, call.accountId, call.expires config,
          call.isInfinity, info.exclusive, info.owner⟩) ::
            others.filter fun entry => decide (call.cleaned < entry.2.expires)) := by
        refine (hinv.sublist (filter_sublist.trans hsublist)).cons ?_ ?_ hdrawn
        · -- what has not expired by the end had not expired when it was checked
          rintro other hother
          obtain ⟨hother, hexpires⟩ := mem_filter.mp hother
          have hchecked : call.checked < other.2.expires :=
            lt_of_le_of_lt (call.ordered.1.trans call.ordered.2) (of_decide_eq_true hexpires)
          exact compatible_of_conflicts (hconflicts info hrequest other (hsublist.subset hother)
            hchecked) (htoken other hother) rfl rfl
        · rintro other hother
          have hentry := hsublist.subset (mem_filter.mp hother).1
          rcases htable with htable | hempty
          · exact hfresh data htable other hentry
          · rw [hempty] at hentry
            exact absurd hentry not_mem_nil
      refine (hleft.sublist ?_).perm (hperm.filter _).symm
      rw [filter_cons]
      split
      · exact List.Sublist.refl _
      · exact sublist_cons_self _ _

def Tables.Inv (tables : Tables) : Prop := ∀ key data, tables.store key = some data → Lock.Inv data.entries

theorem inv_step {tables next : Tables} (h : tables.Inv) (hproper : Proper config tables call)
    (hstep : tables.step config call = some next) : next.Inv := by
  rw [Tables.step] at hstep
  split at hstep
  · split at hstep
    · rename_i store' hstore
      cases hstep
      obtain ⟨⟨accountId, collection, path⟩, hresource, hstore⟩ := Fallible.bind_eq_ok.mp hstore
      obtain ⟨data, hread, hstore⟩ := Fallible.bind_eq_ok.mp hstore
      obtain ⟨written, hwrite, hstore⟩ := Fallible.bind_eq_ok.mp hstore
      cases hstore
      rintro key table htable
      by_cases hkey : key = (accountId, collection.mainCollection)
      · subst hkey
        simp only [Function.update_self] at htable
        split at htable
        · cases htable
        · cases htable
          exact inv_written hproper hresource h hread hwrite
      · simp only [Function.update_of_ne hkey] at htable
        exact h key table htable
    · cases hstep
      exact h
  · cases hstep

end Steps

/-- In every run of proper requests, no exclusive lock stands beside a lock that it overlaps. -/
theorem locks_compatible (config : Config) (calls : List LockCall) (tables : Tables)
    (hproper : Runs.Along (Tables.step config) (Proper config) ⟨fun _ => none, 0⟩ calls)
    (hrun : Runs.run (Tables.step config) ⟨fun _ => none, 0⟩ calls = some tables) (key : LockKey)
    (data : LockData) (hdata : tables.store key = some data) (now : Nat) :
    data.entries.Pairwise fun a b => ¬ Conflict now a b := by
  have hinv : tables.Inv := Runs.run_invariant Tables.Inv
    (fun _ _ _ h hcond hstep => inv_step h hcond hstep) hproper (fun _ _ h => (nomatch h)) hrun
  refine (hinv key data hdata).compatible.imp ?_
  rintro a b hcompatible ⟨-, -, hexclusive, hoverlap⟩
  exact hcompatible hexclusive hoverlap

/-! ## Examples -/

/-- A request of account 1 for one of its files, at one point in time. -/
def fileCall (path : Char) (request : LockRequest) (if_ : List If) (now : Nat) : LockCall where
  env := ⟨fun _ => none, fun _ _ => false, fun _ _ _ => none, fun _ _ _ => none, fun _ _ => 0⟩
  headers := ⟨none, .none, .none, none, false, if_⟩
  request
  accountId := 1
  resource := .ok (1, .fileNode, [path])
  random := 0
  checked := now
  now
  cleaned := now
  ordered := ⟨le_refl _, le_refl _⟩

def lockConfig : Config := ⟨none, 0, 100⟩

/-- The locks of the files of account 1 after some requests. The lock of a request at time `t` has the
id `100 + t`. -/
def lockedFiles (calls : List LockCall) : Option (List (Text × LockItem)) :=
  ((Runs.run (Tables.step lockConfig) ⟨fun _ => none, 0⟩ calls).bind
    fun tables => tables.store (1, .fileNode)).map LockData.entries

theorem proper_lock {tables : Tables} {path : Char} {if_ : List If} {now : Nat}
    (hplace : ∀ data, tables.store (1, .fileNode) = some data → ∀ entry ∈ data.entries,
      (0 < (fileCall path (.lock info) if_ now).ifLockToken →
        entry.2.lockId = (fileCall path (.lock info) if_ now).ifLockToken → entry.1 = [path]) ∧
      entry.2.lockId ≠ 0 ^^^ (now + 100)) (hnow : 0 ^^^ (now + 100) ≠ 0) :
    Proper lockConfig tables (fileCall path (.lock info) if_ now) := by
  refine ⟨fun h => (nomatch h), ?_, ?_⟩
  · rintro info' accountId collection path' data - hresource hdata htoken entry hentry hid
    cases hresource
    exact (hplace data hdata entry hentry).1 htoken hid
  · rintro info' accountId collection path' - hresource
    cases hresource
    exact ⟨hnow, fun data hdata entry hentry => (hplace data hdata entry hentry).2⟩

/-- Exclusive locks on two files; the first is refreshed, and then replaced. -/
def properCalls : List LockCall :=
  [fileCall 'a' (.lock ⟨true, none⟩) [] 1, fileCall 'b' (.lock ⟨true, none⟩) [] 2,
    fileCall 'a' .refresh [⟨none, [.stateToken false (lockUrn 101)]⟩] 3,
    fileCall 'a' (.lock ⟨true, none⟩) [⟨none, [.stateToken false (lockUrn 101)]⟩] 4]

theorem locks_compatible_properCalls :
    ∃ tables data, Runs.run (Tables.step lockConfig) ⟨fun _ => none, 0⟩ properCalls = some tables ∧
      tables.store (1, .fileNode) = some data ∧
      data.entries.map (fun entry => (entry.1, entry.2.lockId)) = [(['a'], 104), (['b'], 102)] ∧
      data.entries.Pairwise fun a b => ¬ Conflict 5 a b := by
  refine ⟨_, _, rfl, rfl, by decide, ?_⟩
  refine locks_compatible lockConfig properCalls _ ?_ rfl (1, .fileNode) _ rfl 5
  refine ⟨proper_lock (fun _ hdata => (nomatch hdata)) (by decide), fun _ hnext => ?_⟩
  cases hnext
  refine ⟨proper_lock ?_ (by decide), fun _ hnext => ?_⟩
  · rintro data hdata
    cases hdata
    decide
  cases hnext
  refine ⟨⟨fun _ => by decide, fun _ _ _ _ _ h => (nomatch h), fun _ _ _ _ h => (nomatch h)⟩,
    fun _ hnext => ?_⟩
  cases hnext
  refine ⟨proper_lock ?_ (by decide), fun _ _ => trivial⟩
  rintro data hdata
  cases hdata
  decide

/-- Two shared locks on a file, and a third request for another file, that has the token of the first
in a negated condition. -/
def relockElsewhere : List LockCall :=
  [fileCall 'a' (.lock ⟨false, none⟩) [] 1, fileCall 'a' (.lock ⟨false, none⟩) [] 2,
    fileCall 'b' (.lock ⟨true, none⟩) [⟨none, [.stateToken true (lockUrn 101)]⟩] 3]

def refreshWithoutToken : List LockCall :=
  [fileCall 'a' (.lock ⟨true, none⟩) [] 1, fileCall 'a' .refresh [] 2]

theorem locks_not_compatible :
    (∃ locks, lockedFiles relockElsewhere = some locks ∧
      ¬ locks.Pairwise fun a b => ¬ Conflict 3 a b) ∧
    ∃ locks, lockedFiles refreshWithoutToken = some locks ∧
      ¬ locks.Pairwise fun a b => ¬ Conflict 3 a b := by
  refine ⟨⟨_, rfl, ?_⟩, ⟨_, rfl, ?_⟩⟩ <;> decide

end Bearmail.Dav.Lock
