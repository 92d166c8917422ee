import Bearmail.Dav.LockTable

/-!
# Locks and writes

A write needs the tokens of the locks on what it changes. The loop of `validate_headers` ends at the
first lock whose token stands in an If header, negated or not: the other locks on that resource, and
the resources behind it, are not looked at. So one token is enough for all of them, and a write goes
through against an exclusive lock exactly when there is such a token and the token of the exclusive
lock is not submitted.
-/

namespace Bearmail.Dav.Lock

open List

variable {resource : ResourceState} {entry : Text × LockItem}

section Submitted

variable (env : Environment) (store : LockStore) (now : Nat) (headers : RequestHeaders)
  (method : DavMethod) (resources : List ResourceState)

/-- The resources that a request changes: all but the source of a COPY. -/
def changed : List ResourceState := if method = .COPY then resources.tail else resources

/-- An unexpired lock that covers a resource, or something below it. -/
def LockedBy (resource : ResourceState) (entry : Text × LockItem) : Prop :=
  ∃ data, store resource.lockKey = some data ∧ entry ∈ data.entries ∧ now < entry.2.expires ∧
    Reaches entry resource.path

/-- The token of a lock stands in a condition that is not negated. -/
def Presented (lock : LockItem) : Prop :=
  ∃ if_ ∈ headers.if_, Condition.stateToken false lock.urn ∈ if_.list

/-- The tokens of all exclusive locks on what is changed are presented. -/
def Protected : Prop :=
  ∀ resource ∈ changed method resources, ∀ entry, LockedBy store now resource entry →
    entry.2.exclusive = true → Presented headers entry.2

/-- A lock on the first locked resource, the token of which stands in an If header for its path. -/
def Taken (list : List ResourceState) (entry : Text × LockItem) : Prop :=
  ∃ before resource behind, list = before ++ resource :: behind ∧
    (∀ other ∈ before, ∀ lock, ¬ LockedBy store now other lock) ∧
    LockedBy store now resource entry ∧ submitted headers entry.1 entry.2 = true

/-- An exclusive lock on what is changed, the token of which is not presented. -/
def LeftOut (entry : Text × LockItem) : Prop :=
  (∃ resource ∈ changed method resources, LockedBy store now resource entry) ∧
    entry.2.exclusive = true ∧ ¬ Presented headers entry.2

variable {env store now headers method resources}

theorem lockedBy_iff {data : LockData} (hdata : store resource.lockKey = some data) :
    LockedBy store now resource entry ↔ entry ∈ data.findLocks now resource.path true := by
  rw [mem_findLocks, LockedBy, hdata]
  simp

theorem not_lockedBy (hdata : store resource.lockKey = none) (entry : Text × LockItem) :
    ¬ LockedBy store now resource entry := by
  rintro ⟨data, hsome, -⟩
  exact (nomatch hdata.symm.trans hsome)

theorem taken_cons_of_free {rest : List ResourceState}
    (hfree : ∀ lock, ¬ LockedBy store now resource lock) :
    Taken store now headers (resource :: rest) entry ↔ Taken store now headers rest entry := by
  constructor
  · rintro ⟨before, first, behind, heq, hbefore, hlocked, hsubmitted⟩
    cases before with
    | nil =>
      cases heq
      exact absurd hlocked (hfree entry)
    | cons other before =>
      obtain ⟨-, heq⟩ := cons_eq_cons.mp heq
      exact ⟨before, first, behind, heq,
        fun other hother => hbefore other (mem_cons_of_mem _ hother), hlocked, hsubmitted⟩
  · rintro ⟨before, first, behind, rfl, hbefore, hlocked, hsubmitted⟩
    refine ⟨resource :: before, first, behind, rfl, ?_, hlocked, hsubmitted⟩
    rintro other hother
    rcases mem_cons.mp hother with rfl | hother
    · exact hfree
    · exact hbefore other hother

attribute [local simp] checkLocks

/-- The loop lets a request through when nothing is locked, or when there is a token for the first
locked resource. -/
theorem checkLocks_eq_ok_iff (list : List ResourceState) (position : Nat)
    (hposition : ¬ (position = 0 ∧ method = .COPY)) :
    checkLocks store now headers method position list = .ok () ↔
      (∀ resource ∈ list, ∀ entry, ¬ LockedBy store now resource entry) ∨
        ∃ entry, Taken store now headers list entry := by
  induction list generalizing position with
  | nil => simp [checkLocks]
  | cons resource rest ih =>
    have hnext := ih (position + 1) (by simp)
    rw [checkLocks, if_neg hposition]
    cases hdata : store resource.lockKey with
    | none =>
      have hfree : ∀ lock, ¬ LockedBy store now resource lock := not_lockedBy hdata
      simp only [hnext, forall_mem_cons, taken_cons_of_free hfree, hfree,
        not_false_eq_true, implies_true, true_and]
    | some data =>
      dsimp only
      split
      · rename_i hany
        obtain ⟨entry, hentry, hsubmitted⟩ := any_eq_true.mp hany
        refine iff_of_true rfl (Or.inr ⟨entry, [], resource, rest, rfl, ?_,
          (lockedBy_iff hdata).mpr hentry, hsubmitted⟩)
        exact fun _ h => absurd h not_mem_nil
      · rename_i hany
        split
        · rename_i hempty
          have hnone : data.findLocks now resource.path true = [] := List.isEmpty_iff.mp hempty
          have hfree : ∀ lock, ¬ LockedBy store now resource lock := by
            rintro lock hlock
            rw [lockedBy_iff hdata, hnone] at hlock
            exact absurd hlock not_mem_nil
          simp only [hnext, forall_mem_cons, taken_cons_of_free hfree, hfree,
            not_false_eq_true, implies_true, true_and]
        · rename_i hempty
          obtain ⟨lock, hlock⟩ := exists_mem_of_ne_nil _ (fun h => hempty (List.isEmpty_iff.mpr h))
          have hlocked : LockedBy store now resource lock := (lockedBy_iff hdata).mpr hlock
          refine iff_of_false (fun h => (nomatch h)) ?_
          rintro (hfree | ⟨entry, before, first, behind, heq, hbefore, hentry, hsubmitted⟩)
          · exact hfree resource mem_cons_self lock hlocked
          · cases before with
            | nil =>
              cases heq
              exact hany (any_eq_true.mpr ⟨entry, (lockedBy_iff hdata).mp hentry, hsubmitted⟩)
            | cons other before =>
              obtain ⟨rfl, -⟩ := cons_eq_cons.mp heq
              exact hbefore resource mem_cons_self lock hlocked

def DavMethod.IsWrite (method : DavMethod) : Prop :=
  ¬ (method = .GET ∨ method = .HEAD ∨ method = .LOCK ∨ method = .UNLOCK)

theorem lockResponse_eq_ok_iff (hwrite : method.IsWrite) :
    lockResponse store now headers method resources = .ok () ↔
      (∀ resource ∈ changed method resources, ∀ entry, ¬ LockedBy store now resource entry) ∨
        ∃ entry, Taken store now headers (changed method resources) entry := by
  rw [lockResponse, if_neg hwrite, changed]
  by_cases hcopy : method = .COPY
  · rw [if_pos hcopy]
    cases resources with
    | nil => simp [checkLocks]
    | cons source rest =>
      rw [checkLocks, if_pos ⟨rfl, hcopy⟩]
      exact checkLocks_eq_ok_iff rest 1 (by simp)
  · rw [if_neg hcopy]
    exact checkLocks_eq_ok_iff resources 0 (fun h => hcopy h.2)

theorem if_ne_nil_of_taken {list : List ResourceState} (h : Taken store now headers list entry) :
    headers.if_.isEmpty = false := by
  obtain ⟨-, -, -, -, -, -, hsubmitted⟩ := h
  obtain ⟨if_, hif, -⟩ := any_eq_true.mp hsubmitted
  cases hheaders : headers.if_ with
  | nil =>
    rw [hheaders] at hif
    exact absurd hif not_mem_nil
  | cons first rest => rfl

theorem validateHeaders_of_write (hwrite : method.IsWrite) :
    validateHeaders env store now headers method resources = .ok () ↔
      overwriteRefused headers method resources = false ∧
        lockResponse store now headers method resources = .ok () ∧
        (headers.if_.isEmpty = true ∨ evaluate env store now resources headers.if_ = true) := by
  have hget : ¬ ((method = .GET ∨ method = .HEAD) ∧ headers.if_.isEmpty = true) := by
    rintro ⟨hget | hhead, -⟩
    · exact hwrite (Or.inl hget)
    · exact hwrite (Or.inr (Or.inl hhead))
  rw [validateHeaders, if_neg hget]
  cases overwriteRefused headers method resources with
  | true => simp
  | false =>
    cases headers.if_.isEmpty with
    | true => simp
    | false =>
      cases evaluate env store now resources headers.if_ with
      | true => simp
      | false =>
        simp only [Bool.false_eq_true, if_false, or_self, and_false, iff_false]
        split <;> exact fun h => (nomatch h)

variable (env store now headers resources)

/-- A write that is let through has presented the tokens of all exclusive locks on what it changes,
unless there are two locks (or one, whose token is negated): the token of the first is taken for the
first locked resource, and the second is left out. -/
theorem writes_protected_iff (hwrite : method.IsWrite) :
    (validateHeaders env store now headers method resources = .ok () →
        Protected store now headers method resources) ↔
      (overwriteRefused headers method resources = true ∨
        evaluate env store now resources headers.if_ = false ∨
        ∀ taken skipped, Taken store now headers (changed method resources) taken →
          ¬ LeftOut store now headers method resources skipped) := by
  rw [validateHeaders_of_write hwrite, lockResponse_eq_ok_iff hwrite]
  constructor
  · rintro h
    by_contra hnot
    push Not at hnot
    obtain ⟨hrefused, hheaders, taken, skipped, htaken, ⟨resource, hresource, hlocked⟩, hexclusive,
      hpresented⟩ := hnot
    have hprotected := h ⟨Bool.eq_false_iff.mpr hrefused, Or.inr ⟨taken, htaken⟩,
      Or.inr (Bool.not_eq_false _ ▸ hheaders)⟩
    exact hpresented (hprotected resource hresource skipped hlocked hexclusive)
  · rintro h ⟨hrefused, hlocks, hheaders⟩ resource hresource entry hlocked hexclusive
    rcases hlocks with hfree | ⟨taken, htaken⟩
    · exact absurd hlocked (hfree resource hresource entry)
    · by_contra hpresented
      rcases h with h | h | h
      · exact (nomatch hrefused.symm.trans h)
      · rcases hheaders with hempty | hholds
        · exact (nomatch hempty.symm.trans (if_ne_nil_of_taken htaken))
        · exact (nomatch hholds.symm.trans h)
      · exact h taken entry htaken ⟨⟨resource, hresource, hlocked⟩, hexclusive, hpresented⟩

end Submitted

/-! ## Examples -/

instance (headers : RequestHeaders) (lock : LockItem) : Decidable (Presented headers lock) :=
  inferInstanceAs (Decidable (∃ if_ ∈ headers.if_, _))

def exclusiveLock (lockId : Nat) : LockItem := ⟨lockId, 1, 100, false, true, none⟩

def threeLocks : LockStore
  | (1, .fileNode) =>
    some ⟨[(['a'], [exclusiveLock 1]), (['b'], [exclusiveLock 2]), (['c', '/', 'd'], [exclusiveLock 3])],
      by decide⟩
  | _ => none

def noLookups : Environment :=
  ⟨fun _ => none, fun _ _ => false, fun _ _ _ => none, fun _ _ _ => none, fun _ _ => 0⟩

def oneToken (isNot : Bool) (lockId : Nat) : RequestHeaders :=
  ⟨none, .none, .none, none, false, [⟨none, [.stateToken isNot (lockUrn lockId)]⟩]⟩

def file (path : Text) : ResourceState := .ofPlace 1 .fileNode path

/-- A PUT with the token of the lock. -/
theorem writes_protected_put :
    validateHeaders noLookups threeLocks 5 (oneToken false 1) .PUT [file ['a']] = .ok () ∧
      Protected threeLocks 5 (oneToken false 1) .PUT [file ['a']] := by
  have hok : validateHeaders noLookups threeLocks 5 (oneToken false 1) .PUT [file ['a']] = .ok () := by
    decide
  refine ⟨hok, (writes_protected_iff noLookups threeLocks 5 (oneToken false 1) [file ['a']]
    (by simp [DavMethod.IsWrite])).mpr (Or.inr (Or.inr ?_)) hok⟩
  rintro taken skipped - ⟨⟨resource, hresource, hlocked⟩, -, hpresented⟩
  cases mem_singleton.mp hresource
  rw [lockedBy_iff rfl] at hlocked
  revert hpresented
  revert skipped
  decide

/-- A MOVE with the token of its source, and not that of its destination; and a DELETE of a folder
with the negated token of a file in it. -/
theorem writes_not_protected :
    (validateHeaders noLookups threeLocks 5 (oneToken false 1) .MOVE [file ['a'], file ['b']] =
        .ok () ∧
      ¬ Protected threeLocks 5 (oneToken false 1) .MOVE [file ['a'], file ['b']]) ∧
    validateHeaders noLookups threeLocks 5 (oneToken true 3) .DELETE [file ['c']] = .ok () ∧
      ¬ Protected threeLocks 5 (oneToken true 3) .DELETE [file ['c']] := by
  refine ⟨⟨by decide, fun h => ?_⟩, by decide, fun h => ?_⟩
  · have hlocked : LockedBy threeLocks 5 (file ['b']) (['b'], exclusiveLock 2) :=
      (lockedBy_iff rfl).mpr (by decide)
    have hpresented := h (file ['b']) (by simp [changed]) _ hlocked rfl
    revert hpresented
    decide
  · have hlocked : LockedBy threeLocks 5 (file ['c']) (['c', '/', 'd'], exclusiveLock 3) :=
      (lockedBy_iff rfl).mpr (by decide)
    have hpresented := h (file ['c']) (by simp [changed]) _ hlocked rfl
    revert hpresented
    decide

end Bearmail.Dav.Lock
