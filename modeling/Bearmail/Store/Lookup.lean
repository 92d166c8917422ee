import Bearmail.Lib.Runs
import Bearmail.Store.Transaction

/-!
# Locks on a key

`try_lock` and `remove_lock` of `store/src/dispatch/lookup.rs`, for any nodes and one key.
A call reads the key, looks at the clock and writes the new expiry in a batch that
asserts what was read; other nodes and the clock may go on in between. A removal deletes
the key without looking at it.

The invariant `Fresh` ties a lease that has not run out to the value of the key:
`locks_exclusive`, as long as no node that overran its lease removes the key from another.
-/

namespace Bearmail.Store

open Option Function

/-- What a call to `try_lock` has found so far. -/
inductive LockCall where
  | idle
  | corrupted (duration : UInt64)
  | read (lockExpiry : Option UInt64) (duration : UInt64)
  | batch (assert : AssertValue) (expiry : UInt64)
  deriving DecidableEq

/-- The value of the key, the clock, the calls of the nodes and the expiry of each lock that
`try_lock` has returned `true` for and that was not removed by its node. -/
structure LockState (ν : Type) where
  stored : Option (List UInt8)
  now : UInt64
  calls : ν → LockCall
  leases : ν → Option UInt64

inductive LockStep (ν : Type) where
  | get (node : ν) (duration : UInt64)
  | clear (node : ν)
  | check (node : ν)
  | write (node : ν)
  | remove (node : ν)
  | tick (time : UInt64)
  deriving DecidableEq

def deserializeU64 (bytes : List UInt8) : Option UInt64 :=
  if bytes.length = 8 then some (UInt64.ofNat (BigEndian.ofBytes bytes)) else none

/-- What `get_value` finds. A value that is no number is removed first. -/
def LockCall.found (stored : Option (List UInt8)) (duration : UInt64) : LockCall :=
  match stored with
  | none => .read none duration
  | some bytes =>
    match deserializeU64 bytes with
    | some lockExpiry => .read (some lockExpiry) duration
    | none => .corrupted duration

/-- Whether a lock that expires then is held by another. -/
def isLocked (now : UInt64) (lockExpiry : Option UInt64) : Bool :=
  lockExpiry.any fun expiry => now < expiry

def lockAssertion : Option UInt64 → AssertValue
  | some value => .u64 value
  | none => .none

namespace LockState

variable {ν : Type} (xxh3 : List UInt8 → UInt64)

/-- Whether the batch of a node is written: its call returns `true` then. -/
def locks (s : LockState ν) (node : ν) : Bool :=
  match s.calls node with
  | .batch assert _ => s.stored.elim assert.isNone fun bytes => assert.matchesBytes xxh3 bytes
  | _ => false

/-- A lease that has not run out and was not removed by its node. -/
def Holds (s : LockState ν) (node : ν) : Prop :=
  ∃ expiry, s.leases node = some expiry ∧ s.now < expiry

/-- No calls, no leases, and nothing but an expiry in the key. -/
structure Initial (s : LockState ν) : Prop where
  stored : ∀ bytes ∈ s.stored, bytes.length = 8
  calls : ∀ node, s.calls node = .idle
  leases : ∀ node, s.leases node = none

/-- A node whose lease has run out does not remove the key while another holds the lock. -/
def SafeRemoval (s : LockState ν) : LockStep ν → Prop
  | .remove node => s.Holds node ∨ ∀ other, other ≠ node → ¬ s.Holds other
  | _ => True

section Steps

variable [DecidableEq ν]

def setCall (s : LockState ν) (node : ν) (call : LockCall) : LockState ν :=
  { s with calls := Function.update s.calls node call }

def grant (s : LockState ν) (node : ν) (expiry : UInt64) : LockState ν :=
  { s.setCall node .idle with
    stored := some (be64 expiry)
    leases := Function.update s.leases node (some expiry) }

def removeLock (s : LockState ν) (node : ν) : LockState ν :=
  { s with stored := none, leases := Function.update s.leases node none }

def step (s : LockState ν) : LockStep ν → Option (LockState ν)
  | .get node duration =>
    match s.calls node with
    | .idle => some (s.setCall node (.found s.stored duration))
    | _ => none
  | .clear node =>
    match s.calls node with
    | .corrupted duration => some { s.setCall node (.read none duration) with stored := none }
    | _ => none
  | .check node =>
    match s.calls node with
    | .read lockExpiry duration =>
      if isLocked s.now lockExpiry then some (s.setCall node .idle)
      else some (s.setCall node (.batch (lockAssertion lockExpiry) (s.now + duration)))
    | _ => none
  | .write node =>
    match s.calls node with
    | .batch _ expiry =>
      if s.locks xxh3 node then some (s.grant node expiry) else some (s.setCall node .idle)
    | _ => none
  | .remove node =>
    -- only a node that was given the lock calls `remove_lock`
    match s.leases node with
    | some _ => some (s.removeLock node)
    | none => none
  | .tick time => if s.now ≤ time then some { s with now := time } else none

end Steps

/-! ## What is known between steps -/

/-- A batch asserts that there is no lock or one that has expired. -/
def Expired (now : UInt64) : AssertValue → Prop
  | .u64 expiry => expiry ≤ now
  | assert => assert = .none

def CallFresh (now : UInt64) : LockCall → Prop
  | .corrupted _ => False
  | .batch assert _ => Expired now assert
  | _ => True

structure Fresh (s : LockState ν) : Prop where
  stored : ∀ bytes ∈ s.stored, bytes.length = 8
  calls : ∀ node, CallFresh s.now (s.calls node)
  lease : ∀ node expiry, s.leases node = some expiry → s.now < expiry → s.stored = some (be64 expiry)
  unique : ∀ node other, s.Holds node → s.Holds other → node = other

variable {xxh3} {s s' : LockState ν}

theorem Initial.fresh (h : s.Initial) : s.Fresh where
  stored := h.stored
  calls node := by rw [h.calls node]; trivial
  lease node expiry hlease := by
    rw [h.leases node] at hlease
    cases hlease
  unique node other hnode := by
    obtain ⟨expiry, hlease, _⟩ := hnode
    rw [h.leases node] at hlease
    cases hlease

theorem matchesBytes_u64 {value expiry : UInt64}
    (h : (AssertValue.u64 value).matchesBytes xxh3 (be64 expiry) = true) : value = expiry := by
  have hlast : lastBytes (be64 expiry) 8 0 = some (be64 expiry) := by
    have hlength := length_be64 expiry
    exact congrArg some (List.take_of_length_le hlength.le)
  rw [AssertValue.matchesBytes, hlast, decide_eq_true_iff, some_inj, be64_inj] at h
  exact h.symm

theorem exists_batch {node : ν} (h : s.locks xxh3 node = true) :
    ∃ assert expiry, s.calls node = .batch assert expiry ∧
      (s.stored.elim assert.isNone fun bytes => assert.matchesBytes xxh3 bytes) = true := by
  unfold locks at h
  split at h
  · rename_i assert expiry hcall
    exact ⟨assert, expiry, hcall, h⟩
  · cases h

theorem Fresh.not_holds (h : s.Fresh) {node : ν} (hlocks : s.locks xxh3 node = true) (other : ν) :
    ¬ s.Holds other := by
  rintro ⟨expiry, hlease, hnow⟩
  obtain ⟨assert, _, hcall, hassert⟩ := exists_batch hlocks
  have hfresh := h.calls node
  rw [hcall] at hfresh
  rw [h.lease other expiry hlease hnow, elim_some] at hassert
  cases assert with
  | u64 value =>
    obtain rfl := matchesBytes_u64 hassert
    exact absurd hnow (UInt64.not_lt.mpr hfresh)
  | none => cases hassert
  | u32 | hash | archive | some => cases hfresh

theorem Fresh.found (h : s.Fresh) (duration : UInt64) : CallFresh s.now (.found s.stored duration) := by
  unfold LockCall.found
  split
  · trivial
  · rename_i bytes hstored
    rw [deserializeU64, if_pos (h.stored bytes hstored)]
    trivial

theorem expired_lockAssertion {now : UInt64} {lockExpiry : Option UInt64}
    (h : ¬ isLocked now lockExpiry = true) : Expired now (lockAssertion lockExpiry) := by
  cases lockExpiry with
  | none => rfl
  | some expiry =>
    rw [isLocked, any_some, decide_eq_true_iff] at h
    exact UInt64.not_lt.mp h

theorem Expired.mono {now time : UInt64} (hle : now ≤ time) {assert : AssertValue}
    (h : Expired now assert) : Expired time assert := by
  cases assert with
  | u64 expiry => exact UInt64.le_trans h hle
  | u32 | hash | archive | none | some => exact h

theorem CallFresh.mono {now time : UInt64} (hle : now ≤ time) {call : LockCall}
    (h : CallFresh now call) : CallFresh time call := by
  cases call with
  | batch assert expiry => exact Expired.mono hle h
  | idle | corrupted | read => exact h

theorem Fresh.tick (h : s.Fresh) {time : UInt64} (hle : s.now ≤ time) :
    Fresh { s with now := time } where
  stored := h.stored
  calls node := (h.calls node).mono hle
  lease node expiry hlease hnow := h.lease node expiry hlease (UInt64.lt_of_le_of_lt hle hnow)
  unique := by
    have hholds {node : ν} (hnode : Holds { s with now := time } node) : s.Holds node := by
      obtain ⟨expiry, hlease, hnow⟩ := hnode
      exact ⟨expiry, hlease, UInt64.lt_of_le_of_lt hle hnow⟩
    exact fun node other hnode hother => h.unique node other (hholds hnode) (hholds hother)

variable [DecidableEq ν]

theorem Fresh.setCall (h : s.Fresh) (node : ν) {call : LockCall} (hcall : CallFresh s.now call) :
    (s.setCall node call).Fresh where
  stored := h.stored
  calls other := by
    show CallFresh s.now (Function.update s.calls node call other)
    by_cases heq : other = node
    · rw [heq, update_self]
      exact hcall
    · rw [update_of_ne heq]
      exact h.calls other
  lease := h.lease
  unique := h.unique

theorem grant_leases (s : LockState ν) (node : ν) (expiry : UInt64) :
    (s.grant node expiry).leases = Function.update s.leases node (some expiry) := rfl

theorem removeLock_leases (s : LockState ν) (node : ν) :
    (s.removeLock node).leases = Function.update s.leases node none := rfl

theorem Fresh.grant (h : s.Fresh) {node : ν} (hlocks : s.locks xxh3 node = true)
    (expiry : UInt64) : (s.grant node expiry).Fresh := by
  have hother {other : ν} (heq : other ≠ node) : ¬ (s.grant node expiry).Holds other := by
    rintro ⟨expiry', hlease, hnow⟩
    rw [grant_leases, update_of_ne heq] at hlease
    exact h.not_holds hlocks other ⟨expiry', hlease, hnow⟩
  have hnode {other : ν} (hholds : (s.grant node expiry).Holds other) : other = node := by
    by_contra heq
    exact hother heq hholds
  have hidle : CallFresh s.now .idle := trivial
  refine ⟨?_, (h.setCall node hidle).calls, ?_, ?_⟩
  · rintro bytes ⟨⟩
    exact length_be64 expiry
  · intro other expiry' hlease hnow
    obtain rfl := hnode ⟨expiry', hlease, hnow⟩
    rw [grant_leases, update_self, some_inj] at hlease
    rw [← hlease]
    rfl
  · intro other other' hholds hholds'
    rw [hnode hholds, hnode hholds']

theorem Fresh.removeLock (h : s.Fresh) {node : ν} (hsafe : s.SafeRemoval (.remove node)) :
    (s.removeLock node).Fresh := by
  have hnot (other : ν) : ¬ (s.removeLock node).Holds other := by
    rintro ⟨expiry, hlease, hnow⟩
    rw [removeLock_leases] at hlease
    by_cases heq : other = node
    · rw [heq, update_self] at hlease
      cases hlease
    · rw [update_of_ne heq] at hlease
      rcases hsafe with hholds | hsafe
      · exact heq (h.unique other node ⟨expiry, hlease, hnow⟩ hholds)
      · exact hsafe other heq ⟨expiry, hlease, hnow⟩
  exact {
    stored := nofun
    calls := h.calls
    lease := fun other expiry hlease hnow => absurd ⟨expiry, hlease, hnow⟩ (hnot other)
    unique := fun other _ hholds => absurd hholds (hnot other) }

theorem fresh_of_step (l : LockStep ν) (h : s.Fresh) (hsafe : s.SafeRemoval l)
    (hstep : s.step xxh3 l = some s') : s'.Fresh := by
  cases l with
  | get node duration =>
    simp only [step] at hstep
    split at hstep <;> cases hstep
    exact h.setCall node (h.found duration)
  | clear node =>
    -- no value was ever corrupted
    have hcall := h.calls node
    simp only [step] at hstep
    split at hstep
    · rename_i hcorrupted
      rw [hcorrupted] at hcall
      exact hcall.elim
    · cases hstep
  | check node =>
    simp only [step] at hstep
    split at hstep
    · split at hstep <;> cases hstep
      · exact h.setCall node trivial
      · rename_i hlocked
        exact h.setCall node (expired_lockAssertion hlocked)
    · cases hstep
  | write node =>
    simp only [step] at hstep
    split at hstep
    · split at hstep <;> cases hstep
      · rename_i hlocks
        exact h.grant hlocks _
      · exact h.setCall node trivial
    · cases hstep
  | remove node =>
    simp only [step] at hstep
    split at hstep <;> cases hstep
    exact h.removeLock hsafe
  | tick time =>
    simp only [step] at hstep
    split at hstep <;> cases hstep
    rename_i hle
    exact h.tick hle

theorem fresh_of_run {ls : List (LockStep ν)} (hinitial : s.Initial)
    (halong : Runs.Along (step xxh3) SafeRemoval s ls)
    (hrun : Runs.run (step xxh3) s ls = some s') : s'.Fresh :=
  Runs.run_invariant Fresh (fun _ l _ h hsafe hstep => fresh_of_step l h hsafe hstep) halong
    hinitial.fresh hrun

def unlocked : LockState Nat := ⟨none, 100, fun _ => .idle, fun _ => none⟩

theorem unlocked_initial : unlocked.Initial := ⟨nofun, fun _ => rfl, fun _ => rfl⟩

end LockState

end Bearmail.Store
