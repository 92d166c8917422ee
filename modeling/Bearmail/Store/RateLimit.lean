import Bearmail.Lib.Runs
import Bearmail.Store.ValueClass

/-!
# Rate limits

`is_rate_allowed` with `counter_incr`, `counter_get` and `purge_in_memory_store` of
`store/src/dispatch/lookup.rs`, for any clients and purge runs over one key and one rate.
A call looks at the clock, names its bucket, looks at the clock again for the expiry and
adds to the counter in one batch. A purge run looks at the clock once, goes through the
keys and deletes what had expired in later batches, which check nothing.

Periods are `u64` milliseconds and the clock is an `i64` of seconds, so no sum of times
overflows (`Rate.toNat_rangeEnd`, `Rate.rangeEnd_le_expires`). A counter is taken to stay
below `2^63`.
-/

namespace Bearmail.Store

open Option Function

structure Rate where
  count : UInt64
  periodMillis : UInt64
  deriving DecidableEq

namespace Rate

def period (rate : Rate) : UInt64 := max (rate.periodMillis / 1000) 1

def rangeStart (rate : Rate) (now : UInt64) : UInt64 := now / rate.period

def rangeEnd (rate : Rate) (rangeStart : UInt64) : UInt64 := rangeStart * rate.period + rate.period

def expiresIn (rate : Rate) (now : UInt64) : UInt64 := rate.rangeEnd (rate.rangeStart now) - now

/-- The answer to a call: nothing when it is admitted. -/
def verdict (rate : Rate) (requests : Int) (expiresIn : UInt64) : Option UInt64 :=
  if requests ≤ rate.count.toInt64.toInt then none else some expiresIn

variable (rate : Rate) {now later : UInt64}

theorem toNat_period : rate.period.toNat = max (rate.periodMillis.toNat / 1000) 1 := by
  unfold period
  rw [UInt64.max_def]
  split
  · rename_i h
    exact (max_eq_right h).symm
  · rename_i h
    exact (max_eq_left (Nat.le_of_not_le h)).symm

theorem period_bounds : 0 < rate.period.toNat ∧ rate.period.toNat < 2 ^ 62 := by
  have hmillis := rate.periodMillis.toNat_lt
  rw [toNat_period]
  omega

variable (hnow : now.toNat < 2 ^ 63)
include hnow

theorem toNat_rangeEnd : (rate.rangeEnd (rate.rangeStart now)).toNat =
      now.toNat / rate.period.toNat * rate.period.toNat + rate.period.toNat := by
  have hperiod := rate.period_bounds
  have hstart : now.toNat / rate.period.toNat * rate.period.toNat ≤ now.toNat :=
    Nat.div_mul_le_self _ _
  rw [rangeEnd, rangeStart, UInt64.toNat_add, UInt64.toNat_mul, UInt64.toNat_div]
  rw [Nat.mod_eq_of_lt (by omega), Nat.mod_eq_of_lt (by omega)]

theorem lt_rangeEnd : now.toNat < (rate.rangeEnd (rate.rangeStart now)).toNat := by
  rw [toNat_rangeEnd rate hnow]
  exact Nat.lt_div_mul_add rate.period_bounds.1

theorem toNat_expiresIn :
    (rate.expiresIn now).toNat = (rate.rangeEnd (rate.rangeStart now)).toNat - now.toNat := by
  have hlt := rate.lt_rangeEnd hnow
  exact UInt64.toNat_sub_of_le _ _ (UInt64.le_iff_toNat_le.mpr hlt.le)

theorem expiresIn_le_period : (rate.expiresIn now).toNat ≤ rate.period.toNat := by
  rw [toNat_expiresIn rate hnow, toNat_rangeEnd rate hnow]
  have := Nat.div_mul_le_self now.toNat rate.period.toNat
  omega

omit hnow

theorem rangeEnd_le_expires (hle : now ≤ later) (hlater : later.toNat < 2 ^ 63) :
    rate.rangeEnd (rate.rangeStart now) ≤ later + rate.expiresIn now := by
  rw [UInt64.le_iff_toNat_le] at hle ⊢
  have hnow : now.toNat < 2 ^ 63 := by omega
  have hin := rate.toNat_expiresIn hnow
  have hperiod := rate.period_bounds
  have hle' := rate.expiresIn_le_period hnow
  rw [UInt64.toNat_add]
  omega
theorem verdict_isNone {requests : Int} {expiresIn : UInt64} :
    (rate.verdict requests expiresIn).isNone ↔ requests ≤ rate.count.toInt64.toInt := by
  unfold verdict
  split <;> simp_all

theorem toInt_count_le : rate.count.toInt64.toInt ≤ rate.count.toNat := by
  show rate.count.toBitVec.toInt ≤ (rate.count.toBitVec.toNat : Int)
  rw [BitVec.toInt]
  split <;> omega

end Rate

def rateBucket (pfx : UInt8) (key : List UInt8) (rangeStart : UInt64) : List UInt8 :=
  pfx :: key ++ be64 rangeStart

theorem rateBucket_inj {pfx : UInt8} {key : List UInt8} {rangeStart rangeStart' : UInt64} :
    rateBucket pfx key rangeStart = rateBucket pfx key rangeStart' ↔ rangeStart = rangeStart' := by
  simp [rateBucket, rateBucket, be64_inj]

/-- How far a call to `is_rate_allowed` has come. -/
inductive RateCall where
  | idle
  | increment (bucket : List UInt8) (expiresIn : UInt64)
  | batch (bucket : List UInt8) (expiry expiresIn : UInt64)
  | soft (bucket : List UInt8) (expiresIn : UInt64)
  deriving DecidableEq

/-- How far a purge run has come, and the keys that it has found expired. -/
inductive PurgeRun where
  | idle
  | iterating (currentTime : UInt64) (expiredKeys expiredCounters : List (List UInt8))
  | deleting (expiredKeys expiredCounters : List (List UInt8))
  deriving DecidableEq

/-- A key holds two numbers, of which the first is zero for a counter. The last three fields
record, for each bucket, the calls that were admitted and counted, those that were admitted
and not counted, and the removals of its counter. -/
structure RateState (ν π : Type) where
  now : UInt64
  keys : List UInt8 → Option (UInt64 × UInt64)
  counters : List UInt8 → Option Int
  calls : ν → RateCall
  purges : π → PurgeRun
  admitted : List UInt8 → Nat
  softAdmitted : List UInt8 → Nat
  removed : List UInt8 → Nat

inductive RateStep (ν π : Type) where
  | call (client : ν) (softCheck : Bool)
  | build (client : ν)
  | write (client : ν)
  | get (client : ν)
  | fail (client : ν)
  | purge (purger : π)
  | entry (purger : π) (key : List UInt8)
  | iterated (purger : π)
  | delete (purger : π)
  | abort (purger : π)
  | tick (time : UInt64)
  deriving DecidableEq

def PurgeRun.visit (currentTime : UInt64) (expiredKeys expiredCounters : List (List UInt8))
    (key : List UInt8) : Option (UInt64 × UInt64) → PurgeRun
  | none => .iterating currentTime expiredKeys expiredCounters
  | some (expiry, counterExpiry) =>
    if expiry = 0 then
      if counterExpiry ≤ currentTime then
        .iterating currentTime expiredKeys (expiredCounters ++ [key])
      else .iterating currentTime expiredKeys expiredCounters
    else if expiry ≤ currentTime then
      .iterating currentTime (expiredKeys ++ [key]) expiredCounters
    else .iterating currentTime expiredKeys expiredCounters

variable {bucket : List UInt8}

namespace RateState

variable {ν π : Type}

def counterGet (s : RateState ν π) (bucket : List UInt8) : Int := (s.counters bucket).getD 0

section Steps

variable [DecidableEq ν] [DecidableEq π]

def setCall (s : RateState ν π) (client : ν) (call : RateCall) : RateState ν π :=
  { s with calls := Function.update s.calls client call }

def setPurge (s : RateState ν π) (purger : π) (purge : PurgeRun) : RateState ν π :=
  { s with purges := Function.update s.purges purger purge }

def counterIncr (s : RateState ν π) (bucket : List UInt8) (expiry : UInt64) : RateState ν π :=
  { s with
    keys := Function.update s.keys bucket (some (0, expiry))
    counters := Function.update s.counters bucket (some (s.counterGet bucket + 1)) }

def countAdmitted (s : RateState ν π) (bucket : List UInt8) (verdict : Option UInt64) :
    RateState ν π :=
  if verdict.isNone then
    { s with admitted := Function.update s.admitted bucket (s.admitted bucket + 1) }
  else s

def countSoft (s : RateState ν π) (bucket : List UInt8) (verdict : Option UInt64) :
    RateState ν π :=
  if verdict.isNone then
    { s with softAdmitted := Function.update s.softAdmitted bucket (s.softAdmitted bucket + 1) }
  else s

def clearKey (s : RateState ν π) (key : List UInt8) : RateState ν π :=
  { s with keys := Function.update s.keys key none }

def clearCounter (s : RateState ν π) (key : List UInt8) : RateState ν π :=
  { s.clearKey key with
    counters := Function.update s.counters key none
    removed := Function.update s.removed key (s.removed key + 1) }

variable (rate : Rate) (pfx : UInt8) (key : List UInt8)

def step (s : RateState ν π) : RateStep ν π → Option (RateState ν π)
  | .call client softCheck =>
    match s.calls client with
    | .idle =>
      let bucket := rateBucket pfx key (rate.rangeStart s.now)
      let expiresIn := rate.expiresIn s.now
      some (s.setCall client (if softCheck then .soft bucket expiresIn else .increment bucket expiresIn))
    | _ => none
  | .build client =>
    match s.calls client with
    | .increment bucket expiresIn =>
      some (s.setCall client (.batch bucket (s.now + expiresIn) expiresIn))
    | _ => none
  | .write client =>
    match s.calls client with
    | .batch bucket expiry expiresIn =>
      some (((s.counterIncr bucket expiry).countAdmitted bucket
        (rate.verdict (s.counterGet bucket + 1) expiresIn)).setCall client .idle)
    | _ => none
  | .get client =>
    match s.calls client with
    | .soft bucket expiresIn =>
      some ((s.countSoft bucket (rate.verdict (s.counterGet bucket + 1) expiresIn)).setCall client .idle)
    | _ => none
  | .fail client => some (s.setCall client .idle)
  | .purge purger =>
    match s.purges purger with
    | .idle => some (s.setPurge purger (.iterating s.now [] []))
    | _ => none
  | .entry purger key =>
    match s.purges purger with
    | .iterating currentTime expiredKeys expiredCounters =>
      some (s.setPurge purger (.visit currentTime expiredKeys expiredCounters key (s.keys key)))
    | _ => none
  | .iterated purger =>
    match s.purges purger with
    | .iterating _ expiredKeys expiredCounters =>
      some (s.setPurge purger (.deleting expiredKeys expiredCounters))
    | _ => none
  | .delete purger =>
    match s.purges purger with
    | .deleting (key :: expiredKeys) expiredCounters =>
      some ((s.clearKey key).setPurge purger (.deleting expiredKeys expiredCounters))
    | .deleting [] (key :: expiredCounters) =>
      some ((s.clearCounter key).setPurge purger (.deleting [] expiredCounters))
    | .deleting [] [] => some (s.setPurge purger .idle)
    | _ => none
  | .abort purger => some (s.setPurge purger .idle)
  | .tick time => if s.now ≤ time ∧ time.toNat < 2 ^ 63 then some { s with now := time } else none

end Steps

structure Initial (s : RateState ν π) : Prop where
  now : s.now.toNat < 2 ^ 63
  keys : ∀ bucket, s.keys bucket = none
  counters : ∀ bucket, s.counters bucket = none
  calls : ∀ client, s.calls client = .idle
  purges : ∀ purger, s.purges purger = .idle
  admitted : ∀ bucket, s.admitted bucket = 0
  removed : ∀ bucket, s.removed bucket = 0

/-! ## How many calls are admitted -/

/-- A call is admitted only while its counter is below the count. -/
structure Counted (rate : Rate) (s : RateState ν π) : Prop where
  counters : ∀ bucket, 0 ≤ s.counterGet bucket
  admitted : ∀ bucket, (s.admitted bucket : Int) ≤
    rate.count.toNat * s.removed bucket + min (s.counterGet bucket) rate.count.toNat

variable {rate : Rate} {pfx : UInt8} {key : List UInt8} {s s' : RateState ν π}

@[simp] theorem keys_counterIncr (bucket : List UInt8) (expiry : UInt64) :
    (s.counterIncr bucket expiry).keys = Function.update s.keys bucket (some (0, expiry)) := rfl

@[simp] theorem keys_clearKey (bucket : List UInt8) :
    (s.clearKey bucket).keys = Function.update s.keys bucket none := rfl

theorem counterGet_counterIncr (bucket other : List UInt8) (expiry : UInt64) :
    (s.counterIncr bucket expiry).counterGet other =
      if other = bucket then s.counterGet bucket + 1 else s.counterGet other := by
  show (Function.update s.counters bucket (some (s.counterGet bucket + 1)) other).getD 0 = _
  by_cases heq : other = bucket
  · simp [heq]
  · simp [heq, counterGet]

theorem counterGet_clearCounter (bucket other : List UInt8) : (s.clearCounter bucket).counterGet other =
      if other = bucket then 0 else s.counterGet other := by
  show (Function.update s.counters bucket none other).getD 0 = _
  by_cases heq : other = bucket
  · simp [heq]
  · simp [heq, counterGet]

theorem removed_clearCounter (bucket other : List UInt8) : (s.clearCounter bucket).removed other =
      if other = bucket then s.removed bucket + 1 else s.removed other :=
  update_apply _ _ _ _

theorem Counted.bound (h : s.Counted rate) (bucket : List UInt8) :
    s.admitted bucket ≤ rate.count.toNat * (s.removed bucket + 1) := by
  have hadmitted := h.admitted bucket
  rw [Nat.mul_add]
  omega

theorem Initial.counted (h : s.Initial) : s.Counted rate where
  counters bucket := by simp [counterGet, h.counters bucket]
  admitted bucket := by
    rw [counterGet, h.counters bucket, getD_none, h.admitted bucket, h.removed bucket]
    omega

theorem Counted.clearCounter (h : s.Counted rate) (bucket : List UInt8) :
    (s.clearCounter bucket).Counted rate where
  counters other := by
    have := h.counters other
    rw [counterGet_clearCounter]
    split <;> omega
  admitted other := by
    have hother := h.admitted other
    show (s.admitted other : Int) ≤ _
    rw [counterGet_clearCounter, removed_clearCounter]
    split
    · -- what was admitted so far is within the removals
      rename_i heq
      rw [heq] at hother ⊢
      rw [Nat.cast_add, Int.mul_add]
      omega
    · exact hother

/-- The counter rises with every call, and a call is admitted only up to the count. -/
theorem Counted.counterIncr (h : s.Counted rate) (bucket : List UInt8) (expiry expiresIn : UInt64) :
    ((s.counterIncr bucket expiry).countAdmitted bucket
      (rate.verdict (s.counterGet bucket + 1) expiresIn)).Counted rate := by
  have hincr : (s.counterIncr bucket expiry).Counted rate := by
    constructor
    · intro other
      have hother := h.counters other
      have hbucket := h.counters bucket
      rw [counterGet_counterIncr]
      split <;> omega
    · intro other
      have hother := h.admitted other
      show (s.admitted other : Int) ≤ rate.count.toNat * s.removed other + _
      rw [counterGet_counterIncr]
      split
      · rename_i heq
        rw [heq] at hother ⊢
        omega
      · exact hother
  unfold countAdmitted
  split
  · rename_i hverdict
    have hcount := (rate.verdict_isNone.mp hverdict).trans rate.toInt_count_le
    refine ⟨hincr.counters, fun other => ?_⟩
    have hother := h.admitted other
    show (Function.update s.admitted bucket (s.admitted bucket + 1) other : Int) ≤
      rate.count.toNat * s.removed other +
        min ((s.counterIncr bucket expiry).counterGet other) rate.count.toNat
    rw [counterGet_counterIncr]
    by_cases heq : other = bucket
    · rw [if_pos heq, heq, update_self]
      rw [heq] at hother
      omega
    · rw [if_neg heq, update_of_ne heq]
      exact hother
  · exact hincr

theorem Counted.setCall [DecidableEq ν] (h : s.Counted rate) (client : ν) (call : RateCall) :
    (s.setCall client call).Counted rate := ⟨h.counters, h.admitted⟩

theorem Counted.setPurge [DecidableEq π] (h : s.Counted rate) (purger : π) (purge : PurgeRun) :
    (s.setPurge purger purge).Counted rate := ⟨h.counters, h.admitted⟩

theorem Counted.countSoft (h : s.Counted rate) (bucket : List UInt8) (verdict : Option UInt64) :
    (s.countSoft bucket verdict).Counted rate := by
  unfold RateState.countSoft
  split
  · exact ⟨h.counters, h.admitted⟩
  · exact h

theorem Counted.clearKey (h : s.Counted rate) (bucket : List UInt8) :
    (s.clearKey bucket).Counted rate := ⟨h.counters, h.admitted⟩

/-! ## When a counter is removed -/

def EndsBy (rate : Rate) (pfx : UInt8) (key bucket : List UInt8) (time : UInt64) : Prop :=
  ∀ rangeStart, bucket = rateBucket pfx key rangeStart → rate.rangeEnd rangeStart ≤ time

def CallTimely (rate : Rate) (pfx : UInt8) (key : List UInt8) (now : UInt64) : RateCall → Prop
  | .increment bucket expiresIn => ∃ asked ≤ now,
    bucket = rateBucket pfx key (rate.rangeStart asked) ∧ expiresIn = rate.expiresIn asked
  | .batch bucket expiry _ => EndsBy rate pfx key bucket expiry
  | _ => True

def PurgeTimely (rate : Rate) (pfx : UInt8) (key : List UInt8) (now : UInt64) : PurgeRun → Prop
  | .idle => True
  | .iterating currentTime _ expiredCounters =>
    currentTime ≤ now ∧ ∀ bucket ∈ expiredCounters, EndsBy rate pfx key bucket now
  | .deleting _ expiredCounters => ∀ bucket ∈ expiredCounters, EndsBy rate pfx key bucket now

/-- Every expiry that is stored or about to be stored lies after the end of the window. -/
structure Timely (rate : Rate) (pfx : UInt8) (key : List UInt8) (s : RateState ν π) : Prop where
  now : s.now.toNat < 2 ^ 63
  keys : ∀ bucket expiry counterExpiry, s.keys bucket = some (expiry, counterExpiry) →
    EndsBy rate pfx key bucket counterExpiry
  calls : ∀ client, CallTimely rate pfx key s.now (s.calls client)
  purges : ∀ purger, PurgeTimely rate pfx key s.now (s.purges purger)
  removed : ∀ bucket, s.removed bucket ≠ 0 → EndsBy rate pfx key bucket s.now

theorem EndsBy.mono {time later : UInt64} (hle : time ≤ later) (h : EndsBy rate pfx key bucket time) :
    EndsBy rate pfx key bucket later :=
  fun rangeStart hbucket => UInt64.le_trans (h rangeStart hbucket) hle

theorem endsBy_rangeStart {asked time : UInt64} (hle : rate.rangeEnd (rate.rangeStart asked) ≤ time) :
    EndsBy rate pfx key (rateBucket pfx key (rate.rangeStart asked)) time := by
  intro rangeStart hbucket
  rw [← rateBucket_inj.mp hbucket]
  exact hle

theorem CallTimely.mono {now later : UInt64} (hle : now ≤ later) {call : RateCall}
    (h : CallTimely rate pfx key now call) : CallTimely rate pfx key later call := by
  cases call with
  | increment bucket expiresIn =>
    obtain ⟨asked, hasked, hcall⟩ := h
    exact ⟨asked, UInt64.le_trans hasked hle, hcall⟩
  | idle | batch | soft => exact h

theorem PurgeTimely.mono {now later : UInt64} (hle : now ≤ later) {purge : PurgeRun}
    (h : PurgeTimely rate pfx key now purge) : PurgeTimely rate pfx key later purge := by
  cases purge with
  | idle => trivial
  | iterating currentTime expiredKeys expiredCounters =>
    exact ⟨UInt64.le_trans h.1 hle, fun bucket hbucket => (h.2 bucket hbucket).mono hle⟩
  | deleting expiredKeys expiredCounters => exact fun bucket hbucket => (h bucket hbucket).mono hle

theorem Initial.timely (h : s.Initial) : s.Timely rate pfx key where
  now := h.now
  keys bucket expiry counterExpiry hkey := by
    rw [h.keys bucket] at hkey
    cases hkey
  calls client := by rw [h.calls client]; trivial
  purges purger := by rw [h.purges purger]; trivial
  removed bucket hremoved := absurd (h.removed bucket) hremoved

theorem PurgeTimely.visit {now currentTime : UInt64} {expiredKeys expiredCounters : List (List UInt8)}
    (h : PurgeTimely rate pfx key now (.iterating currentTime expiredKeys expiredCounters))
    (bucket : List UInt8) (value : Option (UInt64 × UInt64))
    (hvalue : ∀ expiry counterExpiry, value = some (expiry, counterExpiry) →
      EndsBy rate pfx key bucket counterExpiry) :
    PurgeTimely rate pfx key now (.visit currentTime expiredKeys expiredCounters bucket value) := by
  obtain ⟨hle, hcounters⟩ := h
  unfold PurgeRun.visit
  split
  · exact ⟨hle, hcounters⟩
  · rename_i expiry counterExpiry
    split
    · split
      · rename_i hexpired
        refine ⟨hle, fun other hother => ?_⟩
        rcases List.mem_append.mp hother with hother | hother
        · exact hcounters other hother
        · rw [List.mem_singleton.mp hother]
          exact (hvalue _ _ rfl).mono (UInt64.le_trans hexpired hle)
      · exact ⟨hle, hcounters⟩
    · split <;> exact ⟨hle, hcounters⟩

variable (h : s.Timely rate pfx key)
include h

theorem Timely.clearKey (bucket : List UInt8) : (s.clearKey bucket).Timely rate pfx key where
  now := h.now
  keys other expiry counterExpiry hkey := by
    by_cases heq : other = bucket
    · rw [keys_clearKey, heq, update_self] at hkey
      cases hkey
    · rw [keys_clearKey, update_of_ne heq] at hkey
      exact h.keys other expiry counterExpiry hkey
  calls := h.calls
  purges := h.purges
  removed := h.removed

theorem Timely.clearCounter (hbucket : EndsBy rate pfx key bucket s.now) :
    (s.clearCounter bucket).Timely rate pfx key where
  now := h.now
  keys := (h.clearKey bucket).keys
  calls := h.calls
  purges := h.purges
  removed other hremoved := by
    rw [removed_clearCounter] at hremoved
    split at hremoved
    · rename_i heq
      rw [heq]
      exact hbucket
    · exact h.removed other hremoved

theorem Timely.counterIncr {expiry : UInt64} (hbucket : EndsBy rate pfx key bucket expiry) :
    (s.counterIncr bucket expiry).Timely rate pfx key where
  now := h.now
  keys other first counterExpiry hkey := by
    by_cases heq : other = bucket
    · rw [keys_counterIncr, heq, update_self] at hkey
      cases hkey
      rw [heq]
      exact hbucket
    · rw [keys_counterIncr, update_of_ne heq] at hkey
      exact h.keys other first counterExpiry hkey
  calls := h.calls
  purges := h.purges
  removed := h.removed

theorem Timely.countAdmitted (bucket : List UInt8)
    (verdict : Option UInt64) : (s.countAdmitted bucket verdict).Timely rate pfx key := by
  unfold RateState.countAdmitted
  split
  · exact ⟨h.now, h.keys, h.calls, h.purges, h.removed⟩
  · exact h

theorem Timely.countSoft (bucket : List UInt8)
    (verdict : Option UInt64) : (s.countSoft bucket verdict).Timely rate pfx key := by
  unfold RateState.countSoft
  split
  · exact ⟨h.now, h.keys, h.calls, h.purges, h.removed⟩
  · exact h

omit h

theorem Timely.setCall [DecidableEq ν] (h : s.Timely rate pfx key) (client : ν) {call : RateCall}
    (hcall : CallTimely rate pfx key s.now call) :
    (s.setCall client call).Timely rate pfx key where
  now := h.now
  keys := h.keys
  calls other := by
    show CallTimely rate pfx key s.now (Function.update s.calls client call other)
    by_cases heq : other = client
    · rw [heq, update_self]
      exact hcall
    · rw [update_of_ne heq]
      exact h.calls other
  purges := h.purges
  removed := h.removed

theorem Timely.setPurge [DecidableEq π] (h : s.Timely rate pfx key) (purger : π) {purge : PurgeRun}
    (hpurge : PurgeTimely rate pfx key s.now purge) :
    (s.setPurge purger purge).Timely rate pfx key where
  now := h.now
  keys := h.keys
  calls := h.calls
  purges other := by
    show PurgeTimely rate pfx key s.now (Function.update s.purges purger purge other)
    by_cases heq : other = purger
    · rw [heq, update_self]
      exact hpurge
    · rw [update_of_ne heq]
      exact h.purges other
  removed := h.removed

theorem Timely.call [DecidableEq ν] (h : s.Timely rate pfx key) (client : ν) (softCheck : Bool) :
    (s.setCall client (if softCheck then
        .soft (rateBucket pfx key (rate.rangeStart s.now)) (rate.expiresIn s.now)
      else .increment (rateBucket pfx key (rate.rangeStart s.now)) (rate.expiresIn s.now))).Timely
      rate pfx key := by
  cases softCheck with
  | true => exact h.setCall client trivial
  | false => exact h.setCall client ⟨s.now, UInt64.le_refl _, rfl, rfl⟩

/-! ## Runs -/

variable [DecidableEq ν] [DecidableEq π]

theorem counted_of_step (l : RateStep ν π) (h : s.Counted rate)
    (hstep : s.step rate pfx key l = some s') : s'.Counted rate := by
  cases l with
  | call client softCheck | build client =>
    simp only [step] at hstep
    split at hstep <;> cases hstep
    exact h.setCall client _
  | write client =>
    simp only [step] at hstep
    split at hstep <;> cases hstep
    exact (h.counterIncr _ _ _).setCall client _
  | get client =>
    simp only [step] at hstep
    split at hstep <;> cases hstep
    exact (h.countSoft _ _).setCall client _
  | fail client =>
    cases hstep
    exact h.setCall client _
  | purge purger | entry purger key | iterated purger =>
    simp only [step] at hstep
    split at hstep <;> cases hstep
    exact h.setPurge purger _
  | delete purger =>
    simp only [step] at hstep
    split at hstep <;> cases hstep
    · exact (h.clearKey _).setPurge purger _
    · exact (h.clearCounter _).setPurge purger _
    · exact h.setPurge purger _
  | abort purger =>
    cases hstep
    exact h.setPurge purger _
  | tick time =>
    simp only [step] at hstep
    split at hstep <;> cases hstep
    exact ⟨h.counters, h.admitted⟩

theorem timely_of_step (l : RateStep ν π) (h : s.Timely rate pfx key)
    (hstep : s.step rate pfx key l = some s') : s'.Timely rate pfx key := by
  cases l with
  | call client softCheck =>
    simp only [step] at hstep
    split at hstep <;> cases hstep
    exact h.call client softCheck
  | build client =>
    have hcall := h.calls client
    simp only [step] at hstep
    split at hstep <;> cases hstep
    rename_i bucket expiresIn heq
    rw [heq] at hcall
    obtain ⟨asked, hasked, rfl, rfl⟩ := hcall
    exact h.setCall client (endsBy_rangeStart (rate.rangeEnd_le_expires hasked h.now))
  | write client =>
    have hcall := h.calls client
    simp only [step] at hstep
    split at hstep <;> cases hstep
    rename_i bucket expiry expiresIn heq
    rw [heq] at hcall
    exact ((h.counterIncr hcall).countAdmitted _ _).setCall client trivial
  | get client =>
    simp only [step] at hstep
    split at hstep <;> cases hstep
    exact (h.countSoft _ _).setCall client trivial
  | fail client =>
    cases hstep
    exact h.setCall client trivial
  | purge purger =>
    simp only [step] at hstep
    split at hstep <;> cases hstep
    exact h.setPurge purger ⟨UInt64.le_refl _, nofun⟩
  | entry purger bucket =>
    have hpurge := h.purges purger
    simp only [step] at hstep
    split at hstep <;> cases hstep
    rename_i heq
    rw [heq] at hpurge
    exact h.setPurge purger (hpurge.visit bucket _ (h.keys bucket))
  | iterated purger =>
    have hpurge := h.purges purger
    simp only [step] at hstep
    split at hstep <;> cases hstep
    rename_i heq
    rw [heq] at hpurge
    exact h.setPurge purger hpurge.2
  | delete purger =>
    have hpurge := h.purges purger
    simp only [step] at hstep
    split at hstep <;> cases hstep
    · rename_i heq
      rw [heq] at hpurge
      exact (h.clearKey _).setPurge purger hpurge
    · rename_i heq
      rw [heq] at hpurge
      obtain ⟨hbucket, hrest⟩ := List.forall_mem_cons.mp hpurge
      exact (h.clearCounter hbucket).setPurge purger hrest
    · exact h.setPurge purger trivial
  | abort purger =>
    cases hstep
    exact h.setPurge purger trivial
  | tick time =>
    simp only [step] at hstep
    split at hstep <;> cases hstep
    rename_i hle
    exact {
      now := hle.2
      keys := h.keys
      calls := fun client => (h.calls client).mono hle.1
      purges := fun purger => (h.purges purger).mono hle.1
      removed := fun bucket hremoved => (h.removed bucket hremoved).mono hle.1 }

def uncounted : RateState Nat Unit :=
  ⟨59, fun _ => none, fun _ => none, fun _ => .idle, fun _ => .idle, fun _ => 0, fun _ => 0, fun _ => 0⟩

theorem uncounted_initial : uncounted.Initial :=
  ⟨by decide, fun _ => rfl, fun _ => rfl, fun _ => rfl, fun _ => rfl, fun _ => rfl, fun _ => rfl⟩

def oneAMinute : Rate := ⟨1, 60000⟩

def twoCalls : List (RateStep Nat Unit) :=
  [.call 0 false, .call 1 false, .build 0, .build 1, .write 0, .write 1]

end RateState

end Bearmail.Store
