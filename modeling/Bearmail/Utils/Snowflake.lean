import Mathlib.Data.List.Nodup
import Mathlib.Algebra.Group.Nat.Defs
import Mathlib.Logic.Function.Basic

/-!
# Snowflake ids

The ids of `utils/src/snowflake.rs`: the milliseconds since the epoch, a sequence number and the number
of the node. A run has any number of processes, each of which draws from one generator.
-/

namespace Bearmail.Utils.Snowflake

open List

def nodeIdMask : UInt64 := 0x1ff

def sequenceMask : UInt64 := 0xfff

/-- `(elapsed << 21) | (sequence << 9) | node_id()` -/
def idOf (elapsed sequence nodeId : UInt64) : UInt64 :=
  elapsed <<< 21 ||| (sequence &&& sequenceMask) <<< 9 ||| nodeId &&& nodeIdMask

/-- `past_id` and `from_duration`, with the nanoseconds since the epoch and those of the period. -/
def pastId (elapsed period : Nat) : UInt64 := UInt64.ofNat ((elapsed - period) / 1000000) <<< 21

def toTimestamp (id : UInt64) : UInt64 := (id >>> 21) / 1000 + 1632280000

theorem toNat_shift (millis : UInt64) : (millis <<< 21).toNat = 2 ^ 21 * (millis.toNat % 2 ^ 43) := by
  rw [UInt64.toNat_shiftLeft, Nat.shiftLeft_eq]
  simp
  omega

theorem toNat_idOf (elapsed sequence nodeId : UInt64) : (idOf elapsed sequence nodeId).toNat =
    2 ^ 21 * (elapsed.toNat % 2 ^ 43) + (2 ^ 9 * (sequence.toNat % 2 ^ 12) + nodeId.toNat % 2 ^ 9) := by
  have hsequence : ((sequence &&& sequenceMask) <<< 9).toNat = 2 ^ 9 * (sequence.toNat % 2 ^ 12) := by
    rw [UInt64.toNat_shiftLeft, UInt64.toNat_and, show sequenceMask.toNat = 2 ^ 12 - 1 from rfl,
      Nat.and_two_pow_sub_one_eq_mod, Nat.shiftLeft_eq]
    simp
    omega
  have hnode : (nodeId &&& nodeIdMask).toNat = nodeId.toNat % 2 ^ 9 := by
    rw [UInt64.toNat_and, show nodeIdMask.toNat = 2 ^ 9 - 1 from rfl, Nat.and_two_pow_sub_one_eq_mod]
  rw [idOf, UInt64.toNat_or, UInt64.toNat_or, toNat_shift, hsequence, hnode, Nat.or_assoc]
  rw [← Nat.two_pow_add_eq_or_of_lt (Nat.mod_lt _ (by decide)), ← Nat.two_pow_add_eq_or_of_lt (by omega)]

/-- An id that a process draws at a reading of the clock. -/
@[ext] structure Draw where
  process : Nat
  elapsed : UInt64

/-- The ids of a run, with the sequence numbers of the processes. -/
def draw (nodeId : Nat → UInt64) : (Nat → UInt64) → List Draw → List UInt64
  | _, [] => []
  | sequence, d :: draws =>
    idOf d.elapsed (sequence d.process) (nodeId d.process) ::
      draw nodeId (Function.update sequence d.process (sequence d.process + 1)) draws

variable {nodeId sequence : Nat → UInt64} {draws : List Draw}

/-- How many ids a process draws. -/
def drawnBy (process : Nat) (draws : List Draw) : Nat := draws.countP fun d => d.process = process

theorem getElem?_draw (i : Nat) : (draw nodeId sequence draws)[i]? = draws[i]?.map fun d =>
    idOf d.elapsed (sequence d.process + .ofNat (drawnBy d.process (draws.take i))) (nodeId d.process) := by
  induction draws generalizing sequence i with
  | nil => simp [draw]
  | cons d draws ih =>
    cases i with
    | zero => simp [draw, drawnBy]
    | succ i =>
      simp only [draw, getElem?_cons_succ, ih, take_succ_cons]
      congr 1
      funext d'
      by_cases hprocess : d.process = d'.process
      · simp [drawnBy, hprocess, UInt64.add_assoc, UInt64.add_comm]
      · simp [drawnBy, hprocess, Function.update_of_ne (Ne.symm hprocess)]

theorem idOf_inj {elapsed elapsed' sequence sequence' nodeId nodeId' : UInt64} :
    idOf elapsed sequence nodeId = idOf elapsed' sequence' nodeId' ↔
      elapsed.toNat % 2 ^ 43 = elapsed'.toNat % 2 ^ 43 ∧ sequence.toNat % 2 ^ 12 = sequence'.toNat % 2 ^ 12 ∧
        nodeId.toNat % 2 ^ 9 = nodeId'.toNat % 2 ^ 9 := by
  rw [← UInt64.toNat_inj, toNat_idOf, toNat_idOf]
  omega

theorem sequence_again {before later : Nat} (h : before ≤ later) (sequence : UInt64) :
    (sequence + .ofNat before).toNat % 2 ^ 12 = (sequence + .ofNat later).toNat % 2 ^ 12 ↔
      2 ^ 12 ∣ later - before := by
  simp only [UInt64.toNat_add, UInt64.toNat_ofNat']
  omega

theorem length_draw : (draw nodeId sequence draws).length = draws.length := by
  induction draws generalizing sequence with
  | nil => rfl
  | cons d draws ih => exact congrArg (· + 1) ih

theorem drawnBy_take_le {i j : Nat} (h : i ≤ j) (process : Nat) :
    drawnBy process (draws.take i) ≤ drawnBy process (draws.take j) :=
  (take_sublist_take_left h).countP_le

/-- The milliseconds fit, up to the year 2300, and no two processes have the same node. -/
structure Cluster (nodeId : Nat → UInt64) (draws : List Draw) : Prop where
  fits : ∀ d ∈ draws, d.elapsed.toNat < 2 ^ 43
  nodes : ∀ d ∈ draws, ∀ d' ∈ draws,
    (nodeId d.process).toNat % 2 ^ 9 = (nodeId d'.process).toNat % 2 ^ 9 → d.process = d'.process

/-- An id comes twice exactly when a process draws in the same millisecond again, a multiple of 4096
draws later. -/
theorem nodup_draw_iff (h : Cluster nodeId draws) : (draw nodeId sequence draws).Nodup ↔
    ∀ i j d, i < j → draws[i]? = some d → draws[j]? = some d →
      ¬ 2 ^ 12 ∣ drawnBy d.process (draws.take j) - drawnBy d.process (draws.take i) := by
  rw [nodup_iff_getElem?_ne_getElem?]
  constructor
  · intro hne i j d hij hi hj hdvd
    obtain ⟨hlt, -⟩ := List.getElem?_eq_some_iff.mp hj
    refine hne i j hij (length_draw ▸ hlt) ?_
    rw [getElem?_draw, getElem?_draw, hi, hj, Option.map_some, Option.map_some, Option.some_inj, idOf_inj]
    exact ⟨rfl, (sequence_again (drawnBy_take_le (Nat.le_of_lt hij) _) _).mpr hdvd, rfl⟩
  · intro hall i j hij hlt heq
    rw [length_draw] at hlt
    have hi := getElem?_eq_getElem (Nat.lt_trans hij hlt)
    have hj := getElem?_eq_getElem hlt
    rw [getElem?_draw, getElem?_draw, hi, hj, Option.map_some, Option.map_some, Option.some_inj, idOf_inj]
      at heq
    obtain ⟨helapsed, hsequence, hnode⟩ := heq
    have hprocess := h.nodes _ (getElem_mem _) _ (getElem_mem _) hnode
    rw [Nat.mod_eq_of_lt (h.fits _ (getElem_mem _)), Nat.mod_eq_of_lt (h.fits _ (getElem_mem _))] at helapsed
    have hsame : draws[i] = draws[j] := Draw.ext hprocess (UInt64.toNat_inj.mp helapsed)
    rw [hprocess, sequence_again (drawnBy_take_le (Nat.le_of_lt hij) _)] at hsequence
    exact hall i j _ hij (hi.trans (congrArg some hsame)) hj hsequence

/-- Node 1 draws twice in a millisecond, and node 2 once. -/
def threeDraws : List Draw := [⟨1, 5⟩, ⟨2, 5⟩, ⟨1, 5⟩]

theorem cluster_threeDraws : Cluster (fun process => .ofNat process) threeDraws := ⟨by decide, by decide⟩

theorem nodup_draw_iff_threeDraws : (draw (fun process => .ofNat process) (fun _ => 0) threeDraws).Nodup ↔
    ∀ i j d, i < j → threeDraws[i]? = some d → threeDraws[j]? = some d →
      ¬ 2 ^ 12 ∣ drawnBy d.process (threeDraws.take j) - drawnBy d.process (threeDraws.take i) :=
  nodup_draw_iff cluster_threeDraws

/-- The ids of a run are in the order of their milliseconds, whatever the processes, and say when they
were drawn; a past id is above exactly those that were drawn before the period. -/
theorem draw_follows_time (hfits : ∀ d ∈ draws, d.elapsed.toNat < 2 ^ 43) {i : Nat} {d : Draw} {id : UInt64}
    (hd : draws[i]? = some d) (hid : (draw nodeId sequence draws)[i]? = some id) :
    (∀ (j : Nat) (d' : Draw) id', draws[j]? = some d' → (draw nodeId sequence draws)[j]? = some id' →
      d.elapsed < d'.elapsed → id < id') ∧
      (∀ now period, now / 1000000 < 2 ^ 43 →
        (id < pastId now period ↔ d.elapsed.toNat < (now - period) / 1000000)) ∧
      (toTimestamp id).toNat = d.elapsed.toNat / 1000 + 1632280000 := by
  have hlt := hfits d (List.mem_of_getElem? hd)
  rw [getElem?_draw, hd, Option.map_some, Option.some_inj] at hid
  subst hid
  refine ⟨fun j d' id' hd' hid' hless => ?_, fun now period hnow => ?_, ?_⟩
  · have hlt' := hfits d' (List.mem_of_getElem? hd')
    rw [getElem?_draw, hd', Option.map_some, Option.some_inj] at hid'
    subst hid'
    rw [UInt64.lt_iff_toNat_lt] at hless ⊢
    rw [toNat_idOf, toNat_idOf]
    omega
  · have hle : (now - period) / 1000000 ≤ now / 1000000 := Nat.div_le_div_right (Nat.sub_le now period)
    rw [UInt64.lt_iff_toNat_lt, toNat_idOf, pastId, toNat_shift, UInt64.toNat_ofNat']
    omega
  · simp only [toTimestamp, UInt64.toNat_add, UInt64.toNat_div, UInt64.toNat_shiftRight, toNat_idOf]
    simp [Nat.shiftRight_eq_div_pow]
    omega

theorem draw_follows_time_threeDraws : idOf 5 0 1 < pastId 7000000 1000000 :=
  ((@draw_follows_time (fun process => .ofNat process) (fun _ => 0) _ cluster_threeDraws.fits 0 ⟨1, 5⟩ _
    rfl rfl).2.1 _ _ (by decide)).mpr (by decide)

end Bearmail.Utils.Snowflake
