import Bearmail.Lib.Runs
import Mathlib.Data.List.Infix

/-!
# IDLE

`handle_idle` of `imap/src/op/idle.rs` waits for four bytes of the client and for notifications at the same
time. What comes first drops the other, and a read that is dropped loses the bytes that it has taken.
-/

namespace Bearmail.Imap

open Runs
open List

/-- The data types that the command looks at, and any other. -/
inductive IdleDataType where
  | email
  | emailDelivery
  | mailbox
  | other
  deriving DecidableEq

inductive PushNotification where
  | stateChange (types : List IdleDataType)
  | emailPush
  | calendarAlert
  deriving DecidableEq

def PushNotification.hasEmailChanges : PushNotification → Bool
  | .stateChange types => types.any fun typ => typ = .email ∨ typ = .emailDelivery
  | .emailPush => true
  | .calendarAlert => false

def PushNotification.hasMailboxChanges : PushNotification → Bool
  | .stateChange types => types.any (· = .mailbox)
  | .emailPush => true
  | .calendarAlert => false

inductive IdlePhase where
  | idling
  /-- the completion is written -/
  | completed
  /-- with an error: a timeout, the end of the connection, the shutdown of the server -/
  | failed
  deriving DecidableEq

structure Idle where
  /-- the bytes that have arrived and are in the socket -/
  unread : List UInt8
  /-- the bytes that the current `read_exact` has taken -/
  buf : List UInt8
  /-- all bytes that were taken from the socket -/
  taken : List UInt8
  phase : IdlePhase
  deriving DecidableEq

inductive IdleStep where
  | arrive (bytes : List UInt8)
  /-- the read is polled and takes so many bytes -/
  | poll (n : Nat)
  /-- a notification is received, with whether the changes can be written -/
  | notify (notification : PushNotification) (written : Bool)
  | channelClosed
  | readError
  | timeout
  deriving DecidableEq

def doneBytes : List UInt8 := [68, 79, 78, 69]

def doneLine : List UInt8 := doneBytes ++ [13, 10]

variable {idle : Idle} {l : IdleStep}

namespace Idle

def start : Idle := ⟨[], [], [], .idling⟩

def poll (idle : Idle) (n : Nat) : Idle :=
  let buf := idle.buf ++ idle.unread.take n
  let idle := { idle with unread := idle.unread.drop n, taken := idle.taken ++ idle.unread.take n }
  if buf.length = 4 then
    if doneBytes <:+: buf then { idle with buf := [], phase := .completed } else { idle with buf := [] }
  else { idle with buf := buf }

def notify (idle : Idle) (notification : PushNotification) (written : Bool) : Idle :=
  let idle := { idle with buf := [] }
  if (notification.hasMailboxChanges || notification.hasEmailChanges) && !written then
    { idle with phase := .failed }
  else idle

def step (idle : Idle) (l : IdleStep) : Option Idle :=
  if idle.phase = .idling then
    match l with
    | .arrive bytes =>
      if idle.taken ++ idle.unread ++ bytes <+: doneLine then
        some { idle with unread := idle.unread ++ bytes }
      else none
    | .poll n =>
      if n ≤ idle.unread.length ∧ idle.buf.length + n ≤ 4 then some (idle.poll n) else none
    | .notify notification written => some (idle.notify notification written)
    | .channelClosed | .readError | .timeout => some { idle with phase := .failed }
  else none

/-- No notification comes while the read holds a part of its four bytes. -/
def Calm (idle : Idle) (l : IdleStep) : Prop :=
  match l with
  | .notify .. => idle.buf = []
  | _ => True

/-- The command does not idle any more when the last byte of `DONE` has been read. -/
def Heard (idle : Idle) : Prop := doneBytes.length ≤ idle.taken.length → idle.phase ≠ .idling

/-! ## Before a notification cuts into a read -/

structure Whole (idle : Idle) : Prop where
  sent : idle.taken ++ idle.unread <+: doneLine
  held : idle.phase = .idling → idle.buf = idle.taken ∧ idle.taken.length < 4

theorem whole_start : Whole start := ⟨ nil_prefix, fun _ => ⟨rfl, by decide⟩⟩

theorem Whole.heard (h : Whole idle) : Heard idle := by
  intro hlong hphase
  have := (h.held hphase).2
  simp [doneBytes] at hlong
  omega

theorem sent_poll (h : idle.taken ++ idle.unread <+: doneLine) (n : Nat) :
    (idle.taken ++ idle.unread.take n) ++ idle.unread.drop n <+: doneLine := by
  rwa [append_assoc, take_append_drop]

theorem poll_taken (idle : Idle) (n : Nat) :
    (idle.poll n).taken = idle.taken ++ idle.unread.take n ∧ (idle.poll n).unread = idle.unread.drop n := by
  simp only [poll]
  split_ifs <;> exact ⟨rfl, rfl⟩

theorem poll_cases (idle : Idle) (n : Nat) :
    ((idle.buf ++ idle.unread.take n).length ≠ 4 ∧ (idle.poll n).buf = idle.buf ++ idle.unread.take n ∧
      (idle.poll n).phase = idle.phase) ∨
    (idle.buf ++ idle.unread.take n = doneBytes ∧ (idle.poll n).phase = .completed) ∨
    ((idle.buf ++ idle.unread.take n).length = 4 ∧ idle.buf ++ idle.unread.take n ≠ doneBytes ∧
      (idle.poll n).buf = [] ∧ (idle.poll n).phase = idle.phase) := by
  simp only [poll]
  by_cases hlength : (idle.buf ++ idle.unread.take n).length = 4
  · by_cases hdone : idle.buf ++ idle.unread.take n = doneBytes
    · exact .inr (.inl ⟨hdone, by rw [if_pos hlength, if_pos (hdone ▸ infix_rfl)]⟩)
    · have hinfix : ¬ doneBytes <:+: idle.buf ++ idle.unread.take n :=
        fun h => hdone (h.eq_of_length (by rw [hlength]; rfl)).symm
      refine .inr (.inr ⟨hlength, hdone, ?_⟩)
      rw [if_pos hlength, if_neg hinfix]
      exact ⟨rfl, rfl⟩
  · exact .inl ⟨hlength, by rw [if_neg hlength]; exact ⟨rfl, rfl⟩⟩

theorem Whole.poll (h : Whole idle) (hphase : idle.phase = .idling) {n : Nat}
    (hn : idle.buf.length + n ≤ 4) : Whole (idle.poll n) := by
  obtain ⟨hbuf, hlt⟩ := h.held hphase
  obtain ⟨htaken, hunread⟩ := idle.poll_taken n
  have hsent := sent_poll h.sent n
  refine ⟨by rwa [htaken, hunread], fun hidling => ?_⟩
  have hlen : (idle.buf ++ idle.unread.take n).length ≤ 4 := by simp; omega
  rcases idle.poll_cases n with ⟨hne, hheld, -⟩ | ⟨-, hcompleted⟩ | ⟨hfour, hnot, -⟩
  · rw [hheld, htaken, hbuf]
    rw [hbuf] at hne hlen
    exact ⟨rfl, by omega⟩
  · rw [hcompleted] at hidling
    cases hidling
  · refine absurd ?_ hnot
    rw [hbuf] at hfour ⊢
    have hprefix := (prefix_append (idle.taken ++ idle.unread.take n) (idle.unread.drop n)).trans hsent
    have htake := prefix_iff_eq_take.mp hprefix
    rwa [hfour] at htake

theorem Whole.step {next : Idle} (h : Whole idle) (hcalm : Calm idle l)
    (hstep : idle.step l = some next) : Whole next := by
  simp only [Idle.step] at hstep
  split_ifs at hstep with hphase
  cases l with
  | arrive bytes =>
    simp only at hstep
    split_ifs at hstep with hsent
    cases hstep
    exact ⟨by rwa [← append_assoc], h.held⟩
  | poll n =>
    simp only at hstep
    split_ifs at hstep with hn
    cases hstep
    exact h.poll hphase hn.2
  | notify notification written =>
    cases hstep
    have hbuf : idle.buf = [] := hcalm
    simp only [Idle.notify]
    split_ifs
    · exact ⟨h.sent, nofun⟩
    · exact ⟨h.sent, fun hidling => ⟨hbuf ▸ (h.held hidling).1, (h.held hidling).2⟩⟩
  | channelClosed | readError | timeout =>
    cases hstep
    exact ⟨h.sent, nofun⟩

/-! ## After a notification has cut into a read -/

/-- The read holds what was taken behind the first bytes, which are lost. -/
structure Cut (idle : Idle) : Prop where
  sent : idle.taken ++ idle.unread <+: doneLine
  lost : ∃ k, 1 ≤ k ∧ k ≤ idle.taken.length ∧ idle.buf = idle.taken.drop k
  phase : idle.phase ≠ .completed

theorem drop_ne_doneBytes {bytes : List UInt8} (h : bytes <+: doneLine) {k : Nat} (hk : 1 ≤ k) :
    bytes.drop k ≠ doneBytes := by
  intro heq
  have htake := prefix_iff_eq_take.mp h
  have hlength : bytes.length = 4 + k := by
    have := congrArg List.length heq
    simp [doneBytes] at this
    omega
  have hle : bytes.length ≤ 6 := h.length_le
  rw [htake, hlength] at heq
  obtain rfl | rfl : k = 1 ∨ k = 2 := by omega
  · revert heq
    decide
  · revert heq
    decide

theorem Cut.poll (h : Cut idle) (n : Nat) : Cut (idle.poll n) := by
  obtain ⟨htaken, hunread⟩ := idle.poll_taken n
  have hsent := sent_poll h.sent n
  obtain ⟨k, hk, hle, hbuf⟩ := h.lost
  have hdrop : idle.buf ++ idle.unread.take n = (idle.taken ++ idle.unread.take n).drop k := by
    rw [hbuf, drop_append_of_le_length hle]
  have hprefix := (prefix_append (idle.taken ++ idle.unread.take n) (idle.unread.drop n)).trans hsent
  rw [← htaken, ← hunread] at hsent
  rcases idle.poll_cases n with ⟨-, hheld, hphase⟩ | ⟨hdone, -⟩ | ⟨-, -, hheld, hphase⟩
  · refine ⟨hsent, ⟨k, hk, ?_, ?_⟩, hphase ▸ h.phase⟩
    · rw [htaken]
      simp
      omega
    · rw [hheld, htaken, hdrop]
  · rw [hdrop] at hdone
    exact absurd hdone (drop_ne_doneBytes hprefix hk)
  · refine ⟨hsent, ⟨_, ?_, Nat.le_refl _, ?_⟩, hphase ▸ h.phase⟩
    · rw [htaken]
      simp
      omega
    · rw [hheld, drop_length]

theorem Cut.notify (hsent : idle.taken ++ idle.unread <+: doneLine) (htaken : 1 ≤ idle.taken.length)
    (hphase : idle.phase = .idling) (notification : PushNotification) (written : Bool) :
    Cut (idle.notify notification written) := by
  simp only [Idle.notify]
  split_ifs
  · exact ⟨hsent, ⟨_, htaken, Nat.le_refl _, by simp⟩, nofun⟩
  · exact ⟨hsent, ⟨_, htaken, Nat.le_refl _, by simp⟩, by simp [hphase]⟩

theorem Cut.step {next : Idle} (h : Cut idle) (hstep : idle.step l = some next) : Cut next := by
  simp only [Idle.step] at hstep
  split_ifs at hstep with hphase
  obtain ⟨k, hk, hle, -⟩ := h.lost
  cases l with
  | arrive bytes =>
    simp only at hstep
    split_ifs at hstep with hsent
    cases hstep
    exact ⟨by rwa [← append_assoc], h.lost, h.phase⟩
  | poll n =>
    simp only at hstep
    split_ifs at hstep
    cases hstep
    exact h.poll n
  | notify notification written =>
    cases hstep
    exact .notify h.sent (by omega) hphase notification written
  | channelClosed | readError | timeout =>
    cases hstep
    exact ⟨h.sent, h.lost, nofun⟩

theorem step_taken {next : Idle} (hstep : idle.step l = some next)
    (hlt : idle.taken.length < next.taken.length) : next.phase ≠ .failed := by
  simp only [Idle.step] at hstep
  split_ifs at hstep with hphase
  cases l with
  | arrive bytes =>
    simp only at hstep
    split_ifs at hstep
    cases hstep
    exact absurd hlt (Nat.lt_irrefl _)
  | poll n =>
    simp only at hstep
    split_ifs at hstep
    cases hstep
    rcases idle.poll_cases n with ⟨-, -, hnext⟩ | ⟨-, hnext⟩ | ⟨-, -, -, hnext⟩ <;> simp [hnext, hphase]
  | notify notification written =>
    cases hstep
    simp only [Idle.notify] at hlt
    split_ifs at hlt <;> exact absurd hlt (Nat.lt_irrefl _)
  | channelClosed | readError | timeout =>
    cases hstep
    exact absurd hlt (Nat.lt_irrefl _)

theorem Cut.unheard {last : Idle} {ls : List IdleStep} (h : Cut idle)
    (hshort : idle.taken.length < 4) (hrun : run Idle.step idle ls = some last)
    (hlong : 4 ≤ last.taken.length) :
    ∃ ls' s, ls' <+: ls ∧ run Idle.step idle ls' = some s ∧ ¬ Heard s := by
  induction ls generalizing idle with
  | nil =>
    cases hrun
    omega
  | cons l ls ih =>
    obtain ⟨next, hnext, hrest⟩ := run_cons hrun
    have hcut := h.step hnext
    rcases Nat.lt_or_ge next.taken.length 4 with hstill | hread
    · obtain ⟨ls', s, hprefix, hreached, hunheard⟩ := ih hcut hstill hrest
      refine ⟨l :: ls', s, cons_prefix_cons.mpr ⟨rfl, hprefix⟩, ?_, hunheard⟩
      rw [run, hnext]
      exact hreached
    · refine ⟨[l], next, by simp, by simp [run, hnext], fun hheard => ?_⟩
      have hfailed := step_taken hnext (by omega)
      have hcompleted := hcut.phase
      have hidling := hheard hread
      cases hphase : next.phase <;> simp_all

/-! ## Runs -/

instance (idle : Idle) (l : IdleStep) : Decidable (Calm idle l) := by
  unfold Calm
  split <;> infer_instance

theorem calm_of_heard {last : Idle} {ls : List IdleStep} (h : Whole idle)
    (hrun : run step idle ls = some last) (hlong : 4 ≤ last.taken.length)
    (hheard : ∀ ls' s, ls' <+: ls → run step idle ls' = some s → Heard s) :
    Along step Calm idle ls := by
  induction ls generalizing idle with
  | nil => trivial
  | cons l ls ih =>
    obtain ⟨next, hnext, hrest⟩ := run_cons hrun
    have hlater : ∀ ls' s, ls' <+: ls → run step next ls' = some s → Heard s := by
      intro ls' s hprefix hreached
      refine hheard (l :: ls') s (cons_prefix_cons.mpr ⟨rfl, hprefix⟩) ?_
      rw [run, hnext]
      exact hreached
    by_cases hcalm : Calm idle l
    · refine ⟨hcalm, fun other hother => ?_⟩
      cases hnext.symm.trans hother
      exact ih (h.step hcalm hnext) hrest hlater
    · exfalso
      cases l with
      | notify notification written =>
        simp only [step] at hnext
        split_ifs at hnext with hphase
        cases hnext
        obtain ⟨hbuf, hlt⟩ := h.held hphase
        have hne : idle.buf ≠ [] := hcalm
        have hcut := Cut.notify h.sent (length_pos_of_ne_nil (hbuf ▸ hne)) hphase notification written
        have hshort : (idle.notify notification written).taken.length < 4 := by
          simp only [Idle.notify]
          split_ifs <;> exact hlt
        obtain ⟨ls', s, hprefix, hreached, hunheard⟩ := hcut.unheard hshort hrest hlong
        exact hunheard (hlater ls' s hprefix hreached)
      | _ => exact hcalm trivial

/-- In a run that reads all of `DONE`: every state that is reached has heard it exactly when no notification
has come while a read held a part of its bytes. -/
theorem idle_ends_iff {ls : List IdleStep} {last : Idle} (hrun : run step start ls = some last)
    (hlong : doneBytes.length ≤ last.taken.length) :
    (∀ ls' s, ls' <+: ls → run step start ls' = some s → Heard s) ↔ Along step Calm start ls := by
  constructor
  · exact calm_of_heard whole_start hrun hlong
  · rintro hcalm _ s ⟨rest, rfl⟩ hreached
    refine Whole.heard ?_
    exact run_invariant Whole (fun _ _ _ hwhole hstep => hwhole.step hstep) (hcalm.of_append hreached).1
      whole_start hreached

/-- The word in two reads, with nothing between them. -/
theorem idle_ends_calm :
    (∀ ls' s, ls' <+: [.arrive [68, 79], .poll 2, .arrive [78, 69, 13, 10], .poll 2] →
      run step start ls' = some s → Heard s) ∧
    run step start [.arrive [68, 79], .poll 2, .arrive [78, 69, 13, 10], .poll 2] =
      some ⟨[13, 10], [], doneBytes, .completed⟩ :=
  have hrun : run step start [.arrive [68, 79], .poll 2, .arrive [78, 69, 13, 10], .poll 2] =
    some ⟨[13, 10], [], doneBytes, .completed⟩ := by decide
  ⟨(idle_ends_iff hrun (by decide)).mpr (by decide), hrun⟩

/-- A notification comes between the two halves of the word. -/
theorem idle_misses_done : ¬ ∀ ls s, run step start ls = some s → Heard s := by
  intro h
  have hrun : run step start [.arrive [68, 79], .poll 2, .notify (.stateChange [.email]) true,
      .arrive [78, 69, 13, 10], .poll 4] = some ⟨[], [], doneLine, .idling⟩ := by decide
  exact h _ _ hrun (by decide) rfl

end Idle

end Bearmail.Imap
