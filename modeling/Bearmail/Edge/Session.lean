import Mathlib.Data.Finset.Card
import Bearmail.Edge.Frame

/-!
# Connection ids and the meter

Ids start at 1, increase by one and are not used again in a session. At most 64 of them are open.
-/

namespace Bearmail.Edge

/-! ## Ids -/

def maxConns : Nat := 64

def checkedSucc (n : UInt64) : Option UInt64 :=
  if n.toNat + 1 < 2 ^ 64 then some (n + 1) else none

theorem toNat_checkedSucc {n m : UInt64} (h : checkedSucc n = some m) : m.toNat = n.toNat + 1 := by
  simp only [checkedSucc] at h
  split at h
  · next hlt =>
    cases h
    rw [UInt64.toNat_add, UInt64.toNat_one, Nat.mod_eq_of_lt hlt]
  · cases h

theorem checkedSucc_of_lt {n m : UInt64} (h : n.toNat < m.toNat) : ∃ next, checkedSucc n = some next :=
  ⟨n + 1, if_pos (by have := m.toNat_lt; omega)⟩

structure IdWindow where
  next : UInt64
  opened : Finset UInt64
  below : ∀ id ∈ opened, id.toNat < next.toNat
  capped : opened.card ≤ maxConns

inductive Admit where
  | opened
  /-- the id was consumed and left closed -/
  | cap
  deriving DecidableEq

namespace IdWindow

def new : IdWindow where
  next := 1
  opened := ∅
  below := by simp
  capped := by simp

def push (window : IdWindow) (next : UInt64) (hnext : checkedSucc window.next = some next)
    (hroom : ¬ maxConns ≤ window.opened.card) : IdWindow where
  next := next
  opened := insert window.next window.opened
  below := by
    intro id hid
    rw [toNat_checkedSucc hnext]
    rcases Finset.mem_insert.mp hid with rfl | hid
    · omega
    · have := window.below id hid
      omega
  capped := (Finset.card_insert_le _ _).trans (by omega)

def skip (window : IdWindow) (next : UInt64) (hnext : checkedSucc window.next = some next) :
    IdWindow where
  next := next
  opened := window.opened
  below := by
    intro id hid
    have := window.below id hid
    rw [toNat_checkedSucc hnext]
    omega
  capped := window.capped

def drop (window : IdWindow) (id : UInt64) : IdWindow where
  next := window.next
  opened := window.opened.erase id
  below := fun id' hid' => window.below id' (Finset.mem_of_mem_erase hid')
  capped := (Finset.card_erase_le).trans window.capped

def alloc (window : IdWindow) : Except ProtocolError (UInt64 × IdWindow) :=
  if hfull : maxConns ≤ window.opened.card then .error .cap
  else
    match hnext : checkedSucc window.next with
    | none => .error .connExhausted
    | some next => .ok (window.next, window.push next hnext hfull)

/-- The Mac side. The other side chose the id, and it must be the next one. At the cap it is consumed all
the same. -/
def admitId (window : IdWindow) (id : UInt64) : Except ProtocolError (Admit × IdWindow) :=
  if id ≠ window.next then .error .badConn
  else
    match hnext : checkedSucc window.next with
    | none => .error .connExhausted
    | some next =>
      if hfull : maxConns ≤ window.opened.card then .ok (.cap, window.skip next hnext)
      else .ok (.opened, window.push next hnext hfull)

def requireOpen (window : IdWindow) (id : UInt64) : Except ProtocolError Unit :=
  if id ∈ window.opened then .ok () else .error .badConn

def close (window : IdWindow) (id : UInt64) : Except ProtocolError IdWindow :=
  if id ∈ window.opened then .ok (window.drop id) else .error .badConn

variable {window window' : IdWindow} {id : UInt64}

theorem alloc_eq_ok (h : window.alloc = .ok (id, window')) :
    id = window.next ∧ window'.next.toNat = window.next.toNat + 1 ∧
      window'.opened = insert window.next window.opened := by
  simp only [alloc] at h
  split at h
  · cases h
  · split at h
    · cases h
    · next next hnext =>
      cases h
      exact ⟨rfl, toNat_checkedSucc hnext, rfl⟩

theorem admitId_eq_ok {outcome : Admit} (h : window.admitId id = .ok (outcome, window')) :
    id = window.next ∧ window'.next.toNat = window.next.toNat + 1 ∧
      (outcome = .cap ∧ window'.opened = window.opened ∨
        outcome = .opened ∧ window'.opened = insert id window.opened) := by
  simp only [IdWindow.admitId] at h
  split at h
  · cases h
  · next hid =>
    obtain rfl : id = window.next := not_ne_iff.mp hid
    split at h
    · cases h
    · next next hnext =>
      split at h
      · cases h
        exact ⟨rfl, toNat_checkedSucc hnext, .inl ⟨rfl, rfl⟩⟩
      · cases h
        exact ⟨rfl, toNat_checkedSucc hnext, .inr ⟨rfl, rfl⟩⟩

theorem admitId_next (h : ∃ next, checkedSucc window.next = some next) :
    ∃ admitted, window.admitId window.next = .ok admitted := by
  obtain ⟨next, hnext⟩ := h
  simp only [IdWindow.admitId, ne_eq, not_true_eq_false, if_false]
  split
  · next hnone => rw [hnone] at hnext; cases hnext
  · split <;> exact ⟨_, rfl⟩

theorem close_eq_ok (h : window.close id = .ok window') :
    id ∈ window.opened ∧ window' = window.drop id := by
  simp only [close] at h
  split at h
  · next hid => cases h; exact ⟨hid, rfl⟩
  · cases h

theorem close_of_mem (h : id ∈ window.opened) : window.close id = .ok (window.drop id) := if_pos h

theorem requireOpen_of_mem (h : id ∈ window.opened) : window.requireOpen id = .ok () := if_pos h

@[simp] theorem mem_drop {id' : UInt64} :
    id' ∈ (window.drop id).opened ↔ id' ≠ id ∧ id' ∈ window.opened := Finset.mem_erase

end IdWindow

/-! ## The meter -/

def pauseAt : Nat := 9 * 2 ^ 30 / 10

structure Meter where
  txBytes : UInt64
  overrideOn : Bool

namespace Meter

def dataAllowed (meter : Meter) : Bool := meter.overrideOn || decide (meter.txBytes.toNat < pauseAt)

def state (meter : Meter) : QuotaState :=
  if meter.overrideOn then .override
  else if pauseAt ≤ meter.txBytes.toNat then .pausedQuota
  else .opened

/-- Whether this write has reached the pause line, and the meter after it. -/
def noteTx (meter : Meter) (n : Nat) : Bool × Meter :=
  let meter' := { meter with txBytes := UInt64.ofNat (min (meter.txBytes.toNat + n) (2 ^ 64 - 1)) }
  (!meter'.dataAllowed, meter')

end Meter

/-! ## Ports -/

def loopbackFor (publicPort : UInt16) : Option UInt16 :=
  (helloPairs.find? fun pair => pair.1 = publicPort).map Prod.snd

def wantsProxy (publicPort : UInt16) : Bool := publicPort = 25 || publicPort = 465 || publicPort = 993

end Bearmail.Edge
