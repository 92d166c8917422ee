import Bearmail.Edge.Relay
import Bearmail.Lib.Runs

/-!
# What holds in every state of the tunnel

The ids that are on their way to the Mac follow those that it has seen. Nothing is said about an id before
the Mac has seen it, and every way in which the VM closes an id takes it out of the window before the Mac
hears of it.
-/

namespace Bearmail.Edge

open List Function

/-! ## Frames and ids -/

def Frame.about : Frame → Option UInt64
  | .open id .. | .openOk id | .openFail id _ | .data id _ | .close id _ => some id
  | .hello | .helloOk .. | .ping _ | .pong _ | .quota .. => none

def Frame.opens : Frame → Option UInt64
  | .open id .. => some id
  | _ => none

def Frame.closes : Frame → Option UInt64
  | .close id _ => some id
  | _ => none

def Frame.fails : Frame → Option UInt64
  | .openFail id _ => some id
  | _ => none

def Accept.pending : Accept → List UInt64
  | .keep id _ _ | .sendOpen id _ _ => [id]
  | .off | .check | .listen | .done => []

/-- The ids of which the Mac does not know yet. -/
def Tunnel.opening (s : Tunnel) : List UInt64 := s.toMac.filterMap Frame.opens ++ s.vm.accept.pending

@[simp]
def Uplink.GivesBack : Option Uplink → Prop
  | some (.giveBack _) => True
  | _ => False

@[simp]
def Uplink.SendsClose : Option Uplink → Prop
  | some (.sendClose _) => True
  | _ => False

/-- The thread has claimed the end of its connection and has not yet told the Mac. -/
@[simp]
def Uplink.Ends (uplink : Option Uplink) : Prop := GivesBack uplink ∨ SendsClose uplink

def Vm.acts (vm : Vm) : List PauseAct := (vm.pausing.map Prod.snd).getD []

structure Inv (s : Tunnel) : Prop where
  accept_off : s.vm.forwarding = false → s.vm.accept = .off
  pause_stop : s.vm.stop = false → s.vm.acts = []
  span : s.opening.map UInt64.toNat = List.range' s.mac.ids.next.toNat s.opening.length
  next : s.vm.ids.next.toNat = s.mac.ids.next.toNat + s.opening.length
  opening_open : ∀ id ∈ s.opening, id ∈ s.vm.ids.opened
  fresh_uplink : ∀ id, s.mac.ids.next.toNat ≤ id.toNat → s.vm.uplinks id = none
  fresh_writer : ∀ id, s.mac.ids.next.toNat ≤ id.toNat → id ∉ s.vm.writers
  fresh_closed : ∀ id, s.mac.ids.next.toNat ≤ id.toNat → id ∉ s.vm.closed
  fresh_retire : ∀ id, s.mac.ids.next.toNat ≤ id.toNat → .retire id ∉ s.vm.acts
  fresh_mac : ∀ id, s.mac.ids.next.toNat ≤ id.toNat → s.mac.uplinks id = none
  fresh_toVm : ∀ id, s.mac.ids.next.toNat ≤ id.toNat → ∀ frame ∈ s.toVm, frame.about ≠ some id
  closed_open : ∀ id ∈ s.vm.closed, id ∈ s.vm.ids.opened → Uplink.GivesBack (s.vm.uplinks id)
  ends_closed : ∀ id, Uplink.Ends (s.vm.uplinks id) → id ∈ s.vm.closed
  sends_close : ∀ id, Uplink.SendsClose (s.vm.uplinks id) → id ∉ s.vm.ids.opened
  pause_close : ∀ id, .sendClose id ∈ s.vm.acts → id ∈ s.vm.closed ∧ id ∉ s.vm.ids.opened
  pause_retire : ∀ id, .retire id ∈ s.vm.acts → id ∈ s.vm.ids.opened → id ∈ s.vm.writers
  close_toMac : ∀ id, ∀ frame ∈ s.toMac, frame.closes = some id → id ∈ s.vm.closed ∧ id ∉ s.vm.ids.opened
  fail_toVm : ∀ id, ∀ frame ∈ s.toVm, frame.fails = some id → id ∉ s.mac.ids.opened
  vm_history : s.vm.history.Nodup ∧ ∀ id ∈ s.vm.history, id.toNat < s.vm.ids.next.toNat
  mac_history : s.mac.history.Nodup ∧ ∀ id ∈ s.mac.history, id.toNat < s.mac.ids.next.toNat

theorem inv_start (opts : VmOpts) : Inv (.start opts) := by
  constructor <;>
    simp [Tunnel.start, Tunnel.opening, Accept.pending, Frame.opens, Frame.about, Uplink.Ends,
      Uplink.GivesBack, Uplink.SendsClose, Vm.acts, Frame.fails, IdWindow.new]

variable {opts : VmOpts} {s s' : Tunnel}

/-! ## What a step is made of -/

variable {id : UInt64} {frame : Frame} {rest : List Frame} {next : Uplink}
  {srcPort publicPort : UInt16} {addr : Ipv4Addr} {order : List UInt64} {io : Bool}

theorem Vm.retire_cases {vm vm' : Vm} {first : Bool} (h : vm.retire id = .ok (first, vm')) :
    id ∈ vm.ids.opened ∧ (id ∈ vm.writers ∧ first = decide (id ∉ vm.closed) ∧
          vm' = { vm with
            ids := vm.ids.drop id, writers := vm.writers.erase id, closed := insert id vm.closed
            waiting := vm.waiting.erase id } ∨
        id ∉ vm.writers ∧ first = false ∧
          vm' = { vm with ids := vm.ids.drop id, waiting := vm.waiting.erase id }) := by
  cases hclose : vm.ids.close id with
  | error e => simp [Vm.retire, hclose, bind, Except.bind] at h
  | ok ids =>
    obtain ⟨hopen, rfl⟩ := IdWindow.close_eq_ok hclose
    refine ⟨hopen, ?_⟩
    simp only [Vm.retire, hclose, bind, Except.bind, pure, Except.pure] at h
    split at h
    · next hwriter =>
      cases h
      exact .inl ⟨hwriter, rfl, rfl⟩
    · next hwriter =>
      cases h
      exact .inr ⟨hwriter, rfl, rfl⟩

namespace Inv

variable (hinv : Inv s)
include hinv

theorem fresh_of_opening (h : id ∈ s.opening) : s.mac.ids.next.toNat ≤ id.toNat := by
  have hmem : id.toNat ∈ s.opening.map UInt64.toNat := mem_map_of_mem h
  rw [hinv.span, mem_range'_1] at hmem
  exact hmem.1

theorem sendMac (hopens : frame.opens = none)
    (hcloses : ∀ id, frame.closes = some id → id ∈ s.vm.closed ∧ id ∉ s.vm.ids.opened) :
    Inv (s.sendMac frame) := by
  have hopening : (s.sendMac frame).opening = s.opening := by
    simp [Tunnel.opening, Tunnel.sendMac, hopens]
  refine { hinv with span := ?_, next := ?_, opening_open := ?_, close_toMac := ?_ }
  · rw [hopening]; exact hinv.span
  · rw [hopening]; exact hinv.next
  · rw [hopening]; exact hinv.opening_open
  · intro id other hother hid
    rcases mem_append.mp hother with hother | hother
    · exact hinv.close_toMac id other hother hid
    · obtain rfl := mem_singleton.mp hother
      exact hcloses id hid

theorem sendVm (habout : ∀ id, frame.about = some id → id.toNat < s.mac.ids.next.toNat)
    (hfails : ∀ id, frame.fails = some id → id ∉ s.mac.ids.opened) : Inv (s.sendVm frame) := by
  refine { hinv with fresh_toVm := ?_, fail_toVm := ?_ }
  · intro id hid other hother
    rcases mem_append.mp hother with hother | hother
    · exact hinv.fresh_toVm id hid other hother
    · obtain rfl := mem_singleton.mp hother
      intro heq
      exact absurd hid (by have := habout id heq; exact Nat.not_le.mpr this)
  · intro id other hother hid
    rcases mem_append.mp hother with hother | hother
    · exact hinv.fail_toVm id other hother hid
    · obtain rfl := mem_singleton.mp hother
      exact hfails id hid

theorem popVm (h : s.toVm = frame :: rest) : Inv { s with toVm := rest } := by
  have hsub : ∀ other ∈ rest, other ∈ s.toVm := fun other hother => by simp [h, hother]
  refine { hinv with fresh_toVm := ?_, fail_toVm := ?_ }
  · exact fun id hid other hother => hinv.fresh_toVm id hid other (hsub other hother)
  · exact fun id other hother => hinv.fail_toVm id other (hsub other hother)

theorem popMac (h : s.toMac = frame :: rest) (hopens : frame.opens = none) :
    Inv { s with toMac := rest } := by
  have hsub : ∀ other ∈ rest, other ∈ s.toMac := fun other hother => by simp [h, hother]
  have hopening : { s with toMac := rest }.opening = s.opening := by
    simp [Tunnel.opening, h, hopens]
  refine { hinv with span := ?_, next := ?_, opening_open := ?_, close_toMac := ?_ }
  · rw [hopening]; exact hinv.span
  · rw [hopening]; exact hinv.next
  · rw [hopening]; exact hinv.opening_open
  · exact fun id other hother => hinv.close_toMac id other (hsub other hother)

theorem setUplink (hsome : s.vm.uplinks id ≠ none) (hends : Uplink.Ends (some next) → id ∈ s.vm.closed)
    (hsends : Uplink.SendsClose (some next) → id ∉ s.vm.ids.opened)
    (hopen : id ∈ s.vm.closed → id ∈ s.vm.ids.opened → Uplink.GivesBack (some next)) :
    Inv { s with vm := s.vm.setUplink id next } := by
  have hself : (s.vm.setUplink id next).uplinks id = some next := update_self ..
  have hne : ∀ other, other ≠ id → (s.vm.setUplink id next).uplinks other = s.vm.uplinks other :=
    fun other hother => update_of_ne hother ..
  refine { hinv with
    fresh_uplink := fun other hfresh => ?_, closed_open := fun other hclosed hother => ?_,
    ends_closed := fun other hends' => ?_, sends_close := fun other hsends' => ?_ }
  all_goals rcases eq_or_ne other id with rfl | hne'
  · exact absurd (hinv.fresh_uplink other hfresh) hsome
  · exact (hne other hne').trans (hinv.fresh_uplink other hfresh)
  · exact hself.symm ▸ hopen hclosed hother
  · exact (hne other hne').symm ▸ hinv.closed_open other hclosed hother
  · exact hends (hself ▸ hends')
  · exact hinv.ends_closed other (hne other hne' ▸ hends')
  · exact hsends (hself ▸ hsends')
  · exact hinv.sends_close other (hne other hne' ▸ hsends')

theorem lt_of_uplink (h : s.vm.uplinks id ≠ none) :
    id.toNat < s.mac.ids.next.toNat :=
  Nat.lt_of_not_le fun hfresh => h (hinv.fresh_uplink id hfresh)

theorem lt_of_uplinkMac (h : s.mac.uplinks id ≠ none) :
    id.toNat < s.mac.ids.next.toNat :=
  Nat.lt_of_not_le fun hfresh => h (hinv.fresh_mac id hfresh)

theorem lt_of_toVm (h : frame ∈ s.toVm) (habout : frame.about = some id) :
    id.toNat < s.mac.ids.next.toNat :=
  Nat.lt_of_not_le fun hfresh => hinv.fresh_toVm id hfresh frame h habout

theorem setUplinkMac (hid : id.toNat < s.mac.ids.next.toNat) :
    Inv { s with mac := s.mac.setUplink id next } := by
  refine { hinv with fresh_mac := fun other hfresh => ?_ }
  have hother : other ≠ id := by
    rintro rfl
    exact Nat.not_le.mpr hid hfresh
  exact (update_of_ne hother ..).trans (hinv.fresh_mac other hfresh)

theorem claim (hsome : s.vm.uplinks id ≠ none) (hnext : Uplink.GivesBack (some next))
    (hsends : ¬ Uplink.SendsClose (some next)) :
    Inv { s with vm := { s.vm with closed := insert id s.vm.closed }.setUplink id next } := by
  have hself : (s.vm.setUplink id next).uplinks id = some next := update_self ..
  have hne : ∀ other, other ≠ id → (s.vm.setUplink id next).uplinks other = s.vm.uplinks other :=
    fun other hother => update_of_ne hother ..
  have hold := hinv.lt_of_uplink hsome
  refine { hinv with
    fresh_uplink := fun other hfresh => ?_, fresh_closed := fun other hfresh => ?_,
    closed_open := fun other hclosed hother => ?_, ends_closed := fun other hends => ?_,
    sends_close := fun other hsend => ?_,
    pause_close := fun other hact => ?_, close_toMac := fun other frame hframe hcloses => ?_ }
  · have hother : other ≠ id := by
      rintro rfl
      exact Nat.not_le.mpr hold hfresh
    exact (hne other hother).trans (hinv.fresh_uplink other hfresh)
  · rintro hmem
    rcases Finset.mem_insert.mp hmem with rfl | hmem
    · exact Nat.not_le.mpr hold hfresh
    · exact hinv.fresh_closed other hfresh hmem
  · rcases eq_or_ne other id with rfl | hne'
    · exact hself.symm ▸ hnext
    · have hclosed' := Finset.mem_of_mem_insert_of_ne hclosed hne'
      exact (hne other hne').symm ▸ hinv.closed_open other hclosed' hother
  · rcases eq_or_ne other id with rfl | hne'
    · exact Finset.mem_insert_self ..
    · have hends' : Uplink.Ends (s.vm.uplinks other) := hne other hne' ▸ hends
      exact Finset.mem_insert_of_mem (hinv.ends_closed other hends')
  · rcases eq_or_ne other id with rfl | hne'
    · exact absurd (hself ▸ hsend) hsends
    · have hsend' : Uplink.SendsClose (s.vm.uplinks other) := hne other hne' ▸ hsend
      exact hinv.sends_close other hsend'
  · exact ⟨Finset.mem_insert_of_mem (hinv.pause_close other hact).1, (hinv.pause_close other hact).2⟩
  · have h := hinv.close_toMac other frame hframe hcloses
    exact ⟨Finset.mem_insert_of_mem h.1, h.2⟩

theorem drop (hid : id.toNat < s.mac.ids.next.toNat) :
    Inv { s with vm := { s.vm with ids := s.vm.ids.drop id } } := by
  have hsub : ∀ other, other ∈ (s.vm.ids.drop id).opened → other ∈ s.vm.ids.opened :=
    fun other hother => (IdWindow.mem_drop.mp hother).2
  refine { hinv with
    opening_open := fun other hother => ?_
    closed_open := fun other hclosed hother => hinv.closed_open other hclosed (hsub other hother)
    sends_close := fun other hsend hother => hinv.sends_close other hsend (hsub other hother)
    pause_close := fun other hact => ?_
    pause_retire := fun other hact hother => hinv.pause_retire other hact (hsub other hother)
    close_toMac := fun other frame hframe hcloses => ?_ }
  · refine IdWindow.mem_drop.mpr ⟨?_, hinv.opening_open other hother⟩
    rintro rfl
    exact Nat.not_le.mpr hid (hinv.fresh_of_opening hother)
  · have h := hinv.pause_close other hact
    exact ⟨h.1, fun hother => h.2 (hsub other hother)⟩
  · have h := hinv.close_toMac other frame hframe hcloses
    exact ⟨h.1, fun hother => h.2 (hsub other hother)⟩

theorem giveUp (hid : id.toNat < s.mac.ids.next.toNat)
    (hclosed : id ∉ s.vm.ids.opened) (waiting : Finset UInt64) :
    Inv { s with vm := { s.vm with
      writers := s.vm.writers.erase id, closed := insert id s.vm.closed, waiting := waiting } } := by
  refine { hinv with
    fresh_writer := fun other hfresh hother =>
      hinv.fresh_writer other hfresh (Finset.mem_of_mem_erase hother)
    fresh_closed := fun other hfresh hother => ?_
    closed_open := fun other hother hopen => ?_
    ends_closed := fun other hends => Finset.mem_insert_of_mem (hinv.ends_closed other hends)
    pause_close := fun other hact => ?_
    pause_retire := fun other hact hopen => ?_
    close_toMac := fun other frame hframe hcloses => ?_ }
  · rcases Finset.mem_insert.mp hother with rfl | hother
    · exact Nat.not_le.mpr hid hfresh
    · exact hinv.fresh_closed other hfresh hother
  · rcases Finset.mem_insert.mp hother with rfl | hother
    · exact absurd hopen hclosed
    · exact hinv.closed_open other hother hopen
  · have h := hinv.pause_close other hact
    exact ⟨Finset.mem_insert_of_mem h.1, h.2⟩
  · have hne : other ≠ id := by
      rintro rfl
      exact hclosed hopen
    exact Finset.mem_erase.mpr ⟨hne, hinv.pause_retire other hact hopen⟩
  · have h := hinv.close_toMac other frame hframe hcloses
    exact ⟨Finset.mem_insert_of_mem h.1, h.2⟩

theorem setPausing {pausing : Option (Bool × List PauseAct)} {stop : Bool}
    (hstop : stop = false → (pausing.map Prod.snd).getD [] = [])
    (hclose : ∀ id, .sendClose id ∈ (pausing.map Prod.snd).getD [] →
      id ∈ s.vm.closed ∧ id ∉ s.vm.ids.opened)
    (hfresh : ∀ id, s.mac.ids.next.toNat ≤ id.toNat → .retire id ∉ (pausing.map Prod.snd).getD [])
    (hretire : ∀ id, .retire id ∈ (pausing.map Prod.snd).getD [] → id ∈ s.vm.ids.opened →
      id ∈ s.vm.writers) :
    Inv { s with vm := { s.vm with pausing := pausing, stop := stop } } :=
  { hinv with pause_stop := hstop, fresh_retire := hfresh, pause_close := hclose, pause_retire := hretire }

theorem startUplink (hid : id.toNat < s.mac.ids.next.toNat)
    (hopen : id ∈ s.vm.ids.opened) (io : Bool) : Inv { s with vm := s.vm.startUplink id io } := by
  cases io with
  | false => exact hinv
  | true =>
    have hself : (s.vm.startUplink id true).uplinks id = some .check := update_self ..
    have hne : ∀ other, other ≠ id →
        (s.vm.startUplink id true).uplinks other = s.vm.uplinks other :=
      fun other hother => update_of_ne hother ..
    have hold : ∀ other, s.mac.ids.next.toNat ≤ other.toNat → other ≠ id := by
      rintro other hfresh rfl
      exact Nat.not_le.mpr hid hfresh
    have hkeep : ∀ other, other ∈ s.vm.closed ∧ other ∉ s.vm.ids.opened →
        other ∈ s.vm.closed.erase id ∧ other ∉ s.vm.ids.opened := by
      rintro other ⟨hclosed, hother⟩
      refine ⟨Finset.mem_erase.mpr ⟨?_, hclosed⟩, hother⟩
      rintro rfl
      exact hother hopen
    refine { hinv with
      fresh_uplink := fun other hfresh => ?_
      fresh_writer := fun other hfresh hother => ?_
      fresh_closed := fun other hfresh hother =>
        hinv.fresh_closed other hfresh (Finset.mem_of_mem_erase hother)
      closed_open := fun other hclosed hother => ?_
      ends_closed := fun other hends => ?_
      sends_close := fun other hsends => ?_
      pause_close := fun other hact => hkeep other (hinv.pause_close other hact)
      pause_retire := fun other hact hother =>
        Finset.mem_insert_of_mem (hinv.pause_retire other hact hother)
      close_toMac := fun other frame hframe hcloses =>
        hkeep other (hinv.close_toMac other frame hframe hcloses) }
    · exact (hne other (hold other hfresh)).trans (hinv.fresh_uplink other hfresh)
    · have hmem := Finset.mem_of_mem_insert_of_ne hother (hold other hfresh)
      exact hinv.fresh_writer other hfresh hmem
    · obtain ⟨hne', hclosed⟩ := Finset.mem_erase.mp hclosed
      exact (hne other hne').symm ▸ hinv.closed_open other hclosed hother
    · rcases eq_or_ne other id with rfl | hne'
      · exact (hself ▸ hends : Uplink.Ends (some .check)).elim False.elim False.elim
      · exact Finset.mem_erase.mpr ⟨hne', hinv.ends_closed other (hne other hne' ▸ hends)⟩
    · rcases eq_or_ne other id with rfl | hne'
      · exact (hself ▸ hsends : Uplink.SendsClose (some .check)).elim
      · exact hinv.sends_close other (hne other hne' ▸ hsends)

theorem giveOut {ids : IdWindow} (haccept : s.vm.accept = .listen)
    (halloc : s.vm.ids.alloc = .ok (id, ids)) :
    Inv { s with vm := { s.vm with
      ids := ids, history := s.vm.history ++ [id], accept := .keep id srcPort addr } } := by
  obtain ⟨rfl, hnext, hopened⟩ := IdWindow.alloc_eq_ok halloc
  have hpending : s.opening = s.toMac.filterMap Frame.opens := by
    simp [Tunnel.opening, haccept, Accept.pending]
  have hopening : { s with vm := { s.vm with
      ids := ids, history := s.vm.history ++ [s.vm.ids.next],
      accept := .keep s.vm.ids.next srcPort addr } }.opening = s.opening ++ [s.vm.ids.next] := by
    rw [hpending]
    rfl
  have hfresh : s.mac.ids.next.toNat ≤ s.vm.ids.next.toNat := hinv.next ▸ Nat.le_add_right ..
  have hmem : ∀ other, other ∈ ids.opened → other = s.vm.ids.next ∨ other ∈ s.vm.ids.opened :=
    fun other hother => Finset.mem_insert.mp (hopened ▸ hother)
  refine { hinv with
    accept_off := fun hforwarding => by simp [hinv.accept_off hforwarding] at haccept
    span := ?_
    next := ?_
    opening_open := fun other hother => ?_
    closed_open := fun other hclosed hother => ?_
    sends_close := fun other hsends hother => ?_
    pause_close := fun other hact => ?_
    pause_retire := fun other hact hother => ?_
    close_toMac := fun other frame hframe hcloses => ?_
    vm_history := ⟨?_, fun other hother => ?_⟩ }
  · simp [hopening, hinv.span, range'_1_concat, hinv.next]
  · rw [hopening, length_append, length_singleton]
    have := hinv.next
    simp only at hnext ⊢
    omega
  · rw [hopening] at hother
    rw [hopened]
    rcases mem_append.mp hother with hother | hother
    · exact Finset.mem_insert_of_mem (hinv.opening_open other hother)
    · exact mem_singleton.mp hother ▸ Finset.mem_insert_self ..
  · rcases hmem other hother with rfl | hother
    · exact absurd hclosed (hinv.fresh_closed _ hfresh)
    · exact hinv.closed_open other hclosed hother
  · rcases hmem other hother with rfl | hother
    · simp [hinv.fresh_uplink _ hfresh, Uplink.SendsClose] at hsends
    · exact hinv.sends_close other hsends hother
  · obtain ⟨hclosed, hother⟩ := hinv.pause_close other hact
    refine ⟨hclosed, fun hopen => ?_⟩
    rcases hmem other hopen with rfl | hopen
    · exact hinv.fresh_closed _ hfresh hclosed
    · exact hother hopen
  · rcases hmem other hother with rfl | hother
    · exact absurd hact (hinv.fresh_retire _ hfresh)
    · exact hinv.pause_retire other hact hother
  · obtain ⟨hclosed, hother⟩ := hinv.close_toMac other frame hframe hcloses
    refine ⟨hclosed, fun hopen => ?_⟩
    rcases hmem other hopen with rfl | hopen
    · exact hinv.fresh_closed _ hfresh hclosed
    · exact hother hopen
  · refine nodup_append.mpr ⟨hinv.vm_history.1, nodup_singleton _, ?_⟩
    rintro other hother _ hid rfl
    obtain rfl := mem_singleton.mp hid
    exact Nat.lt_irrefl _ (hinv.vm_history.2 _ hother)
  · show other.toNat < ids.next.toNat
    rcases mem_append.mp hother with hother | hother
    · have := hinv.vm_history.2 other hother
      omega
    · obtain rfl := mem_singleton.mp hother
      omega

theorem sendOpen (haccept : s.vm.accept = .sendOpen id srcPort addr) :
    Inv ({ s with vm := { s.vm with accept := .check } }.sendMac
      (.open id publicPort srcPort addr)) := by
  have hopening : ({ s with vm := { s.vm with accept := .check } }.sendMac
      (.open id publicPort srcPort addr)).opening = s.opening := by
    simp [Tunnel.opening, Tunnel.sendMac, Accept.pending, haccept, Frame.opens]
  refine { hinv with
    accept_off := fun hforwarding => by simp [hinv.accept_off hforwarding] at haccept
    span := ?_, next := ?_, opening_open := ?_
    close_toMac := fun other frame hframe hcloses => ?_ }
  · rw [hopening]; exact hinv.span
  · rw [hopening]; exact hinv.next
  · rw [hopening]; exact hinv.opening_open
  · rcases mem_append.mp hframe with hframe | hframe
    · exact hinv.close_toMac other frame hframe hcloses
    · obtain rfl := mem_singleton.mp hframe
      cases hcloses

theorem opening_head (h : s.toMac = frame :: rest) (hopens : frame.opens = some id) :
    id = s.mac.ids.next ∧ s.opening = id :: { s with toMac := rest }.opening := by
  have hopening : s.opening = id :: { s with toMac := rest }.opening := by
    simp [Tunnel.opening, h, hopens]
  have hspan := hinv.span
  rw [hopening] at hspan
  exact ⟨UInt64.toNat_inj.mp (List.cons.inj hspan).1, hopening⟩

theorem takeUp {ids : IdWindow} {history : List UInt64} (h : s.toMac = frame :: rest)
    (hopens : frame.opens = some id) (hnext : ids.next.toNat = s.mac.ids.next.toNat + 1)
    (hopened : ∀ other ∈ ids.opened, other = id ∨ other ∈ s.mac.ids.opened)
    (hhistory : history = s.mac.history ∨ history = s.mac.history ++ [id]) :
    Inv { s with toMac := rest, mac := { s.mac with ids := ids, history := history } } := by
  obtain ⟨rfl, hopening⟩ := hinv.opening_head h hopens
  have hspan := hinv.span
  have hcount := hinv.next
  rw [hopening] at hspan
  rw [hopening, length_cons] at hcount
  have hle : ∀ other : UInt64, ids.next.toNat ≤ other.toNat → s.mac.ids.next.toNat ≤ other.toNat :=
    fun other hother => by omega
  have hlt : ∀ other ∈ history, other.toNat < ids.next.toNat := by
    rcases hhistory with rfl | rfl
    · intro other hother
      have := hinv.mac_history.2 other hother
      omega
    · intro other hother
      rcases mem_append.mp hother with hother | hother
      · have := hinv.mac_history.2 other hother
        omega
      · obtain rfl := mem_singleton.mp hother
        omega
  have hnodup : history.Nodup := by
    rcases hhistory with rfl | rfl
    · exact hinv.mac_history.1
    · refine nodup_append.mpr ⟨hinv.mac_history.1, nodup_singleton _, ?_⟩
      rintro other hother _ hid rfl
      obtain rfl := mem_singleton.mp hid
      exact Nat.lt_irrefl _ (hinv.mac_history.2 _ hother)
  have hsub : ∀ other ∈ rest, other ∈ s.toMac := fun other hother => by simp [h, hother]
  refine { hinv with
    span := ?_
    next := ?_
    opening_open := fun other hother =>
      hinv.opening_open other (hopening ▸ mem_cons_of_mem _ hother)
    fresh_uplink := fun other hother => hinv.fresh_uplink other (hle other hother)
    fresh_writer := fun other hother => hinv.fresh_writer other (hle other hother)
    fresh_closed := fun other hother => hinv.fresh_closed other (hle other hother)
    fresh_retire := fun other hother => hinv.fresh_retire other (hle other hother)
    fresh_mac := fun other hother => hinv.fresh_mac other (hle other hother)
    fresh_toVm := fun other hother => hinv.fresh_toVm other (hle other hother)
    close_toMac := fun other frame' hframe => hinv.close_toMac other frame' (hsub frame' hframe)
    fail_toVm := fun other frame' hframe hfails hother => ?_
    mac_history := ⟨hnodup, hlt⟩ }
  · exact (List.cons.inj hspan).2.trans (by rw [← hnext]; rfl)
  · show s.vm.ids.next.toNat = ids.next.toNat + { s with toMac := rest }.opening.length
    omega
  · rcases hopened other hother with rfl | hother
    · have habout : frame'.about = some s.mac.ids.next := by
        cases frame' <;> simp_all [Frame.fails, Frame.about]
      exact hinv.fresh_toVm _ (Nat.le_refl _) frame' hframe habout
    · exact hinv.fail_toVm other frame' hframe hfails hother

theorem move {old : Uplink} (hold : s.vm.uplinks id = some old)
    (hgives : ¬ Uplink.GivesBack (some old)) (hnext : ¬ Uplink.Ends (some next)) :
    Inv { s with vm := s.vm.setUplink id next } :=
  hinv.setUplink (by simp [hold]) (fun h => absurd h hnext) (fun h => absurd (.inr h) hnext)
    fun hclosed hopen => absurd (hold ▸ hinv.closed_open id hclosed hopen) hgives

theorem pause (horder : s.vm.Order order) (byControl : Bool) :
    Inv { s with vm := s.vm.pause byControl order } := by
  have hwriters : ∀ id ∈ order, id ∈ s.vm.writers :=
    fun id hid => horder.2 ▸ mem_toFinset.mpr hid
  by_cases hstop : s.vm.stop = true
  · rw [Vm.pause, if_pos hstop]
    exact hinv
  · rw [Vm.pause, if_neg hstop]
    refine hinv.setPausing nofun (fun id hact => ?_) (fun id hfresh hact => ?_) fun id hact _ => ?_
    · simp at hact
    · have hid : id ∈ order := by simpa using hact
      exact hinv.fresh_writer id hfresh (hwriters id hid)
    · exact hwriters id (by simpa using hact)

theorem retire {first : Bool} {vm : Vm} (hid : id.toNat < s.mac.ids.next.toNat)
    (h : s.vm.retire id = .ok (first, vm)) :
    Inv { s with vm := vm } ∧ id ∉ vm.ids.opened ∧ (first = true → id ∈ vm.closed) ∧
      vm.pausing = s.vm.pausing := by
  have hdrop : id ∉ (s.vm.ids.drop id).opened := by simp
  obtain ⟨-, ⟨-, -, rfl⟩ | ⟨-, rfl, rfl⟩⟩ := Vm.retire_cases h
  · exact ⟨(hinv.drop hid).giveUp hid hdrop (s.vm.waiting.erase id), hdrop,
      fun _ => Finset.mem_insert_self .., rfl⟩
  · exact ⟨{ hinv.drop hid with }, hdrop, nofun, rfl⟩

theorem setAccept {next : Accept} (waiting : Finset UInt64)
    (hon : s.vm.accept ≠ .off) (h : next.pending = s.vm.accept.pending) :
    Inv { s with vm := { s.vm with waiting := waiting, accept := next } } := by
  have hopening : { s with vm := { s.vm with waiting := waiting, accept := next } }.opening =
      s.opening := congrArg (s.toMac.filterMap Frame.opens ++ ·) h
  exact { hinv with
    accept_off := fun hforwarding => absurd (hinv.accept_off hforwarding) hon
    span := hopening ▸ hinv.span, next := hopening ▸ hinv.next
    opening_open := hopening ▸ hinv.opening_open }

theorem nextAct {act : PauseAct} {acts : List PauseAct}
    (hacts : s.vm.acts = act :: acts) (byControl : Bool) :
    Inv { s with vm := { s.vm with pausing := some (byControl, acts) } } := by
  have hsub : ∀ other ∈ acts, other ∈ s.vm.acts := fun other hother => by simp [hacts, hother]
  have hstop : s.vm.stop = false → acts = [] := fun hstop => by
    rw [hinv.pause_stop hstop] at hacts
    cases hacts
  exact hinv.setPausing hstop (fun id hact => hinv.pause_close id (hsub _ hact))
    (fun id hfresh hact => hinv.fresh_retire id hfresh (hsub _ hact))
    fun id hact => hinv.pause_retire id (hsub _ hact)

omit hinv

end Inv

/-! ## Steps -/

variable (hinv : Inv s)
include hinv

theorem inv_accept (h : acceptStep opts s = some s') : Inv s' := by
  simp only [acceptStep] at h
  split at h
  · next haccept =>
    cases h
    refine hinv.setAccept s.vm.waiting (by simp [haccept]) ?_
    rw [haccept]
    split <;> rfl
  · next haccept =>
    cases h
    exact hinv.setAccept s.vm.waiting (by simp [haccept]) (by rw [haccept]; rfl)
  · next id srcPort addr haccept =>
    cases h
    exact hinv.setAccept (insert id s.vm.waiting) (by simp [haccept]) (by rw [haccept]; rfl)
  · next haccept =>
    cases h
    exact hinv.sendOpen haccept
  · cases h
  · cases h

theorem inv_client (h : clientStep s srcPort addr = some s') : Inv s' := by
  simp only [clientStep] at h
  split at h
  · next haccept =>
    split at h
    · next halloc =>
      cases h
      exact hinv.giveOut haccept halloc
    all_goals
      cases h
      exact hinv.setAccept s.vm.waiting (by simp [haccept]) (by rw [haccept]; rfl)
  · cases h

theorem inv_uplink (h : uplinkStep s id order = some s') : Inv s' := by
  simp only [uplinkStep] at h
  split at h
  · next hold =>
    cases h
    refine hinv.move hold (by simp) ?_
    split <;> simp
  · next payload hold =>
    cases h
    exact (hinv.move hold (by simp) (by simp)).sendMac rfl nofun
  · next n hold =>
    split at h
    · next horder =>
      have hmeter : Inv { s with vm := { s.vm with meter := (s.vm.meter.noteTx n).2 } } :=
        { hinv with }
      split at h
      · cases h
        have hpaused : ({ s.vm with meter := (s.vm.meter.noteTx n).2 }.pause false order).uplinks id =
            some (.note n) := by
          simp only [Vm.pause]
          split <;> exact hold
        exact (hmeter.pause horder false).move hpaused (by simp) (by simp)
      · cases h
        exact hmeter.move hold (by simp) (by simp)
    · cases h
  · next reason hold =>
    cases h
    have hsome : s.vm.uplinks id ≠ none := by simp [hold]
    have hclosed := hinv.ends_closed id (by simp [hold])
    split
    · next ids hclose =>
      obtain ⟨-, rfl⟩ := IdWindow.close_eq_ok hclose
      have hdrop : id ∉ (s.vm.ids.drop id).opened := by simp
      exact (hinv.drop (hinv.lt_of_uplink hsome)).setUplink hsome (fun _ => hclosed)
        (fun _ => hdrop) fun _ hopen => absurd hopen hdrop
    · next hclose =>
      have hnot : id ∉ s.vm.ids.opened := fun hopen => by
        rw [IdWindow.close_of_mem hopen] at hclose
        cases hclose
      exact hinv.setUplink hsome (fun _ => hclosed) (fun _ => hnot) fun _ hopen => absurd hopen hnot
  · next reason hold =>
    cases h
    have hsends : Uplink.SendsClose (s.vm.uplinks id) := by simp [hold]
    have hclosed := hinv.ends_closed id (.inr hsends)
    refine (hinv.move hold (by simp) (by simp)).sendMac rfl ?_
    rintro _ ⟨⟩
    exact ⟨hclosed, hinv.sends_close id hsends⟩
  · cases h
  · cases h
  · cases h

theorem inv_clientRead {payload : List UInt8}
    (h : clientReadStep s id payload = some s') : Inv s' := by
  simp only [clientReadStep] at h
  split at h
  · next hread =>
    cases h
    exact hinv.move hread.1 (by simp) (by simp)
  · cases h

theorem inv_clientEnd {reset : Bool} (h : clientEndStep s id reset = some s') :
    Inv s' := by
  simp only [clientEndStep] at h
  split at h
  · next hread =>
    split at h
    · cases h
      exact hinv.move hread (by simp) (by simp)
    · cases h
      exact hinv.claim (by simp [hread]) (by simp) (by simp)
  · cases h

theorem inv_pause (h : pauseStep s = some s') : Inv s' := by
  simp only [pauseStep] at h
  split at h
  · cases h
  · cases h
    exact hinv.setPausing (by simp) (by simp) (by simp) (by simp)
  · next who id acts hpausing =>
    have hacts : s.vm.acts = .retire id :: acts := by simp [Vm.acts, hpausing]
    have hid : id.toNat < s.mac.ids.next.toNat := Nat.lt_of_not_le fun hfresh =>
      hinv.fresh_retire id hfresh (by simp [hacts])
    split at h
    · cases h
      exact hinv.nextAct hacts who
    · next vm hretire =>
      cases h
      obtain ⟨hinv', hclosed, hfirst, hpausing'⟩ := hinv.retire hid hretire
      have hacts' : vm.acts = .retire id :: acts := by rw [← hacts, Vm.acts, Vm.acts, hpausing']
      have hnext := hinv'.nextAct hacts' who
      refine hinv'.setPausing (fun hstop => ?_) (fun other hact => ?_)
        (fun other hfresh hact => ?_) fun other hact => ?_
      · rw [hinv'.pause_stop hstop] at hacts'
        cases hacts'
      · rcases mem_cons.mp hact with heq | hact
        · cases heq
          exact ⟨hfirst rfl, hclosed⟩
        · exact hnext.pause_close other hact
      · rcases mem_cons.mp hact with heq | hact
        · cases heq
        · exact hnext.fresh_retire other hfresh hact
      · rcases mem_cons.mp hact with heq | hact
        · cases heq
        · exact hnext.pause_retire other hact
    · next vm hretire =>
      cases h
      obtain ⟨hinv', -, -, hpausing'⟩ := hinv.retire hid hretire
      have hacts' : vm.acts = .retire id :: acts := by rw [← hacts, Vm.acts, Vm.acts, hpausing']
      exact hinv'.nextAct hacts' who
  · next who id acts hpausing =>
    cases h
    have hacts : s.vm.acts = .sendClose id :: acts := by simp [Vm.acts, hpausing]
    refine (hinv.nextAct hacts who).sendMac rfl ?_
    rintro _ ⟨⟩
    exact hinv.pause_close id (by simp [hacts])
  · next who acts hpausing =>
    cases h
    have hacts : s.vm.acts = .sendQuota :: acts := by simp [Vm.acts, hpausing]
    exact (hinv.nextAct hacts who).sendMac rfl nofun

theorem inv_onVmFrame (habout : ∀ id, frame.about = some id → id.toNat < s.mac.ids.next.toNat)
    (horder : s.vm.Order order) (h : onVmFrame s frame io order = .ok s') : Inv s' := by
  cases frame with
  | hello =>
    simp only [onVmFrame, observe] at h
    split at h
    · cases h
    · next vm hobserve =>
      cases h
      split at hobserve
      · cases hobserve
      · cases hobserve
        exact { hinv with }
  | ping unixMs =>
    cases h
    exact hinv.sendMac rfl nofun
  | pong unixMs =>
    cases h
    exact hinv
  | openOk id =>
    simp only [onVmFrame] at h
    split at h
    · cases h
    · next hopen =>
      split at h
      · cases h
        have hwaiting : Inv { s with vm := { s.vm with waiting := s.vm.waiting.erase id } } :=
          { hinv with }
        refine hwaiting.startUplink (habout id rfl) ?_ io
        by_contra hnot
        simp [IdWindow.requireOpen, hnot] at hopen
      · cases h
  | openFail id reason =>
    simp only [onVmFrame] at h
    split at h
    · cases h
    · next ids hclose =>
      cases h
      obtain ⟨-, rfl⟩ := IdWindow.close_eq_ok hclose
      exact { hinv.drop (habout id rfl) with }
  | data id payload =>
    simp only [onVmFrame] at h
    split at h
    · cases h
      exact hinv.pause horder true
    · split at h
      · cases h
      · split at h
        · split at h
          · cases h
          · cases h
            have hmeter : Inv { s with vm := { s.vm with
                meter := (s.vm.meter.noteTx payload.length).2 } } := { hinv with }
            split
            · exact hmeter.pause horder true
            · exact hmeter
        · cases h
  | close id reason =>
    simp only [onVmFrame] at h
    split at h
    · cases h
    · next hretire =>
      cases h
      exact (hinv.retire (habout id rfl) hretire).1
  | helloOk | «open» | quota => cases h

theorem inv_answerHello {today : UInt16 × UInt8}
    (hforwarding : s.vm.forwarding = false) (h : answerHello s io today = .ok s') : Inv s' := by
  have hok : Inv (s.sendMac (.helloOk s.vm.meter.txBytes s.vm.meter.state today.1 today.2)) :=
    hinv.sendMac rfl nofun
  simp only [answerHello] at h
  split at h
  · cases h
    exact hok.sendMac rfl nofun
  · split at h
    · cases h
    · cases h
      have hoff : s.vm.accept = .off := hinv.accept_off hforwarding
      have hopening : { s.sendMac (.helloOk s.vm.meter.txBytes s.vm.meter.state today.1 today.2) with
          vm := { s.vm with forwarding := true, accept := .check } }.opening = s.opening := by
        simp [Tunnel.opening, Tunnel.sendMac, hoff, Accept.pending, Frame.opens]
      exact { hok with
        accept_off := nofun
        span := hopening ▸ hinv.span
        next := hopening ▸ hinv.next
        opening_open := hopening ▸ hinv.opening_open }

theorem inv_vmFrame {today : UInt16 × UInt8}
    (h : vmFrameStep s io today order = some s') (hlive : s'.Live) : Inv s' := by
  simp only [vmFrameStep] at h
  split at h
  · cases h
  · next frame rest htoVm =>
    split at h
    · next hready =>
      have hpop := hinv.popVm htoVm
      split at h
      · next next hsession =>
        cases h
        simp only [vmSession] at hsession
        split at hsession
        · next hhello =>
          simp only [observe] at hsession
          split at hsession
          · cases hsession
          · next vm hobserve =>
            split at hobserve
            · cases hobserve
            · cases hobserve
              have hseen : Inv { s with toVm := rest, vm := { s.vm with helloSeen := true } } :=
                { hpop with }
              exact inv_answerHello hseen hhello.2 hsession
        · refine inv_onVmFrame hpop (fun id habout => ?_) hready.1 hsession
          exact hinv.lt_of_toVm (htoVm ▸ mem_cons_self ..) habout
      · cases h
        cases hlive.1
    · cases h

theorem inv_macUplink (h : macUplinkStep s id = some s') : Inv s' := by
  simp only [macUplinkStep] at h
  split at h
  · next hold =>
    cases h
    exact hinv.setUplinkMac (hinv.lt_of_uplinkMac (by simp [hold]))
  · next payload hold =>
    cases h
    have hid := hinv.lt_of_uplinkMac (show s.mac.uplinks id ≠ none by simp [hold])
    refine (hinv.setUplinkMac hid).sendVm ?_ nofun
    rintro _ ⟨⟩
    exact hid
  · next reason hold =>
    cases h
    have hid := hinv.lt_of_uplinkMac (show s.mac.uplinks id ≠ none by simp [hold])
    refine (hinv.setUplinkMac hid).sendVm ?_ nofun
    rintro _ ⟨⟩
    exact hid
  all_goals cases h

theorem inv_upstreamRead {payload : List UInt8}
    (h : upstreamReadStep s id payload = some s') : Inv s' := by
  simp only [upstreamReadStep] at h
  split at h
  · next hread =>
    cases h
    exact hinv.setUplinkMac (hinv.lt_of_uplinkMac (by simp [hread.1]))
  · cases h

theorem inv_upstreamEnd {reset : Bool} (h : upstreamEndStep s id reset = some s') :
    Inv s' := by
  simp only [upstreamEndStep] at h
  split at h
  · next hread =>
    have hid := hinv.lt_of_uplinkMac (show s.mac.uplinks id ≠ none by simp [hread])
    split at h
    · cases h
      exact hinv.setUplinkMac hid
    · cases h
      have hclosed : Inv { s with mac := { s.mac with closed := insert id s.mac.closed } } :=
        { hinv with }
      exact hclosed.setUplinkMac hid
  · cases h

omit hinv

theorem openOnMac_cases {dial : Dial} (h : openOnMac s id publicPort dial = .ok s') :
    ∃ outcome ids, s.mac.ids.admitId id = .ok (outcome, ids) ∧
      (outcome = .cap ∧ s' = { s with mac := { s.mac with ids := ids } }.sendVm (.openFail id .cap) ∨
      outcome = .opened ∧ (∃ reason, s' = { s with mac := { s.mac with
          ids := ids.drop id, history := s.mac.history ++ [id] } }.sendVm (.openFail id reason)) ∨
      outcome = .opened ∧ s' = { s with mac := { s.mac with
          ids := ids, history := s.mac.history ++ [id], writers := insert id s.mac.writers
          closed := s.mac.closed.erase id
          uplinks := Function.update s.mac.uplinks id (some .check) } }.sendVm (.openOk id)) := by
  simp only [openOnMac] at h
  split at h
  · cases h
  · next ids hadmit =>
    cases h
    exact ⟨.cap, ids, hadmit, .inl ⟨rfl, rfl⟩⟩
  · next ids hadmit =>
    refine ⟨.opened, ids, hadmit, .inr ?_⟩
    have hmem : id ∈ ids.opened := by
      obtain ⟨-, -, ⟨hcap, -⟩ | ⟨-, hopened⟩⟩ := IdWindow.admitId_eq_ok hadmit
      · cases hcap
      · exact hopened ▸ Finset.mem_insert_self ..
    simp only [IdWindow.close_of_mem hmem] at h
    split at h
    · cases h
      exact .inl ⟨rfl, _, rfl⟩
    · split at h
      · cases h
        exact .inl ⟨rfl, _, rfl⟩
      · cases h
      · cases h
      · cases h
        exact .inr ⟨rfl, rfl⟩

theorem inv_openOnMac (hinv : Inv s) {dial : Dial} (htoMac : s.toMac = frame :: rest)
    (hopens : frame.opens = some id)
    (h : openOnMac { s with toMac := rest } id publicPort dial = .ok s') : Inv s' := by
  obtain ⟨outcome, ids, hadmit, hcases⟩ := openOnMac_cases h
  obtain ⟨rfl, hnext, hopened⟩ := IdWindow.admitId_eq_ok hadmit
  have hid : s.mac.ids.next.toNat < ids.next.toNat := by
    simp only at hnext
    omega
  have hsub : ∀ other ∈ ids.opened, other = s.mac.ids.next ∨ other ∈ s.mac.ids.opened := by
    intro other hother
    rcases hopened with ⟨-, hopened⟩ | ⟨-, hopened⟩
    · exact .inr (hopened ▸ hother)
    · exact Finset.mem_insert.mp (hopened ▸ hother)
  rcases hcases with ⟨rfl, rfl⟩ | ⟨rfl, reason, rfl⟩ | ⟨rfl, rfl⟩
  · refine (hinv.takeUp htoMac hopens hnext hsub (.inl rfl)).sendVm ?_ ?_
    · rintro _ ⟨⟩
      exact hid
    · rintro _ ⟨⟩ hmem
      obtain ⟨-, hopened⟩ | ⟨hcap, -⟩ := hopened
      · have := s.mac.ids.below _ (hopened ▸ hmem)
        omega
      · cases hcap
  · have hsub' : ∀ other ∈ (ids.drop s.mac.ids.next).opened,
        other = s.mac.ids.next ∨ other ∈ s.mac.ids.opened :=
      fun other hother => hsub other (IdWindow.mem_drop.mp hother).2
    have hnext' : (ids.drop s.mac.ids.next).next.toNat = s.mac.ids.next.toNat + 1 := hnext
    refine (hinv.takeUp htoMac hopens hnext' hsub' (.inr rfl)).sendVm ?_ ?_
    · rintro _ ⟨⟩
      exact hid
    · rintro _ ⟨⟩ hmem
      exact (IdWindow.mem_drop.mp hmem).1 rfl
  · have htake := hinv.takeUp htoMac hopens hnext hsub (.inr rfl)
    have hclosed : Inv { s with toMac := rest, mac := { s.mac with
        ids := ids, history := s.mac.history ++ [s.mac.ids.next]
        writers := insert s.mac.ids.next s.mac.writers
        closed := s.mac.closed.erase s.mac.ids.next } } := { htake with }
    refine (hclosed.setUplinkMac hid).sendVm ?_ nofun
    rintro _ ⟨⟩
    exact hid

theorem inv_macFrame (hinv : Inv s) {dial : Dial} (h : macFrameStep s dial io = some s')
    (hlive : s'.Live) : Inv s' := by
  simp only [macFrameStep] at h
  split at h
  · cases h
  · next frame rest htoMac =>
    split at h
    · next next hserve =>
      cases h
      cases frame with
      | helloOk | pong | quota =>
        cases hserve
        exact hinv.popMac htoMac rfl
      | ping unixMs =>
        cases hserve
        exact (hinv.popMac htoMac rfl).sendVm nofun nofun
      | «open» id publicPort srcPort addr => exact inv_openOnMac hinv htoMac rfl hserve
      | data id payload =>
        have hpop := hinv.popMac htoMac rfl
        simp only [serveMac] at hserve
        split at hserve
        · cases hserve
        · split at hserve
          · split at hserve
            · cases hserve
              exact hpop
            · cases hserve
          · cases hserve
      | close id reason =>
        have hpop := hinv.popMac htoMac rfl
        simp only [serveMac] at hserve
        split at hserve
        · cases hserve
        · next ids hclose =>
          obtain ⟨-, rfl⟩ := IdWindow.close_eq_ok hclose
          have hdrop : Inv { s with toMac := rest, mac := { s.mac with ids := s.mac.ids.drop id } } :=
            { hpop with
              fail_toVm := fun other frame hframe hfails hother =>
                hpop.fail_toVm other frame hframe hfails (IdWindow.mem_drop.mp hother).2 }
          split at hserve
          · cases hserve
            exact { hdrop with }
          · cases hserve
            exact hdrop
      | hello | openOk | openFail => cases hserve
    · cases h
      cases hlive.2

theorem step_inv (hinv : Inv s) {event : Event} (hstep : step opts s event = some s')
    (hlive : s'.Live) : Inv s' := by
  simp only [step] at hstep
  split at hstep
  · cases event with
    | vmPing unixMs => cases hstep; exact hinv.sendMac rfl nofun
    | macPing unixMs => cases hstep; exact hinv.sendVm nofun nofun
    | accept => exact inv_accept hinv hstep
    | client srcPort addr => exact inv_client hinv hstep
    | uplink id order => exact inv_uplink hinv hstep
    | clientRead id payload => exact inv_clientRead hinv hstep
    | clientEnd id reset => exact inv_clientEnd hinv hstep
    | pause => exact inv_pause hinv hstep
    | vmStop =>
      simp only at hstep
      split at hstep
      · cases hstep
        cases hlive.1
      · cases hstep
    | vmFrame io today order => exact inv_vmFrame hinv hstep hlive
    | macUplink id => exact inv_macUplink hinv hstep
    | upstreamRead id payload => exact inv_upstreamRead hinv hstep
    | upstreamEnd id reset => exact inv_upstreamEnd hinv hstep
    | macFrame dial io => exact inv_macFrame hinv hstep hlive
  · cases hstep

end Bearmail.Edge
