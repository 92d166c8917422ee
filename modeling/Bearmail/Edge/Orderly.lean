import Bearmail.Edge.Slots

/-!
# Frames that cross the end of a connection

When the client ends a connection the VM gives its id back before the Mac hears of it, and a frame of the
Mac about that id is then an error that ends the session for all connections. No frame is rejected as long
as the frames about a connection do not cross its end.
-/

namespace Bearmail.Edge

open List Option Function

/-! ## The order of frames -/

/-- A frame after which more may come about its connection. -/
def Frame.GoesOn : Frame → Prop
  | .open .. | .openOk _ | .data .. => True
  | _ => False

/-- A frame that may come after others about its connection. -/
def Frame.Later : Frame → Prop
  | .data .. | .close .. => True
  | _ => False

def Frame.FromMac : Frame → Prop
  | .hello | .ping _ | .pong _ | .openOk _ | .openFail .. | .data .. | .close .. => True
  | _ => False

def Frame.FromVm : Frame → Prop
  | .helloOk .. | .ping _ | .pong _ | .quota .. | .open .. | .data .. | .close .. => True
  | _ => False

def Follows (first second : Frame) : Prop :=
  second ≠ .hello ∧ ∀ id, first.about = some id → second.about = some id → first.GoesOn ∧ second.Later

/-- What holds when no frame has crossed the end of its connection. -/
structure Orderly (s : Tunnel) : Prop where
  fromMac : ∀ frame ∈ s.toVm, frame.FromMac
  fromVm : ∀ frame ∈ s.toMac, frame.FromVm
  hello : .hello ∈ s.toVm → s.vm.helloSeen = false
  order_toVm : s.toVm.Pairwise Follows
  order_toMac : s.toMac.Pairwise Follows
  toVm_open : ∀ id, ∀ frame ∈ s.toVm, frame.about = some id → id ∈ s.vm.ids.opened
  toMac_open : ∀ id, ∀ frame ∈ s.toMac, frame.about = some id → frame.Later → id ∈ s.mac.ids.opened
  openOk : ∀ id, .openOk id ∈ s.toVm →
    id ∈ s.vm.waiting ∧ s.vm.uplinks id = none ∧ id ∉ s.vm.closed ∧ id ∈ s.mac.ids.opened
  data_writer : ∀ id payload, .data id payload ∈ s.toVm → id ∈ s.vm.writers ∨ .openOk id ∈ s.toVm
  mac_goesOn : ∀ id, s.mac.uplinks id ≠ none → s.mac.uplinks id ≠ some .done →
    ∀ frame ∈ s.toVm, frame.about = some id → frame.GoesOn
  mac_writer : ∀ id, s.mac.uplinks id ≠ none → id ∈ s.vm.ids.opened →
    id ∈ s.vm.writers ∨ .openOk id ∈ s.toVm
  open_waiting : ∀ id, ∀ frame ∈ s.toMac, frame.opens = some id → id ∈ s.vm.waiting
  accept_waiting : ∀ id srcPort addr, s.vm.accept = .sendOpen id srcPort addr → id ∈ s.vm.waiting
  opened_writer : ∀ id ∈ s.mac.ids.opened, id ∈ s.mac.writers
  writer_uplink : ∀ id ∈ s.vm.writers, s.vm.uplinks id ≠ none
  uplink_open : ∀ id, s.vm.uplinks id ≠ none → id ∉ s.vm.closed → id ∈ s.mac.ids.opened
  ends_open : ∀ id, Uplink.Ends (s.vm.uplinks id) → id ∈ s.mac.ids.opened ∧
    (∀ frame ∈ s.toMac, frame.closes ≠ some id) ∧ .sendClose id ∉ s.vm.acts
  act_open : ∀ id, .sendClose id ∈ s.vm.acts → id ∈ s.mac.ids.opened ∧
    ∀ frame ∈ s.toMac, frame.closes ≠ some id
  act_first : ∀ id, .sendClose id ∉ s.vm.acts.tail

theorem orderly_start (opts : VmOpts) : Orderly (.start opts) := by
  constructor <;>
    simp [Tunnel.start, Frame.FromMac, Frame.about, Uplink.Ends, Vm.acts, IdWindow.new]

/-- No frame about the connection is on its way to the VM. -/
def Undisturbed (s : Tunnel) (id : UInt64) : Prop := ∀ frame ∈ s.toVm, frame.about ≠ some id

instance (s : Tunnel) (id : UInt64) : Decidable (Undisturbed s id) :=
  inferInstanceAs (Decidable (∀ _ ∈ _, _))

def Tunnel.givesBack (s : Tunnel) : Event → Option UInt64
  | .uplink id _ =>
    match s.vm.uplinks id with
    | some (.giveBack _) => some id
    | _ => none
  | .pause =>
    match s.vm.acts with
    | .retire id :: _ => some id
    | _ => none
  | _ => none

/-- The connection about which the step sends to the VM. -/
def Tunnel.sendsVm (s : Tunnel) : Event → Option UInt64
  | .macUplink id =>
    match s.mac.uplinks id with
    | some (.sendData _) | some (.sendClose _) => some id
    | _ => none
  | _ => none

/-- The connection of which the step sends bytes to the Mac. -/
def Tunnel.sendsMac (s : Tunnel) : Event → Option UInt64
  | .uplink id _ =>
    match s.vm.uplinks id with
    | some (.sendData _) => some id
    | _ => none
  | _ => none

/-- The socket for a connection that the Mac has accepted could not be cloned. -/
def Tunnel.loses (s : Tunnel) : Event → Bool
  | .vmFrame io .. =>
    match s.toVm with
    | .openOk _ :: _ => !io
    | _ => false
  | _ => false

/-- No frame crosses the end of its connection. -/
structure Uncrossed (s : Tunnel) (event : Event) : Prop where
  givesBack : ∀ id ∈ s.givesBack event, id ∈ s.vm.ids.opened → Undisturbed s id
  sendsVm : ∀ id ∈ s.sendsVm event, id ∈ s.vm.ids.opened
  sendsMac : ∀ id ∈ s.sendsMac event, id ∈ s.mac.ids.opened ∧ ∀ frame ∈ s.toMac, frame.closes ≠ some id
  keeps : s.loses event = false

instance (s : Tunnel) (event : Event) : Decidable (Uncrossed s event) :=
  -- an id is looked up in the option, and not for all ids
  haveI : Decidable (∀ id ∈ s.givesBack event, id ∈ s.vm.ids.opened → Undisturbed s id) :=
    Option.decidableForallMem _
  haveI : Decidable (∀ id ∈ s.sendsVm event, id ∈ s.vm.ids.opened) := Option.decidableForallMem _
  haveI : Decidable (∀ id ∈ s.sendsMac event,
      id ∈ s.mac.ids.opened ∧ ∀ frame ∈ s.toMac, frame.closes ≠ some id) :=
    Option.decidableForallMem _
  decidable_of_iff ((∀ id ∈ s.givesBack event, id ∈ s.vm.ids.opened → Undisturbed s id) ∧
      (∀ id ∈ s.sendsVm event, id ∈ s.vm.ids.opened) ∧
      (∀ id ∈ s.sendsMac event, id ∈ s.mac.ids.opened ∧ ∀ frame ∈ s.toMac, frame.closes ≠ some id) ∧
      s.loses event = false)
    ⟨fun ⟨h1, h2, h3, h4⟩ => ⟨h1, h2, h3, h4⟩, fun h => ⟨h.1, h.2, h.3, h.4⟩⟩

variable {opts : VmOpts} {s s' : Tunnel}

/-! ## What a step is made of -/

variable {second frame : Frame} {id : UInt64} {rest : List Frame} {next : Uplink}
  {writers closed : Finset UInt64} {ids : IdWindow} {srcPort : UInt16} {addr : Ipv4Addr}
  {order history : List UInt64} {io : Bool} {today : UInt16 × UInt8} {dial : Dial}

theorem follows_quiet {first : Frame} (hhello : second ≠ .hello) (habout : second.about = none) :
    Follows first second :=
  ⟨hhello, fun id _ hid => by simp [habout] at hid⟩

theorem Follows.about_ne {first : Frame} (h : Follows first second) (hid : first.about = some id)
    (hends : ¬ first.GoesOn) : second.about ≠ some id :=
  fun hid' => hends (h.2 id hid hid').1

theorem Frame.about_of_closes (h : frame.closes = some id) :
    frame.about = some id ∧ frame.Later ∧ ¬ frame.GoesOn := by
  cases frame <;> simp_all [Frame.closes, Frame.about, Frame.Later, Frame.GoesOn]

theorem Frame.about_of_opens (h : frame.opens = some id) : frame.about = some id := by
  cases frame <;> simp_all [Frame.opens, Frame.about]

theorem Frame.FromVm.cases_about (h : frame.FromVm) (habout : frame.about = some id) :
    frame.opens = some id ∨ frame.Later ∧ (frame.closes = some id ∨ frame.GoesOn) := by
  cases frame <;>
    simp_all [Frame.FromVm, Frame.about, Frame.opens, Frame.Later, Frame.closes, Frame.GoesOn]

theorem follows_later {first : Frame} (hfrom : first.FromVm) (hnot : first.closes ≠ some id)
    (habout : second.about = some id) (hlater : second.Later) : Follows first second := by
  refine ⟨?_, fun id' hid hid' => ⟨?_, hlater⟩⟩
  · rintro rfl
    exact hlater
  · obtain rfl := Option.some.inj (habout.symm.trans hid')
    rcases hfrom.cases_about hid with hopens | ⟨-, hcloses | hgoes⟩
    · cases first <;> simp_all [Frame.opens, Frame.GoesOn]
    · exact absurd hcloses hnot
    · exact hgoes

namespace Orderly

variable (hord : Orderly s)
include hord

theorem sendMac (hfrom : frame.FromVm) (horder : ∀ other ∈ s.toMac, Follows other frame)
    (hopen : ∀ id, frame.about = some id → frame.Later → id ∈ s.mac.ids.opened)
    (hwaiting : ∀ id, frame.opens = some id → id ∈ s.vm.waiting)
    (hcloses : ∀ id, frame.closes = some id →
      ¬ Uplink.Ends (s.vm.uplinks id) ∧ .sendClose id ∉ s.vm.acts) : Orderly (s.sendMac frame) := by
  have hmem : ∀ other, other ∈ (s.sendMac frame).toMac → other ∈ s.toMac ∨ other = frame := by
    simp [Tunnel.sendMac]
  refine { hord with
    fromVm := fun other hother => ?_
    order_toMac := ?_
    toMac_open := fun id other hother habout hlater => ?_
    open_waiting := fun id other hother hopens => ?_
    ends_open := fun id hends => ?_
    act_open := fun id hact => ?_ }
  · rcases hmem other hother with hother | rfl
    · exact hord.fromVm other hother
    · exact hfrom
  · refine pairwise_append.mpr ⟨hord.order_toMac, pairwise_singleton _ _, ?_⟩
    intro other hother last hlast
    obtain rfl := mem_singleton.mp hlast
    exact horder other hother
  · rcases hmem other hother with hother | rfl
    · exact hord.toMac_open id other hother habout hlater
    · exact hopen id habout hlater
  · rcases hmem other hother with hother | rfl
    · exact hord.open_waiting id other hother hopens
    · exact hwaiting id hopens
  · obtain ⟨hmac, hframes, hact⟩ := hord.ends_open id hends
    refine ⟨hmac, fun other hother hclose => ?_, hact⟩
    rcases hmem other hother with hother | rfl
    · exact hframes other hother hclose
    · exact (hcloses id hclose).1 hends
  · obtain ⟨hmac, hframes⟩ := hord.act_open id hact
    refine ⟨hmac, fun other hother hclose => ?_⟩
    rcases hmem other hother with hother | rfl
    · exact hframes other hother hclose
    · exact (hcloses id hclose).2 hact

theorem sendMac_quiet (hfrom : frame.FromVm) (habout : frame.about = none) :
    Orderly (s.sendMac frame) := by
  have hhello : frame ≠ .hello := by
    rintro rfl
    exact hfrom
  refine hord.sendMac hfrom (fun _ _ => follows_quiet hhello habout) ?_ ?_ ?_
  · intro id hid
    simp [habout] at hid
  · intro id hid
    exact absurd (Frame.about_of_opens hid) (by simp [habout])
  · intro id hid
    exact absurd (Frame.about_of_closes hid).1 (by simp [habout])

theorem sendVm (hfrom : frame.FromMac) (hhello : frame ≠ .hello)
    (horder : ∀ other ∈ s.toVm, Follows other frame)
    (hopen : ∀ id, frame.about = some id → id ∈ s.vm.ids.opened) (hok : ∀ id, frame = .openOk id →
      id ∈ s.vm.waiting ∧ s.vm.uplinks id = none ∧ id ∉ s.vm.closed ∧ id ∈ s.mac.ids.opened)
    (hdata : ∀ id payload, frame = .data id payload → id ∈ s.vm.writers ∨ .openOk id ∈ s.toVm)
    (hmac : ∀ id, frame.about = some id → s.mac.uplinks id ≠ none →
      s.mac.uplinks id ≠ some .done → frame.GoesOn) : Orderly (s.sendVm frame) := by
  have hmem : ∀ other, other ∈ (s.sendVm frame).toVm → other ∈ s.toVm ∨ other = frame := by
    simp [Tunnel.sendVm]
  have hsub : ∀ other ∈ s.toVm, other ∈ (s.sendVm frame).toVm :=
    fun other hother => mem_append_left _ hother
  refine { hord with
    fromMac := fun other hother => ?_
    hello := fun hother => ?_
    order_toVm := ?_
    toVm_open := fun id other hother habout => ?_
    openOk := fun id hother => ?_
    data_writer := fun id payload hother => ?_
    mac_goesOn := fun id hsome hdone other hother habout => ?_
    mac_writer := fun id hsome hopen => (hord.mac_writer id hsome hopen).imp_right (hsub _) }
  · rcases hmem other hother with hother | rfl
    · exact hord.fromMac other hother
    · exact hfrom
  · rcases hmem _ hother with hother | heq
    · exact hord.hello hother
    · exact absurd heq.symm hhello
  · refine pairwise_append.mpr ⟨hord.order_toVm, pairwise_singleton _ _, ?_⟩
    intro other hother last hlast
    obtain rfl := mem_singleton.mp hlast
    exact horder other hother
  · rcases hmem other hother with hother | rfl
    · exact hord.toVm_open id other hother habout
    · exact hopen id habout
  · rcases hmem _ hother with hother | heq
    · exact hord.openOk id hother
    · exact hok id heq.symm
  · rcases hmem _ hother with hother | heq
    · exact (hord.data_writer id payload hother).imp_right (hsub _)
    · exact (hdata id payload heq.symm).imp_right (hsub _)
  · rcases hmem other hother with hother | rfl
    · exact hord.mac_goesOn id hsome hdone other hother habout
    · exact hmac id habout hsome hdone

theorem sendVm_quiet (hfrom : frame.FromMac) (hhello : frame ≠ .hello)
    (habout : frame.about = none) : Orderly (s.sendVm frame) := by
  refine hord.sendVm hfrom hhello (fun _ _ => follows_quiet hhello habout) ?_ ?_ ?_ ?_
  · intro id hid
    simp [habout] at hid
  · rintro id rfl
    cases habout
  · rintro id payload rfl
    cases habout
  · intro id hid
    simp [habout] at hid

theorem popVm (h : s.toVm = frame :: rest) (hok : ∀ id, frame ≠ .openOk id) :
    Orderly { s with toVm := rest } := by
  have hsub : ∀ other ∈ rest, other ∈ s.toVm := fun other hother => by simp [h, hother]
  have hkeep : ∀ id, .openOk id ∈ s.toVm → .openOk id ∈ rest := fun id hid =>
    (mem_cons.mp (h ▸ hid)).resolve_left fun heq => hok id heq.symm
  exact { hord with
    fromMac := fun other hother => hord.fromMac other (hsub other hother)
    hello := fun hother => hord.hello (hsub _ hother)
    order_toVm := (pairwise_cons.mp (h ▸ hord.order_toVm)).2
    toVm_open := fun id other hother => hord.toVm_open id other (hsub other hother)
    openOk := fun id hother => hord.openOk id (hsub _ hother)
    data_writer := fun id payload hother =>
      (hord.data_writer id payload (hsub _ hother)).imp_right (hkeep id)
    mac_goesOn := fun id hsome hdone other hother =>
      hord.mac_goesOn id hsome hdone other (hsub other hother)
    mac_writer := fun id hsome hopen => (hord.mac_writer id hsome hopen).imp_right (hkeep id) }

theorem popMac (h : s.toMac = frame :: rest) : Orderly { s with toMac := rest } := by
  have hsub : ∀ other ∈ rest, other ∈ s.toMac := fun other hother => by simp [h, hother]
  exact { hord with
    fromVm := fun other hother => hord.fromVm other (hsub other hother)
    order_toMac := (pairwise_cons.mp (h ▸ hord.order_toMac)).2
    toMac_open := fun id other hother => hord.toMac_open id other (hsub other hother)
    open_waiting := fun id other hother => hord.open_waiting id other (hsub other hother)
    ends_open := fun id hends => ⟨(hord.ends_open id hends).1,
      fun other hother => (hord.ends_open id hends).2.1 other (hsub other hother),
      (hord.ends_open id hends).2.2⟩
    act_open := fun id hact => ⟨(hord.act_open id hact).1,
      fun other hother => (hord.act_open id hact).2 other (hsub other hother)⟩ }

theorem setUplink (hsome : s.vm.uplinks id ≠ none)
    (hends : Uplink.Ends (some next) → Uplink.Ends (s.vm.uplinks id)) :
    Orderly { s with vm := s.vm.setUplink id next } := by
  have hself : (s.vm.setUplink id next).uplinks id = some next := update_self ..
  have hne : ∀ other, other ≠ id → (s.vm.setUplink id next).uplinks other = s.vm.uplinks other :=
    fun other hother => update_of_ne hother ..
  have hiff : ∀ other, (s.vm.setUplink id next).uplinks other ≠ none ↔ s.vm.uplinks other ≠ none := by
    intro other
    rcases eq_or_ne other id with rfl | hother
    · simp [hself, hsome]
    · rw [hne other hother]
  refine { hord with
    openOk := fun other hother => ?_
    writer_uplink := fun other hother => (hiff other).mpr (hord.writer_uplink other hother)
    uplink_open := fun other hother => hord.uplink_open other ((hiff other).mp hother)
    ends_open := fun other hother => hord.ends_open other ?_ }
  · obtain ⟨hwaiting, hnone, hrest⟩ := hord.openOk other hother
    exact ⟨hwaiting, not_not.mp fun h => (hiff other).mp h hnone, hrest⟩
  · rcases eq_or_ne other id with rfl | hother'
    · exact hends (hself ▸ hother)
    · exact hne other hother' ▸ hother

theorem setUplinkMac (hsome : s.mac.uplinks id ≠ none)
    (hdone : next ≠ .done → s.mac.uplinks id ≠ some .done) :
    Orderly { s with mac := s.mac.setUplink id next } := by
  have hself : (s.mac.setUplink id next).uplinks id = some next := update_self ..
  have hne : ∀ other, other ≠ id → (s.mac.setUplink id next).uplinks other = s.mac.uplinks other :=
    fun other hother => update_of_ne hother ..
  refine { hord with
    mac_goesOn := fun other hother hnot => ?_
    mac_writer := fun other hother => ?_ }
  · rcases eq_or_ne other id with rfl | hother'
    · exact hord.mac_goesOn other hsome (hdone fun heq => hnot (hself.trans (by rw [heq])))
    · exact hord.mac_goesOn other (hne other hother' ▸ hother) (hne other hother' ▸ hnot)
  · rcases eq_or_ne other id with rfl | hother'
    · exact hord.mac_writer other hsome
    · exact hord.mac_writer other (hne other hother' ▸ hother)

theorem claim (hinv : Inv s) (hsome : s.vm.uplinks id ≠ none) (hclosed : id ∉ s.vm.closed) :
    Orderly { s with vm := { s.vm with closed := insert id s.vm.closed }.setUplink id next } := by
  have hself : (s.vm.setUplink id next).uplinks id = some next := update_self ..
  have hne : ∀ other, other ≠ id → (s.vm.setUplink id next).uplinks other = s.vm.uplinks other :=
    fun other hother => update_of_ne hother ..
  refine { hord with
    openOk := fun other hother => ?_
    writer_uplink := fun other hother => ?_
    uplink_open := fun other hother hnot => ?_
    ends_open := fun other hother => ?_ }
  · obtain ⟨hwaiting, hnone, hopen, hmac⟩ := hord.openOk other hother
    have hother' : other ≠ id := by
      rintro rfl
      exact hsome hnone
    refine ⟨hwaiting, (hne other hother').trans hnone, fun hmem => ?_, hmac⟩
    exact hopen (Finset.mem_of_mem_insert_of_ne hmem hother')
  · rcases eq_or_ne other id with rfl | hother'
    · exact hself ▸ some_ne_none next
    · exact (hne other hother').symm ▸ hord.writer_uplink other hother
  · obtain ⟨hother', hnot⟩ := not_or.mp (Finset.mem_insert.not.mp hnot)
    exact hord.uplink_open other (hne other hother' ▸ hother) hnot
  · rcases eq_or_ne other id with rfl | hother'
    · refine ⟨hord.uplink_open other hsome hclosed, fun frame hframe hcloses => ?_, fun hact => ?_⟩
      · exact hclosed (hinv.close_toMac other frame hframe hcloses).1
      · exact hclosed (hinv.pause_close other hact).1
    · exact hord.ends_open other (hne other hother' ▸ hother)

theorem drop (hquiet : Undisturbed s id) :
    Orderly { s with vm := { s.vm with ids := s.vm.ids.drop id } } :=
  { hord with
    toVm_open := fun other frame hframe habout => IdWindow.mem_drop.mpr ⟨by
      rintro rfl
      exact hquiet frame hframe habout, hord.toVm_open other frame hframe habout⟩
    mac_writer := fun other hsome hopen => hord.mac_writer other hsome (IdWindow.mem_drop.mp hopen).2 }

theorem erase_waiting (hinv : Inv s) (hid : id.toNat < s.mac.ids.next.toNat) :
    (∀ other, ∀ frame ∈ s.toMac, frame.opens = some other → other ∈ s.vm.waiting.erase id) ∧
    ∀ other srcPort addr, s.vm.accept = .sendOpen other srcPort addr →
      other ∈ s.vm.waiting.erase id := by
  have hopening : ∀ other ∈ s.opening, other ≠ id := by
    rintro other hother rfl
    exact Nat.not_le.mpr hid (hinv.fresh_of_opening hother)
  refine ⟨fun other frame hframe hopens => ?_, fun other srcPort addr haccept => ?_⟩
  · refine Finset.mem_erase.mpr ⟨hopening other ?_, hord.open_waiting other frame hframe hopens⟩
    exact mem_append_left _ (mem_filterMap.mpr ⟨frame, hframe, hopens⟩)
  · refine Finset.mem_erase.mpr ⟨hopening other ?_, hord.accept_waiting other srcPort addr haccept⟩
    exact mem_append_right _ (by simp [haccept, Accept.pending])

theorem giveUp (hinv : Inv s) (hquiet : Undisturbed s id)
    (hid : id.toNat < s.mac.ids.next.toNat) (hopen : id ∉ s.vm.ids.opened)
    (hwriters : ∀ other, other ≠ id → (other ∈ writers ↔ other ∈ s.vm.writers))
    (hsub : writers ⊆ s.vm.writers)
    (hclosed : closed = s.vm.closed ∨ closed = insert id s.vm.closed) :
    Orderly { s with vm := { s.vm with
      writers := writers, closed := closed, waiting := s.vm.waiting.erase id } } := by
  have hne : ∀ other, ∀ frame ∈ s.toVm, frame.about = some other → other ≠ id := by
    rintro other frame hframe habout rfl
    exact hquiet frame hframe habout
  have hwaiting := hord.erase_waiting hinv hid
  refine { hord with
    openOk := fun other hother => ?_
    data_writer := fun other payload hother => ?_
    mac_writer := fun other hsome hother => ?_
    open_waiting := hwaiting.1
    accept_waiting := hwaiting.2
    writer_uplink := fun other hother => hord.writer_uplink other (hsub hother)
    uplink_open := fun other hsome hnot => hord.uplink_open other hsome ?_ }
  · obtain ⟨hwaiting, hnone, hnot, hmac⟩ := hord.openOk other hother
    have hother' := hne other _ hother rfl
    refine ⟨Finset.mem_erase.mpr ⟨hother', hwaiting⟩, hnone, ?_, hmac⟩
    rcases hclosed with rfl | rfl
    · exact hnot
    · exact fun hmem => hnot (Finset.mem_of_mem_insert_of_ne hmem hother')
  · have hother' := hne other _ hother rfl
    exact (hord.data_writer other payload hother).imp_left (hwriters other hother').mpr
  · have hother' : other ≠ id := by
      rintro rfl
      exact hopen hother
    exact (hord.mac_writer other hsome hother).imp_left (hwriters other hother').mpr
  · rcases hclosed with rfl | rfl
    · exact hnot
    · exact fun hmem => hnot (Finset.mem_insert_of_mem hmem)

theorem retire (hinv : Inv s) {first : Bool} {vm : Vm}
    (hquiet : Undisturbed s id) (hid : id.toNat < s.mac.ids.next.toNat)
    (h : s.vm.retire id = .ok (first, vm)) : Orderly { s with vm := vm } := by
  have hdrop : id ∉ (s.vm.ids.drop id).opened := by simp
  obtain ⟨-, ⟨-, -, rfl⟩ | ⟨-, -, rfl⟩⟩ := Vm.retire_cases h
  · exact (hord.drop hquiet).giveUp (hinv.drop hid) hquiet hid hdrop
      (fun other hother => by simp [hother]) (Finset.erase_subset _ _) (.inr rfl)
  · exact (hord.drop hquiet).giveUp (hinv.drop hid) hquiet hid hdrop
      (fun _ _ => Iff.rfl) (Finset.Subset.refl _) (.inl rfl)

theorem setPausing {pausing : Option (Bool × List PauseAct)} {stop : Bool}
    (hends : ∀ id, .sendClose id ∈ (pausing.map Prod.snd).getD [] →
      ¬ Uplink.Ends (s.vm.uplinks id) ∧ id ∈ s.mac.ids.opened ∧
        ∀ frame ∈ s.toMac, frame.closes ≠ some id)
    (hfirst : ∀ id, .sendClose id ∉ ((pausing.map Prod.snd).getD []).tail) :
    Orderly { s with vm := { s.vm with pausing := pausing, stop := stop } } :=
  { hord with
    ends_open := fun id h => ⟨(hord.ends_open id h).1, (hord.ends_open id h).2.1,
      fun hact => (hends id hact).1 h⟩
    act_open := fun id hact => (hends id hact).2
    act_first := hfirst }

theorem pause (byControl : Bool) (order : List UInt64) :
    Orderly { s with vm := s.vm.pause byControl order } := by
  by_cases hstop : s.vm.stop = true
  · rw [Vm.pause, if_pos hstop]
    exact hord
  · rw [Vm.pause, if_neg hstop]
    refine hord.setPausing (fun id hact => by simp at hact) fun id hact => ?_
    have hmem := mem_of_mem_tail hact
    simp at hmem

theorem nextAct {act : PauseAct} {acts : List PauseAct}
    (hacts : s.vm.acts = act :: acts) (byControl : Bool) :
    Orderly { s with vm := { s.vm with pausing := some (byControl, acts) } } := by
  have hnone : ∀ id, .sendClose id ∉ acts := fun id hact =>
    hord.act_first id (hacts ▸ hact)
  exact hord.setPausing (fun id hact => absurd hact (hnone id)) fun id hact =>
    hnone id (mem_of_mem_tail hact)

theorem giveOut (hinv : Inv s) (halloc : s.vm.ids.alloc = .ok (id, ids)) :
    Orderly { s with vm := { s.vm with
      ids := ids, history := s.vm.history ++ [id], accept := .keep id srcPort addr } } := by
  obtain ⟨rfl, -, hopened⟩ := IdWindow.alloc_eq_ok halloc
  have hfresh : s.mac.ids.next.toNat ≤ s.vm.ids.next.toNat := hinv.next ▸ Nat.le_add_right ..
  refine { hord with
    toVm_open := fun other frame hframe habout => ?_
    mac_writer := fun other hsome hother => ?_
    accept_waiting := (by simp) }
  · show other ∈ ids.opened
    exact hopened ▸ Finset.mem_insert_of_mem (hord.toVm_open other frame hframe habout)
  · have hother' : other ∈ insert s.vm.ids.next s.vm.ids.opened := hopened ▸ hother
    rcases Finset.mem_insert.mp hother' with rfl | hother'
    · exact absurd (hinv.fresh_mac _ hfresh) hsome
    · exact hord.mac_writer other hsome hother'

omit hord

end Orderly

theorem Inv.opening_nodup (hinv : Inv s) : s.opening.Nodup :=
  List.Nodup.of_map UInt64.toNat (hinv.span ▸ nodup_range')

/-! ## Steps -/

variable (hord : Orderly s)
include hord

theorem orderly_accept (hinv : Inv s) (h : acceptStep opts s = some s') :
    Orderly s' := by
  simp only [acceptStep] at h
  split at h
  · cases h
    refine { hord with accept_waiting := fun id srcPort addr haccept => ?_ }
    split at haccept <;> cases haccept
  · cases h
    exact { hord with accept_waiting := (by simp) }
  · next id srcPort addr haccept =>
    cases h
    exact { hord with
      openOk := fun other hother => ⟨Finset.mem_insert_of_mem (hord.openOk other hother).1,
        (hord.openOk other hother).2⟩
      open_waiting := fun other frame hframe hopens =>
        Finset.mem_insert_of_mem (hord.open_waiting other frame hframe hopens)
      accept_waiting := by
        rintro _ _ _ ⟨⟩
        exact Finset.mem_insert_self .. }
  · next id srcPort addr haccept =>
    cases h
    have hset : Orderly { s with vm := { s.vm with accept := .check } } :=
      { hord with accept_waiting := (by simp) }
    have hopening : s.opening = s.toMac.filterMap Frame.opens ++ [id] := by
      simp [Tunnel.opening, haccept, Accept.pending]
    have hfresh := hinv.fresh_of_opening (show id ∈ s.opening by simp [hopening])
    refine hset.sendMac trivial (fun other hother => ⟨by simp, fun id' hid hid' => ?_⟩)
      (by rintro _ _ ⟨⟩) ?_ (by rintro _ ⟨⟩)
    · -- nothing is on its way about an id that is not yet sent
      exfalso
      cases hid'
      rcases (hord.fromVm other hother).cases_about hid with hopens | ⟨hlater, -⟩
      · have hnodup := hinv.opening_nodup
        rw [hopening] at hnodup
        have hmem : id ∈ s.toMac.filterMap Frame.opens :=
          mem_filterMap.mpr ⟨other, hother, hopens⟩
        exact (nodup_append.mp hnodup).2.2 id hmem id mem_cons_self rfl
      · have hlt := s.mac.ids.below id (hord.toMac_open id other hother hid hlater)
        omega
    · rintro _ ⟨⟩
      exact hord.accept_waiting id srcPort addr haccept
  · cases h
  · cases h

theorem orderly_client (hinv : Inv s) (h : clientStep s srcPort addr = some s') :
    Orderly s' := by
  simp only [clientStep] at h
  split at h
  · split at h
    · next halloc =>
      cases h
      exact hord.giveOut hinv halloc
    all_goals
      cases h
      exact { hord with accept_waiting := (by simp) }
  · cases h

theorem orderly_uplink (huncrossed : Uncrossed s (.uplink id order))
    (h : uplinkStep s id order = some s') : Orderly s' := by
  simp only [uplinkStep] at h
  split at h
  · next hold =>
    cases h
    refine hord.setUplink (by simp [hold]) ?_
    split <;> simp
  · next payload hold =>
    cases h
    obtain ⟨hmac, hframes⟩ := huncrossed.sendsMac id (by simp [Tunnel.sendsMac, hold])
    have hset : Orderly { s with vm := s.vm.setUplink id (.note payload.length) } :=
      hord.setUplink (by simp [hold]) (by simp)
    refine hset.sendMac trivial (fun other hother => ?_) ?_ (by rintro _ ⟨⟩) (by rintro _ ⟨⟩)
    · exact follows_later (hord.fromVm other hother) (hframes other hother) rfl trivial
    · rintro _ ⟨⟩ -
      exact hmac
  · next n hold =>
    split at h
    · have hmeter : Orderly { s with vm := { s.vm with meter := (s.vm.meter.noteTx n).2 } } :=
        { hord with }
      split at h
      · cases h
        have hpaused : ({ s.vm with meter := (s.vm.meter.noteTx n).2 }.pause false order).uplinks id =
            some (.note n) := by
          simp only [Vm.pause]
          split <;> exact hold
        exact (hmeter.pause false order).setUplink (by simp [hpaused]) (by simp)
      · cases h
        exact hmeter.setUplink (by simp [hold]) (by simp)
    · cases h
  · next reason hold =>
    cases h
    have hquiet := huncrossed.givesBack id (by simp [Tunnel.givesBack, hold])
    split
    · next ids hclose =>
      obtain ⟨hopen, rfl⟩ := IdWindow.close_eq_ok hclose
      exact (hord.drop (hquiet hopen)).setUplink (by simp [hold]) (by simp [hold])
    · exact hord.setUplink (by simp [hold]) (by simp [hold])
  · next reason hold =>
    cases h
    obtain ⟨hmac, hframes, hact⟩ := hord.ends_open id (by simp [hold])
    have hset : Orderly { s with vm := s.vm.setUplink id .done } :=
      hord.setUplink (by simp [hold]) (by simp)
    have hself : (s.vm.setUplink id .done).uplinks id = some .done := update_self ..
    refine hset.sendMac trivial (fun other hother => ?_) ?_ (by rintro _ ⟨⟩) ?_
    · exact follows_later (hord.fromVm other hother) (hframes other hother) rfl trivial
    · rintro _ ⟨⟩ -
      exact hmac
    · rintro _ ⟨⟩
      exact ⟨by simp [hself], hact⟩
  · cases h
  · cases h
  · cases h

theorem orderly_clientRead {payload : List UInt8}
    (h : clientReadStep s id payload = some s') : Orderly s' := by
  simp only [clientReadStep] at h
  split at h
  · next hread =>
    cases h
    exact hord.setUplink (by simp [hread.1]) (by simp)
  · cases h

theorem orderly_clientEnd (hinv : Inv s) {reset : Bool}
    (h : clientEndStep s id reset = some s') : Orderly s' := by
  simp only [clientEndStep] at h
  split at h
  · next hread =>
    split at h
    · cases h
      exact hord.setUplink (by simp [hread]) (by simp)
    · next hclosed =>
      cases h
      exact hord.claim hinv (by simp [hread]) hclosed
  · cases h

theorem orderly_pause (hinv : Inv s) (huncrossed : Uncrossed s .pause)
    (h : pauseStep s = some s') : Orderly s' := by
  simp only [pauseStep] at h
  split at h
  · cases h
  · cases h
    exact hord.setPausing (by simp) (by simp)
  · next who id acts hpausing =>
    have hacts : s.vm.acts = .retire id :: acts := by simp [Vm.acts, hpausing]
    have hquiet := huncrossed.givesBack id (by simp [Tunnel.givesBack, hacts])
    have hid : id.toNat < s.mac.ids.next.toNat := Nat.lt_of_not_le fun hfresh =>
      hinv.fresh_retire id hfresh (by simp [hacts])
    split at h
    · cases h
      exact hord.nextAct hacts who
    · next vm hretire =>
      cases h
      have hcases := Vm.retire_cases hretire
      have hretired := hord.retire hinv (hquiet hcases.1) hid hretire
      obtain ⟨-, ⟨hwriter, hfirst, rfl⟩ | ⟨-, hfirst, -⟩⟩ := hcases
      · have hclosed : id ∉ s.vm.closed := by simpa using hfirst
        have hmac := hord.uplink_open id (hord.writer_uplink id hwriter) hclosed
        have hnone : ∀ other, .sendClose other ∉ acts := fun other hact =>
          hord.act_first other (hacts ▸ hact)
        refine hretired.setPausing (fun other hact => ?_) fun other hact => hnone other hact
        rcases mem_cons.mp hact with heq | hact
        · cases heq
          refine ⟨fun hends => hclosed (hinv.ends_closed id hends), hmac, ?_⟩
          exact fun frame hframe hcloses => hclosed (hinv.close_toMac id frame hframe hcloses).1
        · exact absurd hact (hnone other)
      · cases hfirst
    · next vm hretire =>
      cases h
      have hcases := Vm.retire_cases hretire
      have hretired := hord.retire hinv (hquiet hcases.1) hid hretire
      have hacts' : vm.acts = .retire id :: acts := by
        rw [← hacts, Vm.acts, Vm.acts, (hinv.retire hid hretire).2.2.2]
      exact hretired.nextAct hacts' who
  · next who id acts hpausing =>
    cases h
    have hacts : s.vm.acts = .sendClose id :: acts := by simp [Vm.acts, hpausing]
    obtain ⟨hmac, hframes⟩ := hord.act_open id (by simp [hacts])
    refine (hord.nextAct hacts who).sendMac trivial (fun other hother => ?_) ?_ (by rintro _ ⟨⟩) ?_
    · exact follows_later (hord.fromVm other hother) (hframes other hother) rfl trivial
    · rintro _ ⟨⟩ -
      exact hmac
    · rintro _ ⟨⟩
      have hnone : .sendClose id ∉ acts := fun hact => hord.act_first id (hacts ▸ hact)
      exact ⟨fun hends => (hord.ends_open id hends).2.2 (by simp [hacts]), hnone⟩
  · next who acts hpausing =>
    cases h
    have hacts : s.vm.acts = .sendQuota :: acts := by simp [Vm.acts, hpausing]
    exact (hord.nextAct hacts who).sendMac_quiet trivial rfl

omit hord

def Taken : Except SessionEnd Tunnel → Prop
  | .ok s => Orderly s
  | .error e => e = .io

variable (hord : Orderly s)
include hord

theorem Orderly.undisturbed (htoVm : s.toVm = frame :: rest)
    (habout : frame.about = some id) (hends : ¬ frame.GoesOn) :
    Undisturbed { s with toVm := rest } id := fun other hother =>
  ((pairwise_cons.mp (htoVm ▸ hord.order_toVm)).1 other hother).about_ne habout hends

theorem orderly_startUplink (hinv : Inv s) (htoVm : s.toVm = .openOk id :: rest) :
    Orderly { s with toVm := rest, vm :=
      { s.vm with waiting := s.vm.waiting.erase id }.startUplink id true } := by
  obtain ⟨horder, hrest⟩ := pairwise_cons.mp (htoVm ▸ hord.order_toVm)
  have hhead : .openOk id ∈ s.toVm := htoVm ▸ mem_cons_self ..
  have hsub : ∀ other ∈ rest, other ∈ s.toVm := fun other hother => by simp [htoVm, hother]
  obtain ⟨-, hnone, -, hmac⟩ := hord.openOk id hhead
  have hid := hinv.lt_of_toVm hhead rfl
  have hwaiting := hord.erase_waiting hinv hid
  have hok : ∀ other, .openOk other ∈ rest → other ≠ id := by
    rintro other hother rfl
    exact ((horder _ hother).2 other rfl rfl).2
  have hself : (Function.update s.vm.uplinks id (some .check)) id = some .check :=
    update_self ..
  have hne : ∀ other, other ≠ id →
      Function.update s.vm.uplinks id (some .check) other = s.vm.uplinks other :=
    fun other hother => update_of_ne hother ..
  have hwriter : ∀ other, other ∈ s.vm.writers ∨ .openOk other ∈ s.toVm →
      other ∈ insert id s.vm.writers ∨ .openOk other ∈ rest := by
    rintro other (hother | hother)
    · exact .inl (Finset.mem_insert_of_mem hother)
    · rcases mem_cons.mp (htoVm ▸ hother) with heq | hother
      · cases heq
        exact .inl (Finset.mem_insert_self ..)
      · exact .inr hother
  refine { hord with
    fromMac := fun other hother => hord.fromMac other (hsub other hother)
    hello := fun hother => hord.hello (hsub _ hother)
    order_toVm := hrest
    toVm_open := fun other frame hframe => hord.toVm_open other frame (hsub frame hframe)
    openOk := fun other hother => ?_
    data_writer := fun other payload hother =>
      hwriter other (hord.data_writer other payload (hsub _ hother))
    mac_goesOn := fun other hsome hdone frame hframe =>
      hord.mac_goesOn other hsome hdone frame (hsub frame hframe)
    mac_writer := fun other hsome hopen => hwriter other (hord.mac_writer other hsome hopen)
    open_waiting := hwaiting.1
    accept_waiting := hwaiting.2
    writer_uplink := fun other hother => ?_
    uplink_open := fun other hsome hclosed => ?_
    ends_open := fun other hends => ?_ }
  · obtain ⟨hwaiting, hother', hclosed, hopen⟩ := hord.openOk other (hsub _ hother)
    exact ⟨Finset.mem_erase.mpr ⟨hok other hother, hwaiting⟩,
      (hne other (hok other hother)).trans hother', fun h => hclosed (Finset.mem_of_mem_erase h), hopen⟩
  · rcases eq_or_ne other id with rfl | hother'
    · exact fun hnone => by cases hself.symm.trans hnone
    · have hmem := Finset.mem_of_mem_insert_of_ne hother hother'
      exact fun hnone => hord.writer_uplink other hmem ((hne other hother').symm.trans hnone)
  · rcases eq_or_ne other id with rfl | hother'
    · exact hmac
    · refine hord.uplink_open other (hne other hother' ▸ hsome) fun h => hclosed ?_
      exact Finset.mem_erase.mpr ⟨hother', h⟩
  · rcases eq_or_ne other id with rfl | hother'
    · exact absurd (hself ▸ hends : Uplink.Ends (some .check)) (by simp)
    · exact hord.ends_open other (hne other hother' ▸ hends)

theorem taken_onVmFrame (hinv : Inv s) (htoVm : s.toVm = frame :: rest)
    (hkeeps : ∀ id, frame = .openOk id → io = true) :
    Taken (onVmFrame { s with toVm := rest } frame io order) := by
  have hmem : frame ∈ s.toVm := htoVm ▸ mem_cons_self ..
  have hpopInv := hinv.popVm htoVm
  cases frame with
  | hello =>
    have hpop := hord.popVm htoVm (by simp)
    have hseen := hord.hello hmem
    simp only [onVmFrame, observe, hseen, Bool.false_eq_true, if_false]
    have hnone : .hello ∉ rest := fun hother =>
      ((pairwise_cons.mp (htoVm ▸ hord.order_toVm)).1 _ hother).1 rfl
    exact { hpop with hello := fun hother => absurd hother hnone }
  | ping unixMs => exact (hord.popVm htoVm (by simp)).sendMac_quiet trivial rfl
  | pong unixMs => exact hord.popVm htoVm (by simp)
  | openOk id =>
    obtain rfl := hkeeps id rfl
    have hopen := hord.toVm_open id _ hmem rfl
    have hwaiting := (hord.openOk id hmem).1
    simp only [onVmFrame, IdWindow.requireOpen_of_mem hopen, if_pos hwaiting]
    exact orderly_startUplink hord hinv htoVm
  | openFail id reason =>
    have hopen := hord.toVm_open id _ hmem rfl
    have hid := hinv.lt_of_toVm hmem (show Frame.about _ = some id from rfl)
    have hquiet := hord.undisturbed htoVm (show Frame.about _ = some id from rfl) (by rintro ⟨⟩)
    simp only [onVmFrame, IdWindow.close_of_mem hopen]
    have hdrop : id ∉ (s.vm.ids.drop id).opened := by simp
    exact ((hord.popVm htoVm (by simp)).drop hquiet).giveUp (hpopInv.drop hid) hquiet hid hdrop
      (fun _ _ => Iff.rfl) (Finset.Subset.refl _) (.inl rfl)
  | data id payload =>
    have hopen := hord.toVm_open id _ hmem rfl
    have hpop := hord.popVm htoVm (by simp)
    have hwriter : id ∈ s.vm.writers := by
      refine (hord.data_writer id payload hmem).resolve_right fun hok => ?_
      rcases mem_cons.mp (htoVm ▸ hok) with heq | hok
      · cases heq
      · exact (((pairwise_cons.mp (htoVm ▸ hord.order_toVm)).1 _ hok).2 id rfl rfl).2
    simp only [onVmFrame, IdWindow.requireOpen_of_mem hopen, if_pos hwriter]
    have hmeter : Orderly { s with toVm := rest, vm := { s.vm with
        meter := (s.vm.meter.noteTx payload.length).2 } } := { hpop with }
    split
    · exact hpop.pause true order
    · split
      · rfl
      · simp only [Taken]
        split
        · exact hmeter.pause true order
        · exact hmeter
  | close id reason =>
    have hopen := hord.toVm_open id _ hmem rfl
    have hid := hinv.lt_of_toVm hmem (show Frame.about _ = some id from rfl)
    have hquiet := hord.undisturbed htoVm (show Frame.about _ = some id from rfl) (by rintro ⟨⟩)
    simp only [onVmFrame]
    split
    · next e hretire =>
      simp [Vm.retire, IdWindow.close_of_mem hopen, bind, Except.bind, pure, Except.pure] at hretire
      split at hretire <;> cases hretire
    · next first vm hretire =>
      exact (hord.popVm htoVm (by simp)).retire hpopInv hquiet hid hretire
  | helloOk | «open» | quota => exact (hord.fromMac _ hmem).elim

theorem taken_vmSession (hinv : Inv s) (htoVm : s.toVm = frame :: rest)
    (hkeeps : ∀ id, frame = .openOk id → io = true) :
    Taken (vmSession { s with toVm := rest } frame io today order) := by
  rw [vmSession]
  split
  · next hhello =>
    obtain ⟨rfl, hforwarding⟩ := hhello
    have hmem : .hello ∈ s.toVm := htoVm ▸ mem_cons_self ..
    have hpop := hord.popVm htoVm (by simp)
    have hnone : .hello ∉ rest := fun hother =>
      ((pairwise_cons.mp (htoVm ▸ hord.order_toVm)).1 _ hother).1 rfl
    have hseen : Orderly { s with toVm := rest, vm := { s.vm with helloSeen := true } } :=
      { hpop with hello := fun hother => absurd hother hnone }
    simp only [observe, hord.hello hmem, Bool.false_eq_true, if_false, answerHello]
    have hok : Orderly ({ s with toVm := rest, vm := { s.vm with helloSeen := true } }.sendMac
        (.helloOk s.vm.meter.txBytes s.vm.meter.state today.1 today.2)) :=
      hseen.sendMac_quiet trivial rfl
    split
    · show Orderly (Tunnel.sendMac _ (.quota _ _))
      exact hok.sendMac_quiet trivial rfl
    · split
      · rfl
      · exact { hok with accept_waiting := (by simp) }
  · exact taken_onVmFrame hord hinv htoVm hkeeps

theorem orderly_macUplink (huncrossed : Uncrossed s (.macUplink id))
    (h : macUplinkStep s id = some s') : Orderly s' := by
  have hsend : ∀ (frame : Frame) (next : Uplink), s.mac.uplinks id ≠ none →
      s.mac.uplinks id ≠ some .done → id ∈ s.vm.ids.opened → frame.about = some id → frame.Later →
      frame.FromMac → (frame.GoesOn ∨ next = .done) → (∀ id, frame ≠ .openOk id) →
      Orderly ({ s with mac := s.mac.setUplink id next }.sendVm frame) := by
    intro frame next hsome hdone hopen habout hlater hfrom hgoes hok
    have hself : (s.mac.setUplink id next).uplinks id = some next := update_self ..
    have hset : Orderly { s with mac := s.mac.setUplink id next } :=
      hord.setUplinkMac hsome fun _ => hdone
    have hid : ∀ id', frame.about = some id' → id' = id := fun id' hid' =>
      Option.some.inj (hid'.symm.trans habout)
    refine hset.sendVm hfrom ?_ (fun other hother => ⟨?_, fun id' hfirst hsecond => ⟨?_, hlater⟩⟩)
      (fun id' hid' => hid id' hid' ▸ hopen) (fun id' heq => absurd heq (hok id')) ?_ ?_
    · rintro rfl
      exact hlater
    · rintro rfl
      exact hlater
    · exact hord.mac_goesOn id hsome hdone other hother (hid id' hsecond ▸ hfirst)
    · rintro id' payload rfl
      obtain rfl := hid id' rfl
      exact hord.mac_writer id' hsome hopen
    · intro id' hid' _ hnot
      obtain rfl := hid id' hid'
      exact hgoes.resolve_right fun hnext => hnot (hself.trans (by rw [hnext]))
  simp only [macUplinkStep] at h
  split at h
  · next hold =>
    cases h
    exact hord.setUplinkMac (by simp [hold]) fun _ => by simp [hold]
  · next payload hold =>
    cases h
    have hopen := huncrossed.sendsVm id (by simp [Tunnel.sendsVm, hold])
    exact hsend _ _ (by simp [hold]) (by simp [hold]) hopen rfl trivial trivial (.inl trivial) (by simp)
  · next reason hold =>
    cases h
    have hopen := huncrossed.sendsVm id (by simp [Tunnel.sendsVm, hold])
    exact hsend _ _ (by simp [hold]) (by simp [hold]) hopen rfl trivial trivial (.inr rfl) (by simp)
  all_goals cases h

theorem orderly_upstreamRead {payload : List UInt8}
    (h : upstreamReadStep s id payload = some s') : Orderly s' := by
  simp only [upstreamReadStep] at h
  split at h
  · next hread =>
    cases h
    exact hord.setUplinkMac (by simp [hread.1]) fun _ => by simp [hread.1]
  · cases h

theorem orderly_upstreamEnd {reset : Bool}
    (h : upstreamEndStep s id reset = some s') : Orderly s' := by
  simp only [upstreamEndStep] at h
  split at h
  · next hread =>
    split at h
    · cases h
      exact hord.setUplinkMac (by simp [hread]) fun _ => by simp [hread]
    · cases h
      have hclosed : Orderly { s with mac := { s.mac with closed := insert id s.mac.closed } } :=
        { hord with }
      exact hclosed.setUplinkMac (by simp [hread]) fun _ => by simp [hread]
  · cases h

theorem orderly_macClose (hinv : Inv s) {reason : CloseReason}
    (htoMac : s.toMac = .close id reason :: rest)
    (hwriters : ∀ other ∈ s.mac.writers, other ≠ id → other ∈ writers) :
    Orderly { s with toMac := rest, mac := { s.mac with
      ids := s.mac.ids.drop id, writers := writers, closed := closed } } := by
  obtain ⟨horder, -⟩ := pairwise_cons.mp (htoMac ▸ hord.order_toMac)
  have hpop := hord.popMac htoMac
  have hhead : .close id reason ∈ s.toMac := htoMac ▸ mem_cons_self ..
  obtain ⟨hclosed, hopen⟩ := hinv.close_toMac id _ hhead rfl
  have hkeep : ∀ other ∈ s.mac.ids.opened, other ≠ id → other ∈ (s.mac.ids.drop id).opened :=
    fun other hother hne => IdWindow.mem_drop.mpr ⟨hne, hother⟩
  refine { hpop with
    toMac_open := fun other frame hframe habout hlater => ?_
    openOk := fun other hother => ?_
    opened_writer := fun other hother => ?_
    uplink_open := fun other hsome hnot => ?_
    ends_open := fun other hends => ?_
    act_open := fun other hact => ?_ }
  · refine hkeep other (hpop.toMac_open other frame hframe habout hlater) ?_
    rintro rfl
    exact ((horder frame hframe).2 other rfl habout).1
  · obtain ⟨hwaiting, hnone, hnot, hmac⟩ := hpop.openOk other hother
    refine ⟨hwaiting, hnone, hnot, hkeep other hmac ?_⟩
    rintro rfl
    exact hnot hclosed
  · obtain ⟨hne, hother⟩ := IdWindow.mem_drop.mp hother
    exact hwriters other (hord.opened_writer other hother) hne
  · refine hkeep other (hord.uplink_open other hsome hnot) ?_
    rintro rfl
    exact hnot hclosed
  · obtain ⟨hmac, hframes, hact⟩ := hord.ends_open other hends
    refine ⟨hkeep other hmac ?_, (hpop.ends_open other hends).2⟩
    rintro rfl
    exact hframes _ hhead rfl
  · obtain ⟨hmac, hframes⟩ := hord.act_open other hact
    refine ⟨hkeep other hmac ?_, (hpop.act_open other hact).2⟩
    rintro rfl
    exact hframes _ hhead rfl

theorem Orderly.setMac (hgrow : ∀ id ∈ s.mac.ids.opened, id ∈ ids.opened)
    (hwriters : ∀ id ∈ ids.opened, id ∈ writers) :
    Orderly { s with mac := { s.mac with
      ids := ids, history := history, writers := writers, closed := closed } } :=
  { hord with
    toMac_open := fun id frame hframe habout hlater =>
      hgrow id (hord.toMac_open id frame hframe habout hlater)
    openOk := fun id hid =>
      (hord.openOk id hid).imp_right (And.imp_right (And.imp_right (hgrow id)))
    opened_writer := hwriters
    uplink_open := fun id hsome hnot => hgrow id (hord.uplink_open id hsome hnot)
    ends_open := fun id hends => (hord.ends_open id hends).imp_left (hgrow id)
    act_open := fun id hact => (hord.act_open id hact).imp_left (hgrow id) }

theorem orderly_refuse (hsame : ids.opened = s.mac.ids.opened)
    (hvm : id ∈ s.vm.ids.opened) (hfresh : ∀ frame ∈ s.toVm, frame.about ≠ some id)
    (hnone : s.mac.uplinks id = none) (reason : OpenFailReason) :
    Orderly ({ s with mac := { s.mac with ids := ids, history := history } }.sendVm
      (.openFail id reason)) := by
  have hset : Orderly { s with mac := { s.mac with ids := ids, history := history } } :=
    hord.setMac (fun other hother => hsame.symm ▸ hother)
      fun other hother => hord.opened_writer other (hsame ▸ hother)
  refine hset.sendVm trivial (by simp) (fun other hother => ⟨by simp, ?_⟩) ?_ (by simp) (by simp) ?_
  · rintro _ hid ⟨⟩
    exact absurd hid (hfresh other hother)
  · rintro _ ⟨⟩
    exact hvm
  · rintro _ ⟨⟩ hsome
    exact absurd hnone hsome

theorem orderly_openOk (hopened : ids.opened = insert id s.mac.ids.opened)
    (hvm : id ∈ s.vm.ids.opened) (hfresh : ∀ frame ∈ s.toVm, frame.about ≠ some id)
    (hnone : s.vm.uplinks id = none) (hnew : s.mac.uplinks id = none) (hclosed : id ∉ s.vm.closed)
    (hwaiting : id ∈ s.vm.waiting) :
    Orderly ({ s with mac := { s.mac with
      ids := ids, history := history, writers := insert id s.mac.writers
      closed := s.mac.closed.erase id
      uplinks := Function.update s.mac.uplinks id (some .check) } }.sendVm (.openOk id)) := by
  have hne : ∀ other, other ≠ id →
      Function.update s.mac.uplinks id (some .check) other = s.mac.uplinks other :=
    fun other hother => update_of_ne hother ..
  have hset : Orderly { s with mac := { s.mac with
      ids := ids, history := history, writers := insert id s.mac.writers
      closed := s.mac.closed.erase id } } := by
    refine hord.setMac (fun other hother => hopened ▸ Finset.mem_insert_of_mem hother) ?_
    rw [hopened]
    exact Finset.insert_subset_insert id hord.opened_writer
  have hsent := hset.sendVm (show Frame.FromMac (.openOk id) from trivial) (by simp)
    (fun frame hframe => ⟨by simp, fun _ hid hid' =>
      absurd hid (Option.some.inj hid' ▸ hfresh frame hframe)⟩)
    (fun _ hid => Option.some.inj hid ▸ hvm)
    (fun _ heq => Frame.openOk.inj heq ▸ ⟨hwaiting, hnone, hclosed, hopened ▸ Finset.mem_insert_self ..⟩)
    (fun _ _ heq => by cases heq)
    (fun _ hid hsome => absurd (Option.some.inj hid ▸ hnew) hsome)
  refine { hsent with
    mac_goesOn := fun other hsome hdone frame hframe habout => ?_
    mac_writer := fun other hsome hopen => ?_ }
  · rcases mem_append.mp hframe with hold | hframe
    · have hother : other ≠ id := by
        rintro rfl
        exact hfresh frame hold habout
      exact hord.mac_goesOn other (hne other hother ▸ hsome) (hne other hother ▸ hdone) frame hold habout
    · obtain rfl := mem_singleton.mp hframe
      trivial
  · rcases eq_or_ne other id with rfl | hother
    · exact .inr (mem_append_right _ mem_cons_self)
    · exact hsent.mac_writer other (hne other hother ▸ hsome) hopen

theorem taken_openOnMac (hinv : Inv s) {publicPort : UInt16}
    (htoMac : s.toMac = .open id publicPort srcPort addr :: rest) :
    Taken (openOnMac { s with toMac := rest } id publicPort dial) := by
  obtain ⟨rfl, hopening⟩ := hinv.opening_head htoMac rfl
  have hhead : .open s.mac.ids.next publicPort srcPort addr ∈ s.toMac := htoMac ▸ mem_cons_self ..
  have hvm : s.mac.ids.next ∈ s.vm.ids.opened :=
    hinv.opening_open _ (hopening ▸ mem_cons_self ..)
  have hlt : s.mac.ids.next.toNat < s.vm.ids.next.toNat := by
    have hnext := hinv.next
    rw [hopening, length_cons] at hnext
    omega
  have hpop := hord.popMac htoMac
  have hfresh := hinv.fresh_toVm s.mac.ids.next (Nat.le_refl _)
  have hnone := hinv.fresh_mac s.mac.ids.next (Nat.le_refl _)
  obtain ⟨⟨outcome, ids⟩, hadmit⟩ := IdWindow.admitId_next (checkedSucc_of_lt hlt)
  obtain ⟨-, -, hspec⟩ := IdWindow.admitId_eq_ok hadmit
  have hnot : s.mac.ids.next ∉ s.mac.ids.opened := fun hmem =>
    Nat.lt_irrefl _ (s.mac.ids.below _ hmem)
  cases outcome with
  | cap =>
    simp only [openOnMac, hadmit]
    obtain ⟨-, hsame⟩ | ⟨hcap, -⟩ := hspec
    · exact orderly_refuse hpop hsame hvm hfresh hnone .cap
    · cases hcap
  | opened =>
    obtain ⟨hcap, -⟩ | ⟨-, hopened⟩ := hspec
    · cases hcap
    have hmem : s.mac.ids.next ∈ ids.opened := hopened ▸ Finset.mem_insert_self ..
    have hsame : (ids.drop s.mac.ids.next).opened = s.mac.ids.opened :=
      (congrArg (Finset.erase · s.mac.ids.next) hopened).trans (Finset.erase_insert hnot)
    have hrefused : ∀ reason, Orderly ({ s with toMac := rest, mac := { s.mac with
        ids := ids.drop s.mac.ids.next, history := s.mac.history ++ [s.mac.ids.next] } }.sendVm
        (.openFail s.mac.ids.next reason)) := fun reason =>
      orderly_refuse hpop hsame hvm hfresh hnone reason
    simp only [openOnMac, hadmit, IdWindow.close_of_mem hmem]
    split
    · exact hrefused .badPort
    · split
      · exact hrefused .dialRefused
      · rfl
      · rfl
      · exact orderly_openOk hpop hopened hvm hfresh
          (hinv.fresh_uplink s.mac.ids.next (Nat.le_refl _)) hnone
          (hinv.fresh_closed s.mac.ids.next (Nat.le_refl _)) (hord.open_waiting _ _ hhead rfl)

theorem taken_serveMac (hinv : Inv s) (htoMac : s.toMac = frame :: rest) :
    Taken (serveMac { s with toMac := rest } frame dial io) := by
  have hmem : frame ∈ s.toMac := htoMac ▸ mem_cons_self ..
  have hpop := hord.popMac htoMac
  cases frame with
  | helloOk | pong | quota => exact hpop
  | ping unixMs => exact hpop.sendVm_quiet trivial (by simp) rfl
  | «open» id publicPort srcPort addr => exact taken_openOnMac hord hinv htoMac
  | data id payload =>
    have hopen := hord.toMac_open id _ hmem rfl trivial
    have hwriter := hord.opened_writer id hopen
    simp only [serveMac, IdWindow.requireOpen_of_mem hopen, if_pos hwriter]
    split
    · exact hpop
    · rfl
  | close id reason =>
    have hopen := hord.toMac_open id _ hmem rfl trivial
    simp only [serveMac, IdWindow.close_of_mem hopen, if_pos (hord.opened_writer id hopen)]
    exact orderly_macClose hord hinv htoMac fun other hother hne =>
      Finset.mem_erase.mpr ⟨hne, hother⟩
  | hello | openOk | openFail => exact (hord.fromVm _ hmem).elim

omit hord

/-- No side has ended the session for a protocol error. -/
def Sound (s : Tunnel) : Prop :=
  (∀ e, s.vmEnd ≠ some (.protocol e)) ∧ ∀ e, s.macEnd ≠ some (.protocol e)

theorem Tunnel.Live.sound (h : s.Live) : Sound s :=
  ⟨fun e he => by simp [h.1] at he, fun e he => by simp [h.2] at he⟩

theorem live_of_thread {event : Event} (hstep : step opts s event = some s')
    (hframe : ∀ io today order, event ≠ .vmFrame io today order)
    (hmac : ∀ dial io, event ≠ .macFrame dial io) (hstop : event ≠ .vmStop) : s'.Live := by
  have hlive := live_of_step hstep
  suffices hends : s'.vmEnd = s.vmEnd ∧ s'.macEnd = s.macEnd from
    ⟨hends.1.trans hlive.1, hends.2.trans hlive.2⟩
  simp only [step, if_pos hlive] at hstep
  cases event with
  | vmPing | macPing => cases hstep; exact ⟨rfl, rfl⟩
  | accept => simp only [acceptStep] at hstep; split at hstep <;> cases hstep <;> exact ⟨rfl, rfl⟩
  | client =>
    simp only [clientStep] at hstep
    split at hstep
    · split at hstep <;> cases hstep <;> exact ⟨rfl, rfl⟩
    · cases hstep
  | uplink =>
    simp only [uplinkStep] at hstep
    split at hstep
    · cases hstep; exact ⟨rfl, rfl⟩
    · cases hstep; exact ⟨rfl, rfl⟩
    · split at hstep
      · split at hstep <;> cases hstep <;> exact ⟨rfl, rfl⟩
      · cases hstep
    all_goals cases hstep <;> exact ⟨rfl, rfl⟩
  | clientRead =>
    simp only [clientReadStep] at hstep
    split at hstep <;> cases hstep
    exact ⟨rfl, rfl⟩
  | clientEnd =>
    simp only [clientEndStep] at hstep
    split at hstep
    · split at hstep <;> cases hstep <;> exact ⟨rfl, rfl⟩
    · cases hstep
  | pause =>
    simp only [pauseStep] at hstep
    split at hstep
    · cases hstep
    · cases hstep; exact ⟨rfl, rfl⟩
    · split at hstep <;> cases hstep <;> exact ⟨rfl, rfl⟩
    all_goals cases hstep; exact ⟨rfl, rfl⟩
  | vmStop => exact absurd rfl hstop
  | vmFrame io today order => exact absurd rfl (hframe io today order)
  | macUplink =>
    simp only [macUplinkStep] at hstep
    split at hstep <;> cases hstep <;> exact ⟨rfl, rfl⟩
  | upstreamRead =>
    simp only [upstreamReadStep] at hstep
    split at hstep <;> cases hstep
    exact ⟨rfl, rfl⟩
  | upstreamEnd =>
    simp only [upstreamEndStep] at hstep
    split at hstep
    · split at hstep <;> cases hstep <;> exact ⟨rfl, rfl⟩
    · cases hstep
  | macFrame dial io => exact absurd rfl (hmac dial io)

theorem onVmFrame_ends (h : onVmFrame s frame io order = .ok s') :
    s'.vmEnd = s.vmEnd ∧ s'.macEnd = s.macEnd := by
  cases frame <;> simp only [onVmFrame] at h
  case data =>
    split at h
    · cases h; exact ⟨rfl, rfl⟩
    · split at h
      · cases h
      · split at h
        · split at h <;> cases h
          exact ⟨rfl, rfl⟩
        · cases h
  case openOk =>
    split at h
    · cases h
    · split at h <;> cases h
      exact ⟨rfl, rfl⟩
  all_goals first | (cases h; exact ⟨rfl, rfl⟩) | cases h | (split at h <;> cases h; exact ⟨rfl, rfl⟩)

theorem vmSession_ends (h : vmSession s frame io today order = .ok s') :
    s'.vmEnd = s.vmEnd ∧ s'.macEnd = s.macEnd := by
  rw [vmSession] at h
  split at h
  · split at h
    · cases h
    · simp only [answerHello] at h
      split at h
      · cases h; exact ⟨rfl, rfl⟩
      · split at h <;> cases h
        exact ⟨rfl, rfl⟩
  · exact onVmFrame_ends h

theorem serveMac_ends (h : serveMac s frame dial io = .ok s') :
    s'.vmEnd = s.vmEnd ∧ s'.macEnd = s.macEnd := by
  cases frame <;> simp only [serveMac] at h
  case «open» =>
    obtain ⟨-, -, -, ⟨-, rfl⟩ | ⟨-, -, rfl⟩ | ⟨-, rfl⟩⟩ := openOnMac_cases h <;> exact ⟨rfl, rfl⟩
  case data =>
    split at h
    · cases h
    · split at h
      · split at h <;> cases h
        exact ⟨rfl, rfl⟩
      · cases h
  case close =>
    split at h
    · cases h
    · split at h <;> cases h <;> exact ⟨rfl, rfl⟩
  all_goals cases h <;> exact ⟨rfl, rfl⟩

theorem orderly_vmFrame (hord : Orderly s) (hinv : Inv s) (hlive : s.Live)
    (huncrossed : Uncrossed s (.vmFrame io today order))
    (h : vmFrameStep s io today order = some s') : (s'.Live → Orderly s') ∧ Sound s' := by
  simp only [vmFrameStep] at h
  split at h
  · cases h
  · next frame rest htoVm =>
    have htaken : Taken (vmSession { s with toVm := rest } frame io today order) := by
      refine taken_vmSession hord hinv htoVm ?_
      rintro id rfl
      simpa [Tunnel.loses, htoVm] using huncrossed.keeps
    split at h
    · split at h
      · next next hsession =>
        cases h
        rw [hsession] at htaken
        obtain ⟨hvm, hmac⟩ := vmSession_ends hsession
        have hlive' : s'.Live := ⟨hvm.trans hlive.1, hmac.trans hlive.2⟩
        exact ⟨fun _ => htaken, hlive'.sound⟩
      · next e hsession =>
        cases h
        rw [hsession] at htaken
        obtain rfl : e = .io := htaken
        exact ⟨fun hlive' => (by cases hlive'.1), (by simp), fun e he => by simp [hlive.2] at he⟩
    · cases h

theorem orderly_macFrame (hord : Orderly s) (hinv : Inv s) (hlive : s.Live)
    (h : macFrameStep s dial io = some s') : (s'.Live → Orderly s') ∧ Sound s' := by
  simp only [macFrameStep] at h
  split at h
  · cases h
  · next frame rest htoMac =>
    have htaken : Taken (serveMac { s with toMac := rest } frame dial io) :=
      taken_serveMac hord hinv htoMac
    split at h
    · next next hserve =>
      cases h
      rw [hserve] at htaken
      obtain ⟨hvm, hmac⟩ := serveMac_ends hserve
      have hlive' : s'.Live := ⟨hvm.trans hlive.1, hmac.trans hlive.2⟩
      exact ⟨fun _ => htaken, hlive'.sound⟩
    · next e hserve =>
      cases h
      rw [hserve] at htaken
      obtain rfl : e = .io := htaken
      exact ⟨fun hlive' => (by cases hlive'.2), fun e he => by simp [hlive.1] at he, (by simp)⟩

theorem step_orderly (hord : Orderly s) (hinv : Inv s) {event : Event}
    (huncrossed : Uncrossed s event) (hstep : step opts s event = some s') :
    (s'.Live → Orderly s') ∧ Sound s' := by
  have hlive := live_of_step hstep
  have hthread := live_of_thread hstep
  simp only [step, if_pos hlive] at hstep
  cases event with
  | vmFrame io today order => exact orderly_vmFrame hord hinv hlive huncrossed hstep
  | macFrame dial io => exact orderly_macFrame hord hinv hlive hstep
  | vmStop =>
    dsimp only at hstep
    split at hstep
    · cases hstep
      exact ⟨fun hlive' => (by cases hlive'.1), (by simp), fun e he => by simp [hlive.2] at he⟩
    · cases hstep
  | vmPing unixMs =>
    cases hstep
    exact ⟨fun _ => hord.sendMac_quiet trivial rfl, (hthread (by simp) (by simp) (by simp)).sound⟩
  | macPing unixMs =>
    cases hstep
    exact ⟨fun _ => hord.sendVm_quiet trivial (by simp) rfl,
      (hthread (by simp) (by simp) (by simp)).sound⟩
  | accept =>
    exact ⟨fun _ => orderly_accept hord hinv hstep, (hthread (by simp) (by simp) (by simp)).sound⟩
  | client srcPort addr =>
    exact ⟨fun _ => orderly_client hord hinv hstep, (hthread (by simp) (by simp) (by simp)).sound⟩
  | uplink id order =>
    exact ⟨fun _ => orderly_uplink hord huncrossed hstep, (hthread (by simp) (by simp) (by simp)).sound⟩
  | clientRead id payload =>
    exact ⟨fun _ => orderly_clientRead hord hstep, (hthread (by simp) (by simp) (by simp)).sound⟩
  | clientEnd id reset =>
    exact ⟨fun _ => orderly_clientEnd hord hinv hstep, (hthread (by simp) (by simp) (by simp)).sound⟩
  | pause =>
    exact ⟨fun _ => orderly_pause hord hinv huncrossed hstep,
      (hthread (by simp) (by simp) (by simp)).sound⟩
  | macUplink id =>
    exact ⟨fun _ => orderly_macUplink hord huncrossed hstep,
      (hthread (by simp) (by simp) (by simp)).sound⟩
  | upstreamRead id payload =>
    exact ⟨fun _ => orderly_upstreamRead hord hstep, (hthread (by simp) (by simp) (by simp)).sound⟩
  | upstreamEnd id reset =>
    exact ⟨fun _ => orderly_upstreamEnd hord hstep, (hthread (by simp) (by simp) (by simp)).sound⟩

/-! ## Runs -/

/-- No side rejects a frame when no frame crosses the end of its connection. -/
theorem no_frame_rejected {events : List Event}
    (halong : Runs.Along (step opts) Uncrossed (.start opts) events)
    (hrun : Runs.run (step opts) (.start opts) events = some s) : Sound s := by
  have hall : Sound s ∧ (s.Live → Inv s ∧ Orderly s) := by
    refine Runs.run_invariant (fun s => Sound s ∧ (s.Live → Inv s ∧ Orderly s)) ?_ halong
      ⟨⟨by rintro _ ⟨⟩, by rintro _ ⟨⟩⟩, fun _ => ⟨inv_start opts, orderly_start opts⟩⟩ hrun
    intro s event s' hall huncrossed hstep
    obtain ⟨hinv, hord⟩ := hall.2 (live_of_step hstep)
    obtain ⟨hord', hsound⟩ := step_orderly hord hinv huncrossed hstep
    exact ⟨hsound, fun hlive => ⟨step_inv hinv hstep hlive, hord' hlive⟩⟩
  exact hall.1

/-- Bytes go both ways, and then the client ends the connection. -/
def exchange : List Event :=
  connected ++ [Event.clientRead 1 [69], .uplink 1 [], .uplink 1 [1], .macFrame .connected true,
    .upstreamRead 1 [50], .macUplink 1, .vmFrame true (2025, 1) [1], .uplink 1 [],
    .clientEnd 1 false, .uplink 1 [], .uplink 1 [], .macFrame .connected true]

/-- The client ends the connection while bytes of the server are on their way. -/
def crossing : List Event :=
  connected ++ [Event.upstreamRead 1 [50], .macUplink 1, .clientEnd 1 false, .uplink 1 [],
    .vmFrame true (2025, 1) [1]]

theorem no_frame_rejected_exchange : ∃ s,
    Runs.run (step mailPort) (.start mailPort) exchange = some s ∧ Sound s ∧
      s.vm.history = [1] ∧ s.vm.ids.opened = ∅ ∧ s.mac.ids.opened = ∅ := by
  obtain ⟨s, hrun⟩ := isSome_iff_exists.mp
    (show (Runs.run (step mailPort) (.start mailPort) exchange).isSome by decide)
  have hend : ∀ s ∈ Runs.run (step mailPort) (.start mailPort) exchange,
      s.vm.history = [1] ∧ s.vm.ids.opened = ∅ ∧ s.mac.ids.opened = ∅ := by
    decide
  exact ⟨s, hrun, no_frame_rejected (by decide) hrun, hend s hrun⟩

/-- The VM rejects the bytes, and the session ends for all connections. -/
theorem data_rejected_crossing : ∃ s,
    Runs.run (step mailPort) (.start mailPort) crossing = some s ∧
      s.vmEnd = some (.protocol .badConn) ∧ ¬ Sound s := by
  obtain ⟨s, hrun⟩ := isSome_iff_exists.mp
    (show (Runs.run (step mailPort) (.start mailPort) crossing).isSome by decide)
  have hend : ∀ s ∈ Runs.run (step mailPort) (.start mailPort) crossing,
      s.vmEnd = some (.protocol .badConn) := by
    decide
  exact ⟨s, hrun, hend s hrun, fun hsound => hsound.1 _ (hend s hrun)⟩

end Bearmail.Edge
