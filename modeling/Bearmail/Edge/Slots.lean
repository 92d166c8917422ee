import Bearmail.Edge.Tunnel

/-!
# The slots of the id windows

When nothing is under way the two windows must hold the same ids. A connection that the client ends is told
to the Mac, which closes it. One that the server ends is told to the VM, which closes it and does not
answer: the Mac, which has closed nothing, keeps the id for the rest of the session. So the windows agree
as long as the VM has ended every connection itself before it takes the CLOSE of the Mac.
-/

namespace Bearmail.Edge

open List Function

/-! ## What is under way -/

def Uplink.sends : Option Uplink → Bool
  | some (.sendData _) | some (.giveBack _) | some (.sendClose _) => true
  | _ => false

/-- No frame is in flight and no thread has one to send. -/
structure Quiescent (s : Tunnel) : Prop where
  toMac : s.toMac = []
  toVm : s.toVm = []
  accept : s.vm.accept.pending = []
  pause : s.vm.acts = []
  uplinks : ∀ id, Uplink.sends (s.vm.uplinks id) = false ∧ Uplink.sends (s.mac.uplinks id) = false

/-- The Mac will hear that the VM has closed the id. -/
def Leaving (s : Tunnel) (id : UInt64) : Prop :=
  Uplink.Ends (s.vm.uplinks id) ∨ .sendClose id ∈ s.vm.acts ∨ ∃ frame ∈ s.toMac, frame.closes = some id

/-- The VM will hear that the Mac could not open the id, or does not know of it yet. -/
def Coming (s : Tunnel) (id : UInt64) : Prop :=
  id ∈ s.opening ∨ ∃ frame ∈ s.toVm, frame.fails = some id

/-- The VM will hear that the server has ended the connection. -/
def Ending (s : Tunnel) (id : UInt64) : Prop :=
  Uplink.SendsClose (s.mac.uplinks id) ∨ ∃ frame ∈ s.toVm, frame.closes = some id

structure Balanced (s : Tunnel) : Prop where
  coming : ∀ id ∈ s.vm.ids.opened, id ∉ s.mac.ids.opened → Coming s id
  leaving : ∀ id ∈ s.mac.ids.opened, id ∉ s.vm.ids.opened → Leaving s id
  ending : ∀ id ∈ s.mac.closed, id ∈ s.mac.ids.opened → id ∈ s.vm.ids.opened → Ending s id

theorem balanced_start (opts : VmOpts) : Balanced (.start opts) := by
  constructor <;> simp [Tunnel.start, IdWindow.new]

theorem Uplink.sends_of_ends {uplink : Option Uplink} (h : Uplink.Ends uplink) :
    Uplink.sends uplink = true := by
  rcases uplink with _ | ⟨_ | _ | _ | _ | _ | _ | _⟩ <;> simp_all [Uplink.sends]

theorem Balanced.same {s : Tunnel} (h : Balanced s) (hquiet : Quiescent s) :
    s.vm.ids.opened = s.mac.ids.opened := by
  ext id
  constructor
  · intro hvm
    by_contra hmac
    rcases h.coming id hvm hmac with hopening | ⟨frame, hframe, -⟩
    · simp [Tunnel.opening, hquiet.toMac, hquiet.accept] at hopening
    · simp [hquiet.toVm] at hframe
  · intro hmac
    by_contra hvm
    rcases h.leaving id hmac hvm with hends | hact | ⟨frame, hframe, -⟩
    · have hsends := Uplink.sends_of_ends hends
      rw [(hquiet.uplinks id).1] at hsends
      cases hsends
    · simp [hquiet.pause] at hact
    · simp [hquiet.toMac] at hframe

variable {id : UInt64}

theorem Balanced.finished {s : Tunnel} (h : Balanced s) (hinv : Inv s) (hquiet : Quiescent s)
    (hid : id ∈ s.vm.closed ∨ id ∈ s.mac.closed) :
    id ∉ s.vm.ids.opened ∧ id ∉ s.mac.ids.opened := by
  have hsame := h.same hquiet
  suffices hvm : id ∉ s.vm.ids.opened from ⟨hvm, hsame ▸ hvm⟩
  intro hopen
  rcases hid with hclosed | hclosed
  · have hsends := Uplink.sends_of_ends (.inl (hinv.closed_open id hclosed hopen))
    rw [(hquiet.uplinks id).1] at hsends
    cases hsends
  · rcases h.ending id hclosed (hsame ▸ hopen) hopen with hends | ⟨frame, hframe, -⟩
    · have hsends := Uplink.sends_of_ends (.inr hends)
      rw [(hquiet.uplinks id).2] at hsends
      cases hsends
    · simp [hquiet.toVm] at hframe

variable {opts : VmOpts} {s s' : Tunnel}

/-! ## What stays under way -/

section UnderWay

variable {id : UInt64} {frame : Frame} {rest frames : List Frame} {names : Frame → Option UInt64}

/-- A frame about the id is among those that are left when one of another id is taken off. -/
theorem exists_frame_tail (h : ∃ other ∈ frames, names other = some id)
    (hframes : frames = frame :: rest) (hnot : names frame ≠ some id) :
    ∃ other ∈ rest, names other = some id := by
  obtain ⟨other, hother, hid⟩ := h
  rcases mem_cons.mp (hframes ▸ hother) with rfl | hother
  · exact absurd hid hnot
  · exact ⟨other, hother, hid⟩

theorem exists_frame_append (h : ∃ other ∈ frames, names other = some id) :
    ∃ other ∈ frames ++ [frame], names other = some id := by
  obtain ⟨other, hother, hid⟩ := h
  exact ⟨other, mem_append_left _ hother, hid⟩

theorem Coming.sendVm (h : Coming s id) : Coming (s.sendVm frame) id :=
  h.imp_right exists_frame_append

theorem Coming.popVm (h : Coming s id) (htoVm : s.toVm = frame :: rest)
    (hfails : frame.fails ≠ some id) : Coming { s with toVm := rest } id :=
  h.imp_right fun hframe => exists_frame_tail hframe htoVm hfails

theorem Coming.popMac (h : Coming s id) (htoMac : s.toMac = frame :: rest)
    (hopens : frame.opens = none) : Coming { s with toMac := rest } id := by
  refine h.imp_left fun hopening => ?_
  simpa [Tunnel.opening, htoMac, hopens] using hopening

theorem Leaving.sendMac (h : Leaving s id) : Leaving (s.sendMac frame) id :=
  h.imp_right (Or.imp_right exists_frame_append)

theorem Leaving.popMac (h : Leaving s id) (htoMac : s.toMac = frame :: rest)
    (hcloses : frame.closes ≠ some id) : Leaving { s with toMac := rest } id :=
  h.imp_right (Or.imp_right fun hframe => exists_frame_tail hframe htoMac hcloses)

theorem Ending.sendVm (h : Ending s id) : Ending (s.sendVm frame) id :=
  h.imp_right exists_frame_append

theorem Ending.popVm (h : Ending s id) (htoVm : s.toVm = frame :: rest)
    (hcloses : frame.closes ≠ some id) : Ending { s with toVm := rest } id :=
  h.imp_right fun hframe => exists_frame_tail hframe htoVm hcloses

end UnderWay

/-! ## What a step is made of -/

namespace Balanced

variable (hbal : Balanced s)
include hbal

theorem sendMac (frame : Frame) : Balanced (s.sendMac frame) where
  coming id hvm hmac := by
    refine (hbal.coming id hvm hmac).imp_left fun hopening => ?_
    simp only [Tunnel.opening, Tunnel.sendMac, filterMap_append, mem_append] at hopening ⊢
    tauto
  leaving id hmac hvm := (hbal.leaving id hmac hvm).sendMac
  ending := hbal.ending

theorem sendVm (frame : Frame) : Balanced (s.sendVm frame) where
  coming id hvm hmac := (hbal.coming id hvm hmac).sendVm
  leaving := hbal.leaving
  ending id hclosed hmac hvm := (hbal.ending id hclosed hmac hvm).sendVm

theorem popVm {frame : Frame} {rest : List Frame} (h : s.toVm = frame :: rest)
    (hfails : frame.fails = none) (hcloses : frame.closes = none) :
    Balanced { s with toVm := rest } where
  coming id hvm hmac := (hbal.coming id hvm hmac).popVm h (by simp [hfails])
  leaving := hbal.leaving
  ending id hclosed hmac hvm := (hbal.ending id hclosed hmac hvm).popVm h (by simp [hcloses])

theorem popMac {frame : Frame} {rest : List Frame} (h : s.toMac = frame :: rest)
    (hopens : frame.opens = none) (hcloses : frame.closes = none) :
    Balanced { s with toMac := rest } where
  coming id hvm hmac := (hbal.coming id hvm hmac).popMac h hopens
  leaving id hmac hvm := (hbal.leaving id hmac hvm).popMac h (by simp [hcloses])
  ending := hbal.ending

variable {id : UInt64}

theorem setUplink {next : Uplink} (hends : Uplink.Ends (s.vm.uplinks id) → Uplink.Ends (some next)) :
    Balanced { s with vm := s.vm.setUplink id next } where
  coming := hbal.coming
  leaving other hmac hvm := by
    refine (hbal.leaving other hmac hvm).imp_left fun hother => ?_
    rcases eq_or_ne other id with rfl | hne
    · simpa only [Vm.setUplink, update_self] using hends hother
    · simpa only [Vm.setUplink, update_of_ne hne] using hother
  ending := hbal.ending

theorem setUplinkMac {next : Uplink}
    (hends : Uplink.SendsClose (s.mac.uplinks id) → Uplink.SendsClose (some next)) :
    Balanced { s with mac := s.mac.setUplink id next } where
  coming := hbal.coming
  leaving := hbal.leaving
  ending other hclosed hmac hvm := by
    refine (hbal.ending other hclosed hmac hvm).imp_left fun hother => ?_
    rcases eq_or_ne other id with rfl | hne
    · simpa only [Mac.setUplink, update_self] using hends hother
    · simpa only [Mac.setUplink, update_of_ne hne] using hother

theorem drop (hleaving : id ∈ s.mac.ids.opened → Leaving s id) :
    Balanced { s with vm := { s.vm with ids := s.vm.ids.drop id } } where
  coming other hvm hmac := hbal.coming other (IdWindow.mem_drop.mp hvm).2 hmac
  leaving other hmac hvm := by
    rcases eq_or_ne other id with rfl | hne
    · exact hleaving hmac
    · exact hbal.leaving other hmac fun hopen => hvm (IdWindow.mem_drop.mpr ⟨hne, hopen⟩)
  ending other hclosed hmac hvm := hbal.ending other hclosed hmac (IdWindow.mem_drop.mp hvm).2

theorem setPausing {pausing : Option (Bool × List PauseAct)} {stop : Bool}
    (h : ∀ id, .sendClose id ∈ s.vm.acts → .sendClose id ∈ (pausing.map Prod.snd).getD []) :
    Balanced { s with vm := { s.vm with pausing := pausing, stop := stop } } where
  coming := hbal.coming
  leaving id hmac hvm := (hbal.leaving id hmac hvm).imp_right (Or.imp_left (h id))
  ending := hbal.ending

theorem pause (hinv : Inv s) (byControl : Bool) (order : List UInt64) :
    Balanced { s with vm := s.vm.pause byControl order } := by
  by_cases hstop : s.vm.stop = true
  · rw [Vm.pause, if_pos hstop]
    exact hbal
  · rw [Vm.pause, if_neg hstop]
    refine hbal.setPausing fun id hact => ?_
    simp [hinv.pause_stop (by simpa using hstop)] at hact

theorem setAccept {next : Accept} (waiting : Finset UInt64) (h : next.pending = s.vm.accept.pending) :
    Balanced { s with vm := { s.vm with waiting := waiting, accept := next } } where
  coming id hvm hmac := by
    refine (hbal.coming id hvm hmac).imp_left fun hopening => ?_
    simpa only [Tunnel.opening, h] using hopening
  leaving := hbal.leaving
  ending := hbal.ending

theorem giveOut (hinv : Inv s) {ids : IdWindow} {srcPort : UInt16}
    {addr : Ipv4Addr} (haccept : s.vm.accept = .listen) (halloc : s.vm.ids.alloc = .ok (id, ids)) :
    Balanced { s with vm := { s.vm with
      ids := ids, history := s.vm.history ++ [id], accept := .keep id srcPort addr } } := by
  obtain ⟨rfl, hnext, hopened⟩ := IdWindow.alloc_eq_ok halloc
  have hmem : ∀ other, other ∈ ids.opened ↔ other = s.vm.ids.next ∨ other ∈ s.vm.ids.opened :=
    fun other => by rw [hopened, Finset.mem_insert]
  refine ⟨fun other hvm hmac => ?_, fun other hmac hvm => ?_, fun other hclosed hmac hvm => ?_⟩
  · rcases (hmem other).mp hvm with rfl | hvm
    · exact .inl (mem_append_right _ mem_cons_self)
    · refine (hbal.coming other hvm hmac).imp_left fun hopening => ?_
      simp only [Tunnel.opening, haccept, Accept.pending, List.append_nil] at hopening
      exact mem_append_left _ hopening
  · exact hbal.leaving other hmac fun hopen => hvm ((hmem other).mpr (.inr hopen))
  · rcases (hmem other).mp hvm with rfl | hvm
    · have hlt := s.mac.ids.below _ hmac
      have := hinv.next
      omega
    · exact hbal.ending other hclosed hmac hvm

theorem retire {first : Bool} {vm : Vm}
    {pausing : Option (Bool × List PauseAct)} (h : s.vm.retire id = .ok (first, vm))
    (hacts : ∀ other, other ≠ id → .sendClose other ∈ s.vm.acts →
      .sendClose other ∈ (pausing.map Prod.snd).getD [])
    (hid : id ∈ s.vm.ids.opened → id ∈ s.mac.ids.opened →
      Leaving { s with vm := { s.vm with pausing := pausing } } id) :
    Balanced { s with vm := { vm with pausing := pausing } } := by
  have hcases := Vm.retire_cases h
  have hdrop : Balanced { s with vm := { s.vm with
      ids := s.vm.ids.drop id, pausing := pausing } } := by
    refine ⟨fun other hvm hmac => ?_, fun other hmac hvm => ?_, fun other hclosed hmac hvm => ?_⟩
    · exact hbal.coming other (IdWindow.mem_drop.mp hvm).2 hmac
    · rcases eq_or_ne other id with rfl | hne
      · exact hid hcases.1 hmac
      · exact (hbal.leaving other hmac fun hopen => hvm (IdWindow.mem_drop.mpr ⟨hne, hopen⟩)).imp_right
          (Or.imp_left (hacts other hne))
    · exact hbal.ending other hclosed hmac (IdWindow.mem_drop.mp hvm).2
  obtain ⟨-, ⟨-, -, rfl⟩ | ⟨-, -, rfl⟩⟩ := hcases <;> exact { hdrop with }

omit hbal

end Balanced

/-! ## Steps -/

theorem balanced_accept (hbal : Balanced s) (h : acceptStep opts s = some s') : Balanced s' := by
  simp only [acceptStep] at h
  split at h
  · next haccept =>
    cases h
    refine hbal.setAccept s.vm.waiting ?_
    rw [haccept]
    split <;> rfl
  · next haccept =>
    cases h
    exact hbal.setAccept s.vm.waiting (by rw [haccept]; rfl)
  · next id srcPort addr haccept =>
    cases h
    exact hbal.setAccept (insert id s.vm.waiting) (by rw [haccept]; rfl)
  · next id srcPort addr haccept =>
    cases h
    refine ⟨fun other hvm hmac => ?_, fun other hmac hvm => (hbal.leaving other hmac hvm).sendMac,
      hbal.ending⟩
    refine (hbal.coming other hvm hmac).imp_left fun hopening => ?_
    simpa [Tunnel.opening, Tunnel.sendMac, Accept.pending, haccept, Frame.opens] using hopening
  · cases h
  · cases h

theorem balanced_client (hbal : Balanced s) (hinv : Inv s) {srcPort : UInt16} {addr : Ipv4Addr}
    (h : clientStep s srcPort addr = some s') : Balanced s' := by
  simp only [clientStep] at h
  split at h
  · next haccept =>
    split at h
    · next halloc =>
      cases h
      exact hbal.giveOut hinv haccept halloc
    all_goals
      cases h
      exact hbal.setAccept s.vm.waiting (by rw [haccept]; rfl)
  · cases h

variable {order : List UInt64} {io : Bool}

theorem balanced_uplink (hbal : Balanced s) (hinv : Inv s)
    (h : uplinkStep s id order = some s') : Balanced s' := by
  simp only [uplinkStep] at h
  split at h
  · next hold =>
    cases h
    exact hbal.setUplink (by simp [hold])
  · next payload hold =>
    cases h
    exact (hbal.setUplink (by simp [hold])).sendMac _
  · next n hold =>
    split at h
    · have hmeter : Balanced { s with vm := { s.vm with meter := (s.vm.meter.noteTx n).2 } } :=
        { hbal with }
      have hinv' : Inv { s with vm := { s.vm with meter := (s.vm.meter.noteTx n).2 } } :=
        { hinv with }
      split at h
      · cases h
        refine (hmeter.pause hinv' false order).setUplink ?_
        simp only [Vm.pause]
        split <;> simp [hold]
      · cases h
        exact hmeter.setUplink (by simp [hold])
    · cases h
  · next reason hold =>
    cases h
    have hleaving : Leaving s id := .inl (by simp [hold])
    split
    · next ids hclose =>
      obtain ⟨-, rfl⟩ := IdWindow.close_eq_ok hclose
      exact (hbal.drop fun _ => hleaving).setUplink (by simp)
    · exact hbal.setUplink (by simp)
  · next reason hold =>
    cases h
    -- the end is no longer with the thread but on its way
    refine ⟨fun other hvm hmac => ?_, fun other hmac hvm => ?_, hbal.ending⟩
    · exact (hbal.sendMac (.close id reason)).coming other hvm hmac
    · rcases eq_or_ne other id with rfl | hne
      · exact .inr (.inr ⟨.close other reason, mem_append_right _ mem_cons_self, rfl⟩)
      · refine (hbal.leaving other hmac hvm).sendMac.imp_left fun hends => ?_
        simpa only [Tunnel.sendMac, Vm.setUplink, update_of_ne hne] using hends
  · cases h
  · cases h
  · cases h

theorem balanced_pause (hbal : Balanced s) (hinv : Inv s) (h : pauseStep s = some s') :
    Balanced s' := by
  simp only [pauseStep] at h
  split at h
  · cases h
  · next hpausing =>
    cases h
    exact hbal.setPausing fun id hact => by simp [Vm.acts, hpausing] at hact
  · next who id acts hpausing =>
    have hacts : s.vm.acts = .retire id :: acts := by simp [Vm.acts, hpausing]
    split at h
    · cases h
      exact hbal.setPausing fun other hact => by simpa [hacts] using hact
    · next vm hretire =>
      cases h
      refine hbal.retire hretire (fun other _ hact => ?_) fun _ _ => ?_
      · exact mem_cons_of_mem _ (by simpa [hacts] using hact)
      · exact .inr (.inl mem_cons_self)
    · next vm hretire =>
      cases h
      -- no CLOSE follows, and so a thread has claimed the end
      refine hbal.retire hretire (fun other _ hact => by simpa [hacts] using hact) fun hopen _ => ?_
      have hwriter := hinv.pause_retire id (by simp [hacts]) hopen
      obtain ⟨-, ⟨-, hfirst, -⟩ | ⟨hnot, -⟩⟩ := Vm.retire_cases hretire
      · exact .inl (.inl (hinv.closed_open id (by simpa using hfirst) hopen))
      · exact absurd hwriter hnot
  · next who id acts hpausing =>
    cases h
    have hacts : s.vm.acts = .sendClose id :: acts := by simp [Vm.acts, hpausing]
    have hsent := hbal.sendMac (.close id .localClose)
    refine ⟨hsent.coming, fun other hmac hvm => ?_, hbal.ending⟩
    rcases hsent.leaving other hmac hvm with hends | hact | hframe
    · exact .inl hends
    · have hact' : .sendClose other ∈ s.vm.acts := hact
      rcases mem_cons.mp (hacts ▸ hact') with heq | hact
      · cases heq
        exact .inr (.inr ⟨_, mem_append_right _ mem_cons_self, rfl⟩)
      · exact .inr (.inl hact)
    · exact .inr (.inr hframe)
  · next who acts hpausing =>
    cases h
    have hacts : s.vm.acts = .sendQuota :: acts := by simp [Vm.acts, hpausing]
    refine Balanced.sendMac (hbal.setPausing fun other hact => ?_) _
    simpa [hacts] using hact

/-- The VM has ended the connection itself before it takes the CLOSE of the Mac. -/
def Balances (s : Tunnel) : Event → Prop
  | .vmFrame .. =>
    ∀ id ∈ s.toVm.head?.bind Frame.closes, id ∈ s.vm.ids.opened → id ∈ s.vm.closed
  | _ => True

instance (s : Tunnel) : (event : Event) → Decidable (Balances s event)
  | .vmFrame .. => Option.decidableForallMem (s.toVm.head?.bind Frame.closes)
  | .vmPing _ | .macPing _ | .accept | .client .. | .uplink .. | .clientRead .. | .clientEnd ..
  | .pause | .vmStop | .macUplink _ | .upstreamRead .. | .upstreamEnd .. | .macFrame .. =>
    isTrue trivial

variable (hbal : Balanced s)
include hbal

theorem balanced_onVmFrame (hinv : Inv s) {frame : Frame} {rest : List Frame}
    (htoVm : s.toVm = frame :: rest)
    (hclose : ∀ id, frame.closes = some id → id ∈ s.vm.ids.opened → id ∈ s.vm.closed)
    (h : onVmFrame { s with toVm := rest } frame io order = .ok s') : Balanced s' := by
  have hpopInv := hinv.popVm htoVm
  cases frame with
  | hello =>
    have hpop := hbal.popVm htoVm rfl rfl
    simp only [onVmFrame, observe] at h
    split at h
    · cases h
    · next vm hobserve =>
      cases h
      split at hobserve
      · cases hobserve
      · cases hobserve
        exact { hpop with }
  | ping unixMs =>
    cases h
    exact (hbal.popVm htoVm rfl rfl).sendMac _
  | pong unixMs =>
    cases h
    exact hbal.popVm htoVm rfl rfl
  | openOk id =>
    have hpop := hbal.popVm htoVm rfl rfl
    simp only [onVmFrame] at h
    split at h
    · cases h
    · next hopen =>
      split at h
      · cases h
        have hmem : id ∈ s.vm.ids.opened := by
          by_contra hnot
          simp [IdWindow.requireOpen, hnot] at hopen
        cases io with
        | false => exact { hpop with }
        | true =>
          refine ⟨hpop.coming, fun other hmac hvm => ?_, hpop.ending⟩
          have hne : other ≠ id := by
            rintro rfl
            exact hvm hmem
          refine (hpop.leaving other hmac hvm).imp_left fun hends => ?_
          simpa only [Vm.startUplink, if_true, update_of_ne hne] using hends
      · cases h
  | openFail id reason =>
    simp only [onVmFrame] at h
    split at h
    · cases h
    · next ids hclosed =>
      cases h
      obtain ⟨-, rfl⟩ := IdWindow.close_eq_ok hclosed
      have hmac := hinv.fail_toVm id (.openFail id reason) (by simp [htoVm]) rfl
      refine ⟨fun other hvm hmac => ?_, fun other hmac' hvm => ?_, fun other hclosed hmac hvm => ?_⟩
      · obtain ⟨hne, hvm⟩ := IdWindow.mem_drop.mp hvm
        exact (hbal.coming other hvm hmac).popVm htoVm fun hfails => hne (Option.some.inj hfails).symm
      · have hne : other ≠ id := by
          rintro rfl
          exact hmac hmac'
        exact hbal.leaving other hmac' fun hopen => hvm (IdWindow.mem_drop.mpr ⟨hne, hopen⟩)
      · obtain ⟨-, hvm⟩ := IdWindow.mem_drop.mp hvm
        exact (hbal.ending other hclosed hmac hvm).popVm htoVm fun hcloses => by cases hcloses
  | data id payload =>
    have hpop := hbal.popVm htoVm rfl rfl
    simp only [onVmFrame] at h
    split at h
    · cases h
      exact hpop.pause hpopInv true order
    · split at h
      · cases h
      · split at h
        · split at h
          · cases h
          · cases h
            have hmeter : Balanced { s with toVm := rest, vm := { s.vm with
                meter := (s.vm.meter.noteTx payload.length).2 } } := { hpop with }
            have hmeterInv : Inv { s with toVm := rest, vm := { s.vm with
                meter := (s.vm.meter.noteTx payload.length).2 } } := { hpopInv with }
            split
            · exact hmeter.pause hmeterInv true order
            · exact hmeter
        · cases h
  | close id reason =>
    simp only [onVmFrame] at h
    split at h
    · cases h
    · next first vm hretire =>
      cases h
      have hid := hinv.lt_of_toVm (htoVm ▸ mem_cons_self ..) (show Frame.about _ = some id from rfl)
      obtain ⟨-, hgone, -, hpausing⟩ := hinv.retire hid hretire
      have hretired : Balanced { s with vm := { vm with pausing := s.vm.pausing } } :=
        hbal.retire hretire (fun _ _ hact => hact) fun hopen _ =>
          .inl (.inl (hinv.closed_open id (hclose id rfl hopen) hopen))
      rw [← hpausing] at hretired
      refine ⟨fun other hvm hmac => ?_, hretired.leaving, fun other hclosed hmac hvm => ?_⟩
      · exact (hretired.coming other hvm hmac).popVm htoVm fun hfails => by cases hfails
      · refine (hretired.ending other hclosed hmac hvm).popVm htoVm fun hcloses => ?_
        cases hcloses
        exact hgone hvm
  | helloOk | «open» | quota => cases h

theorem balanced_answerHello (hinv : Inv s) {today : UInt16 × UInt8}
    (hforwarding : s.vm.forwarding = false) (h : answerHello s io today = .ok s') :
    Balanced s' := by
  simp only [answerHello] at h
  split at h
  · cases h
    exact (hbal.sendMac _).sendMac _
  · split at h
    · cases h
    · cases h
      have haccept : Accept.check.pending = s.vm.accept.pending := by
        rw [hinv.accept_off hforwarding]
        rfl
      have hset : Balanced { s with vm := { s.vm with waiting := s.vm.waiting, accept := .check } } :=
        hbal.setAccept s.vm.waiting haccept
      exact { hset.sendMac (.helloOk s.vm.meter.txBytes s.vm.meter.state today.1 today.2) with }

theorem balanced_vmFrame (hinv : Inv s) {today : UInt16 × UInt8}
    (hclose : Balances s (.vmFrame io today order)) (h : vmFrameStep s io today order = some s')
    (hlive : s'.Live) : Balanced s' := by
  simp only [vmFrameStep] at h
  split at h
  · cases h
  · next frame rest htoVm =>
    split at h
    · split at h
      · next next hsession =>
        cases h
        simp only [vmSession] at hsession
        split at hsession
        · next hhello =>
          obtain ⟨rfl, hhello⟩ := hhello
          have hpop := hbal.popVm htoVm rfl rfl
          simp only [observe] at hsession
          split at hsession
          · cases hsession
          · next vm hobserve =>
            split at hobserve
            · cases hobserve
            · cases hobserve
              have hseen : Balanced { s with toVm := rest, vm := { s.vm with helloSeen := true } } :=
                { hpop with }
              have hseenInv : Inv { s with toVm := rest, vm := { s.vm with helloSeen := true } } :=
                { hinv.popVm htoVm with }
              exact balanced_answerHello hseen hseenInv hhello hsession
        · refine balanced_onVmFrame hbal hinv htoVm (fun id hcloses => ?_) hsession
          exact hclose id (by simp [htoVm, hcloses])
      · cases h
        cases hlive.1
    · cases h

theorem balanced_macUplink (h : macUplinkStep s id = some s') :
    Balanced s' := by
  simp only [macUplinkStep] at h
  split at h
  · next hold =>
    cases h
    exact hbal.setUplinkMac (by simp [hold])
  · next payload hold =>
    cases h
    exact (hbal.setUplinkMac (by simp [hold])).sendVm _
  · next reason hold =>
    cases h
    have hsent := hbal.sendVm (.close id reason)
    refine ⟨hsent.coming, hsent.leaving, fun other hclosed hmac hvm => ?_⟩
    rcases eq_or_ne other id with rfl | hne
    · exact .inr ⟨.close other reason, mem_append_right _ mem_cons_self, rfl⟩
    · refine (hsent.ending other hclosed hmac hvm).imp_left fun hends => ?_
      simpa only [Tunnel.sendVm, Mac.setUplink, update_of_ne hne] using hends
  all_goals cases h

theorem balanced_upstreamEnd {reset : Bool}
    (h : upstreamEndStep s id reset = some s') : Balanced s' := by
  simp only [upstreamEndStep] at h
  split at h
  · next hread =>
    split at h
    · cases h
      exact hbal.setUplinkMac (by simp [hread])
    · cases h
      refine ⟨hbal.coming, hbal.leaving, fun other hclosed hmac hvm => ?_⟩
      rcases eq_or_ne other id with rfl | hne
      · refine .inl ?_
        simp [Mac.setUplink, Uplink.SendsClose]
      · refine (hbal.ending other (Finset.mem_of_mem_insert_of_ne hclosed hne) hmac hvm).imp_left
          fun hends => ?_
        simpa only [Mac.setUplink, update_of_ne hne] using hends
  · cases h

theorem balanced_openOnMac (hinv : Inv s) {frame : Frame}
    {rest : List Frame} {publicPort : UInt16} {dial : Dial} (htoMac : s.toMac = frame :: rest)
    (hopens : frame.opens = some id)
    (h : openOnMac { s with toMac := rest } id publicPort dial = .ok s') : Balanced s' := by
  obtain ⟨outcome, ids, hadmit, hcases⟩ := openOnMac_cases h
  obtain ⟨rfl, hopening⟩ := hinv.opening_head htoMac hopens
  obtain ⟨-, -, hopened⟩ := IdWindow.admitId_eq_ok hadmit
  have hvm : s.mac.ids.next ∈ s.vm.ids.opened :=
    hinv.opening_open _ (hopening ▸ mem_cons_self ..)
  have hcloses : frame.closes = none := by
    cases frame <;> simp_all [Frame.opens, Frame.closes]
  have hcoming : ∀ other ∈ s.vm.ids.opened, other ∉ s.mac.ids.opened → other ≠ s.mac.ids.next →
      Coming { s with toMac := rest } other := fun other hother hmac hne =>
    (hbal.coming other hother hmac).imp_left fun hmem =>
      (mem_cons.mp (hopening ▸ hmem)).resolve_left hne
  have hleaving : ∀ other ∈ s.mac.ids.opened, other ∉ s.vm.ids.opened →
      Leaving { s with toMac := rest } other := fun other hmac hother =>
    (hbal.leaving other hmac hother).popMac htoMac (by simp [hcloses])
  have hnot : s.mac.ids.next ∉ s.mac.ids.opened := fun hmem =>
    Nat.lt_irrefl _ (s.mac.ids.below _ hmem)
  have hrefused : ∀ (ids' : IdWindow) (history : List UInt64) (reason : OpenFailReason),
      ids'.opened = s.mac.ids.opened →
      Balanced ({ s with toMac := rest, mac := { s.mac with ids := ids', history := history } }.sendVm
        (.openFail s.mac.ids.next reason)) := by
    intro ids' history reason hsame
    refine ⟨fun other hother hmac => ?_, fun other hmac hother => ?_, fun other hclosed hmac hother => ?_⟩
    · rcases eq_or_ne other s.mac.ids.next with rfl | hne
      · exact .inr ⟨_, mem_append_right _ mem_cons_self, rfl⟩
      · exact (hcoming other hother (hsame ▸ hmac) hne).sendVm
    · exact hleaving other (hsame ▸ hmac) hother
    · exact (hbal.ending other hclosed (hsame ▸ hmac) hother).sendVm
  rcases hcases with ⟨rfl, rfl⟩ | ⟨rfl, reason, rfl⟩ | ⟨rfl, rfl⟩
  · obtain ⟨-, hopened⟩ | ⟨hcap, -⟩ := hopened
    · exact hrefused ids s.mac.history .cap hopened
    · cases hcap
  · obtain ⟨hcap, -⟩ | ⟨-, hopened⟩ := hopened
    · cases hcap
    · refine hrefused (ids.drop s.mac.ids.next) _ reason ?_
      exact (congrArg (Finset.erase · s.mac.ids.next) hopened).trans (Finset.erase_insert hnot)
  · obtain ⟨hcap, -⟩ | ⟨-, hopened⟩ := hopened
    · cases hcap
    · have hmem : ∀ other, other ∈ ids.opened ↔
          other = s.mac.ids.next ∨ other ∈ s.mac.ids.opened := fun other => by
        rw [hopened, Finset.mem_insert]
      refine ⟨fun other hother hmac => ?_, fun other hmac hother => ?_,
        fun other hclosed hmac hother => ?_⟩
      · obtain ⟨hne, hmac⟩ := not_or.mp fun h => hmac ((hmem other).mpr h)
        exact (hcoming other hother hmac hne).sendVm
      · rcases (hmem other).mp hmac with rfl | hmac
        · exact absurd hvm hother
        · exact hleaving other hmac hother
      · obtain ⟨hne, hclosed⟩ := Finset.mem_erase.mp hclosed
        have hmac := ((hmem other).mp hmac).resolve_left hne
        refine (hbal.ending other hclosed hmac hother).sendVm.imp_left fun hends => ?_
        simpa only [Tunnel.sendVm, update_of_ne hne] using hends

theorem balanced_macFrame (hinv : Inv s) {dial : Dial}
    (h : macFrameStep s dial io = some s') (hlive : s'.Live) : Balanced s' := by
  simp only [macFrameStep] at h
  split at h
  · cases h
  · next frame rest htoMac =>
    split at h
    · next next hserve =>
      cases h
      cases frame with
      | helloOk | pong | quota =>
        cases hserve
        exact hbal.popMac htoMac rfl rfl
      | ping unixMs =>
        cases hserve
        exact (hbal.popMac htoMac rfl rfl).sendVm _
      | «open» id publicPort srcPort addr =>
        exact balanced_openOnMac hbal hinv htoMac rfl hserve
      | data id payload =>
        have hpop := hbal.popMac htoMac rfl rfl
        simp only [serveMac] at hserve
        split at hserve
        · cases hserve
        · split at hserve
          · split at hserve
            · cases hserve
              exact hpop
            · cases hserve
          · cases hserve
      | close id reason =>
        have hvm := (hinv.close_toMac id (.close id reason) (by simp [htoMac]) rfl).2
        have hdrop : ∀ writers closed, closed ⊆ insert id s.mac.closed →
            Balanced { s with toMac := rest, mac := { s.mac with
              ids := s.mac.ids.drop id, writers := writers, closed := closed } } := by
          intro writers closed hsub
          refine ⟨fun other hother hmac => ?_, fun other hmac hother => ?_,
            fun other hclosed hmac hother => ?_⟩
          · have hne : other ≠ id := by
              rintro rfl
              exact hvm hother
            exact (hbal.coming other hother fun hopen =>
              hmac (IdWindow.mem_drop.mpr ⟨hne, hopen⟩)).popMac htoMac rfl
          · obtain ⟨hne, hmac⟩ := IdWindow.mem_drop.mp hmac
            exact (hbal.leaving other hmac hother).popMac htoMac fun hcloses =>
              hne (Option.some.inj hcloses).symm
          · obtain ⟨hne, hmac⟩ := IdWindow.mem_drop.mp hmac
            exact hbal.ending other (Finset.mem_of_mem_insert_of_ne (hsub hclosed) hne) hmac hother
        simp only [serveMac] at hserve
        split at hserve
        · cases hserve
        · next ids hclose =>
          obtain ⟨-, rfl⟩ := IdWindow.close_eq_ok hclose
          split at hserve
          · cases hserve
            exact hdrop _ _ (Finset.Subset.refl _)
          · cases hserve
            exact hdrop s.mac.writers s.mac.closed (Finset.subset_insert ..)
      | hello | openOk | openFail => cases hserve
    · cases h
      cases hlive.2

theorem step_balanced (hinv : Inv s) {event : Event} (hcond : Balances s event)
    (hstep : step opts s event = some s') (hlive : s'.Live) : Balanced s' := by
  simp only [step] at hstep
  split at hstep
  · cases event with
    | vmPing unixMs => cases hstep; exact hbal.sendMac _
    | macPing unixMs => cases hstep; exact hbal.sendVm _
    | accept => exact balanced_accept hbal hstep
    | client srcPort addr => exact balanced_client hbal hinv hstep
    | uplink id order => exact balanced_uplink hbal hinv hstep
    | clientRead id payload =>
      simp only [clientReadStep] at hstep
      split at hstep
      · next hread => cases hstep; exact hbal.setUplink (by simp [hread.1])
      · cases hstep
    | clientEnd id reset =>
      simp only [clientEndStep] at hstep
      split at hstep
      · next hread =>
        split at hstep
        · cases hstep
          exact hbal.setUplink (by simp [hread])
        · cases hstep
          have hclosed : Balanced { s with vm := { s.vm with closed := insert id s.vm.closed } } :=
            { hbal with }
          exact hclosed.setUplink (by simp)
      · cases hstep
    | pause => exact balanced_pause hbal hinv hstep
    | vmStop =>
      simp only at hstep
      split at hstep
      · cases hstep
        cases hlive.1
      · cases hstep
    | vmFrame io today order => exact balanced_vmFrame hbal hinv hcond hstep hlive
    | macUplink id => exact balanced_macUplink hbal hstep
    | upstreamRead id payload =>
      simp only [upstreamReadStep] at hstep
      split at hstep
      · next hread => cases hstep; exact hbal.setUplinkMac (by simp [hread.1])
      · cases hstep
    | upstreamEnd id reset => exact balanced_upstreamEnd hbal hstep
    | macFrame dial io => exact balanced_macFrame hbal hinv hstep hlive
  · cases hstep

omit hbal

/-! ## Runs -/

structure Slots (s : Tunnel) : Prop where
  same : s.vm.ids.opened = s.mac.ids.opened
  capped : s.vm.ids.opened.card ≤ maxConns ∧ s.mac.ids.opened.card ≤ maxConns
  below : (∀ id ∈ s.vm.ids.opened, id < s.vm.ids.next) ∧ ∀ id ∈ s.mac.ids.opened, id < s.mac.ids.next
  once : s.vm.history.Nodup ∧ s.mac.history.Nodup
  finished : ∀ id, id ∈ s.vm.closed ∨ id ∈ s.mac.closed → id ∉ s.vm.ids.opened ∧ id ∉ s.mac.ids.opened

theorem live_of_step {event : Event} (h : step opts s event = some s') : s.Live := by
  by_contra hdead
  simp [step, hdead] at h

theorem inv_of_run {events : List Event}
    (hrun : Runs.run (step opts) (.start opts) events = some s) (hlive : s.Live) : Inv s :=
  Runs.run_invariant (fun s => s.Live → Inv s)
    (fun _ _ _ hinv _ hstep => step_inv (hinv (live_of_step hstep)) hstep)
    (Runs.along_of_forall (fun _ _ => trivial) _) (fun _ => inv_start opts) hrun hlive

/-- No id is given to two connections on either side. The ids on their way to the Mac are the next ones, in
order; a CLOSE on its way to it is of an id that the VM has closed, and an OPEN_FAIL of one that the Mac does
not hold. -/
theorem ids_in_order {events : List Event} (hrun : Runs.run (step opts) (.start opts) events = some s)
    (hlive : s.Live) :
    s.vm.history.Nodup ∧ s.mac.history.Nodup ∧
      s.opening.map UInt64.toNat = range' s.mac.ids.next.toNat s.opening.length ∧
      s.vm.ids.next.toNat = s.mac.ids.next.toNat + s.opening.length ∧
      (∀ id, ∀ frame ∈ s.toMac, frame.closes = some id → id ∈ s.vm.closed ∧ id ∉ s.vm.ids.opened) ∧
      ∀ id, ∀ frame ∈ s.toVm, frame.fails = some id → id ∉ s.mac.ids.opened := by
  have hinv := inv_of_run hrun hlive
  exact ⟨hinv.vm_history.1, hinv.mac_history.1, hinv.span, hinv.next, hinv.close_toMac, hinv.fail_toVm⟩

/-- When nothing is under way the windows hold the same ids, and none of a connection that has ended, if
the VM has ended every connection itself before it takes the CLOSE of the Mac. -/
theorem slots_balanced {events : List Event}
    (halong : Runs.Along (step opts) Balances (.start opts) events)
    (hrun : Runs.run (step opts) (.start opts) events = some s) (hlive : s.Live)
    (hquiet : Quiescent s) : Slots s := by
  have hinv := inv_of_run hrun hlive
  have hboth : s.Live → Inv s ∧ Balanced s := by
    refine Runs.run_invariant (fun s => s.Live → Inv s ∧ Balanced s) ?_ halong
      (fun _ => ⟨inv_start opts, balanced_start opts⟩) hrun
    intro s event s' hboth hcond hstep hlive'
    obtain ⟨hinv, hbal⟩ := hboth (live_of_step hstep)
    exact ⟨step_inv hinv hstep hlive', step_balanced hbal hinv hcond hstep hlive'⟩
  have hbal := (hboth hlive).2
  exact {
    same := hbal.same hquiet
    capped := ⟨s.vm.ids.capped, s.mac.ids.capped⟩
    below := ⟨fun id hid => UInt64.lt_iff_toNat_lt.mpr (s.vm.ids.below id hid),
      fun id hid => UInt64.lt_iff_toNat_lt.mpr (s.mac.ids.below id hid)⟩
    once := ⟨hinv.vm_history.1, hinv.mac_history.1⟩
    finished := fun _ hid => hbal.finished hinv hquiet hid }

theorem quiescent_of_below (hinv : Inv s) (hqueues : s.toMac = [] ∧ s.toVm = [])
    (hthreads : s.vm.accept.pending = [] ∧ s.vm.acts = [])
    (hbelow : ∀ n < s.mac.ids.next.toNat, Uplink.sends (s.vm.uplinks (.ofNat n)) = false ∧
      Uplink.sends (s.mac.uplinks (.ofNat n)) = false) : Quiescent s where
  toMac := hqueues.1
  toVm := hqueues.2
  accept := hthreads.1
  pause := hthreads.2
  uplinks id := by
    by_cases hid : id.toNat < s.mac.ids.next.toNat
    · have h := hbelow id.toNat hid
      rwa [UInt64.ofNat_toNat] at h
    · rw [hinv.fresh_uplink id (by omega), hinv.fresh_mac id (by omega)]
      exact ⟨rfl, rfl⟩

def mailPort : VmOpts := ⟨25, 0, false⟩

def connected : List Event :=
  [.vmFrame true (2025, 1) [], .accept, .client 40000 ⟨203, 0, 113, 9⟩, .accept, .accept,
    .macFrame .connected true, .macFrame .connected true, .vmFrame true (2025, 1) [],
    .uplink 1 [], .macUplink 1]

theorem ids_in_order_connected : ∃ s, Runs.run (step mailPort) (.start mailPort) connected = some s ∧
    s.Live ∧ s.vm.history.Nodup ∧ s.mac.history.Nodup := by
  obtain ⟨s, hrun⟩ := Option.isSome_iff_exists.mp
    (show (Runs.run (step mailPort) (.start mailPort) connected).isSome by decide)
  have hlive : ∀ s ∈ Runs.run (step mailPort) (.start mailPort) connected, s.Live := by decide
  obtain ⟨hvm, hmac, -⟩ := ids_in_order hrun (hlive s hrun)
  exact ⟨s, hrun, hlive s hrun, hvm, hmac⟩

def clientEnds : List Event :=
  connected ++ [.clientEnd 1 false, .uplink 1 [], .uplink 1 [], .macFrame .connected true,
    .upstreamEnd 1 false]

def serverEnds : List Event :=
  connected ++ [.upstreamEnd 1 false, .macUplink 1, .vmFrame true (2025, 1) [1], .clientEnd 1 false]

theorem slots_balanced_clientEnds : ∃ s,
    Runs.run (step mailPort) (.start mailPort) clientEnds = some s ∧ Slots s ∧
      s.vm.history = [1] ∧ s.mac.history = [1] := by
  obtain ⟨s, hrun⟩ := Option.isSome_iff_exists.mp
    (show (Runs.run (step mailPort) (.start mailPort) clientEnds).isSome by decide)
  have hend : ∀ s ∈ Runs.run (step mailPort) (.start mailPort) clientEnds,
      s.Live ∧ (s.toMac = [] ∧ s.toVm = []) ∧ (s.vm.accept.pending = [] ∧ s.vm.acts = []) ∧
      (∀ n < s.mac.ids.next.toNat, Uplink.sends (s.vm.uplinks (.ofNat n)) = false ∧
        Uplink.sends (s.mac.uplinks (.ofNat n)) = false) ∧
      s.vm.history = [1] ∧ s.mac.history = [1] := by
    decide
  obtain ⟨hlive, hqueues, hthreads, hbelow, hhistory⟩ := hend s hrun
  have hquiet := quiescent_of_below (inv_of_run hrun hlive) hqueues hthreads hbelow
  exact ⟨s, hrun, slots_balanced (by decide) hrun hlive hquiet, hhistory⟩

/-- The Mac keeps the id of a connection that the server has ended, with nothing under way. -/
theorem slot_kept_serverEnds : ∃ s,
    Runs.run (step mailPort) (.start mailPort) serverEnds = some s ∧ s.Live ∧ Quiescent s ∧
      1 ∈ s.mac.closed ∧ s.vm.ids.opened = ∅ ∧ s.mac.ids.opened = {1} ∧ ¬ Slots s := by
  obtain ⟨s, hrun⟩ := Option.isSome_iff_exists.mp
    (show (Runs.run (step mailPort) (.start mailPort) serverEnds).isSome by decide)
  have hend : ∀ s ∈ Runs.run (step mailPort) (.start mailPort) serverEnds,
      s.Live ∧ (s.toMac = [] ∧ s.toVm = []) ∧ (s.vm.accept.pending = [] ∧ s.vm.acts = []) ∧
      (∀ n < s.mac.ids.next.toNat, Uplink.sends (s.vm.uplinks (.ofNat n)) = false ∧
        Uplink.sends (s.mac.uplinks (.ofNat n)) = false) ∧
      1 ∈ s.mac.closed ∧ s.vm.ids.opened = ∅ ∧ s.mac.ids.opened = {1} := by
    decide
  obtain ⟨hlive, hqueues, hthreads, hbelow, hclosed, hvm, hmac⟩ := hend s hrun
  refine ⟨s, hrun, hlive, quiescent_of_below (inv_of_run hrun hlive) hqueues hthreads hbelow,
    hclosed, hvm, hmac, fun hslots => ?_⟩
  have hsame := hslots.same
  rw [hvm, hmac] at hsame
  cases (hsame ▸ Finset.mem_singleton_self (1 : UInt64) : (1 : UInt64) ∈ (∅ : Finset UInt64))

end Bearmail.Edge
