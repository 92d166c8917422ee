import Bearmail.Queue.Quota
import Bearmail.Queue.Throttle

/-!
# Admission by quotas

`has_quota` and `check_quota` of `smtp/src/queue/quota.rs`. The hash of the keys is a parameter;
a counter that cannot be read is zero. A quota with an empty expression matches nothing.
-/

namespace Bearmail.Queue

open List

/-! ## Envelopes -/

inductive Envelope where
  | message (m : Message)
  | queue (m : Message) (rcpt : Recipient)

def Envelope.texts : Envelope → Texts
  | .message m, v =>
    match v with
    | .sender => m.returnPath
    | .senderDomain => domainPart m.returnPath
    | _ => ""
  | .queue m rcpt, v =>
    match v with
    | .sender => m.returnPath
    | .senderDomain => domainPart m.returnPath
    | .rcptDomain => domainPart rcpt.address
    | .rcpt => rcpt.address
    | .remoteIp => "0.0.0.0"
    | .localIp => "0.0.0.0"
    | _ => ""

abbrev Quota := QueueQuota Envelope

structure QueueQuotas where
  sender : List Quota
  rcpt : List Quota
  rcptDomain : List Quota

/-- What a server counts with: the order of bytes, the hash of a key, and the counters. -/
structure Counters where
  endian : Endian
  hash : List UInt8 → List UInt8
  stored : Counter → List UInt8 → Int64

def QueueQuota.matches (quota : Quota) (envelope : Envelope) : Bool :=
  match quota.expr with
  | none => false
  | some expr => (expr envelope).getD false

def QueueQuota.limit (quota : Quota) : Counter → Option UInt64
  | .size => quota.size
  | .count => quota.messages

def Counters.key (counters : Counters) (quota : Quota) (envelope : Envelope) : List UInt8 :=
  counters.hash (quota.feed counters.endian envelope.texts)

def Counter.amount (c : Counter) (size : Nat) : Nat :=
  match c with
  | .size => size
  | .count => 1

def Counter.reservation (c : Counter) (key : List UInt8) (id : Nat) : Metadata :=
  match c with
  | .size => .queueSize key id
  | .count => .queueCount key id

/-! ## The checks -/

/-- `used + amount > max`, in machine words. -/
def Counters.exceeds (counters : Counters) (c : Counter) (key : List UInt8) (size : Nat)
    (max : UInt64) : Bool :=
  decide (max < (counters.stored c key).toUInt64 + UInt64.ofNat (c.amount size))

def Counters.checkLimit (counters : Counters) (c : Counter) (quota : Quota) (key : List UInt8)
    (size id : Nat) (refs : List Metadata) : Option (List Metadata) :=
  match quota.limit c with
  | some max =>
    if counters.exceeds c key size max then none else some (refs ++ [c.reservation key id])
  | none => some refs

/-- None stands for a refusal, which ends `has_quota`. -/
def Counters.checkQuota (counters : Counters) (quota : Quota) (envelope : Envelope)
    (size id : Nat) (refs : List Metadata) : Option (List Metadata) :=
  if quota.matches envelope then
    let key := counters.key quota envelope
    match counters.checkLimit .size quota key size id refs with
    | none => none
    | some refs => counters.checkLimit .count quota key size id refs
  else some refs

def Counters.checkSender (counters : Counters) (m : Message) (refs : List Metadata) :
    List Quota → Option (List Metadata)
  | [] => some refs
  | quota :: quotas =>
    match counters.checkQuota quota (.message m) m.size 0 refs with
    | none => none
    | some refs => counters.checkSender m refs quotas

/-- The recipients under one quota of domains; the domains seen are kept for the next one. -/
def Counters.checkDomains (counters : Counters) (m : Message) (quota : Quota) (idx : Nat)
    (seen : List String) (refs : List Metadata) :
    List Recipient → Option (List String × List Metadata)
  | [] => some (seen, refs)
  | rcpt :: rcpts =>
    let domain := domainPart rcpt.address
    if domain ∈ seen then counters.checkDomains m quota (idx + 1) seen refs rcpts
    else
      match counters.checkQuota quota (.queue m rcpt) m.size ((idx + 1) * 2 ^ 32) refs with
      | none => none
      | some refs => counters.checkDomains m quota (idx + 1) (domain :: seen) refs rcpts

def Counters.checkRcptDomain (counters : Counters) (m : Message) (seen : List String)
    (refs : List Metadata) : List Quota → Option (List Metadata)
  | [] => some refs
  | quota :: quotas =>
    match counters.checkDomains m quota 0 seen refs m.recipients with
    | none => none
    | some (seen, refs) => counters.checkRcptDomain m seen refs quotas

def Counters.checkRcpts (counters : Counters) (m : Message) (quota : Quota) (idx : Nat)
    (refs : List Metadata) : List Recipient → Option (List Metadata)
  | [] => some refs
  | rcpt :: rcpts =>
    match counters.checkQuota quota (.queue m rcpt) m.size (idx + 1) refs with
    | none => none
    | some refs => counters.checkRcpts m quota (idx + 1) refs rcpts

def Counters.checkRcpt (counters : Counters) (m : Message) (refs : List Metadata) :
    List Quota → Option (List Metadata)
  | [] => some refs
  | quota :: quotas =>
    match counters.checkRcpts m quota 0 refs m.recipients with
    | none => none
    | some refs => counters.checkRcpt m refs quotas

def Counters.hasQuota (counters : Counters) (quotas : QueueQuotas) (m : Message) :
    Option (List Metadata) :=
  match counters.checkSender m [] quotas.sender with
  | none => none
  | some refs =>
    match counters.checkRcptDomain m [] refs quotas.rcptDomain with
    | none => none
    | some refs => counters.checkRcpt m refs quotas.rcpt

/-! ## What the quotas apply to -/

/-- A quota, and the sender, domain or recipient it applies to. -/
structure Target where
  quota : Quota
  envelope : Envelope
  id : Nat

def firstRcpts (seen : List String) (idx : Nat) : List Recipient → List (Nat × Recipient)
  | [] => []
  | rcpt :: rcpts =>
    let domain := domainPart rcpt.address
    if domain ∈ seen then firstRcpts seen (idx + 1) rcpts
    else (idx, rcpt) :: firstRcpts (domain :: seen) (idx + 1) rcpts

def domainTargets (m : Message) (quota : Quota) (rcpts : List (Nat × Recipient)) : List Target :=
  rcpts.map fun rcpt => ⟨quota, .queue m rcpt.2, (rcpt.1 + 1) * 2 ^ 32⟩

def rcptTargets (m : Message) (quota : Quota) (idx : Nat) : List Recipient → List Target
  | [] => []
  | rcpt :: rcpts => ⟨quota, .queue m rcpt, idx + 1⟩ :: rcptTargets m quota (idx + 1) rcpts

def senderTargets (m : Message) (quotas : List Quota) : List Target :=
  quotas.map fun quota => ⟨quota, .message m, 0⟩

def QueueQuotas.targetsWith (quotas : QueueQuotas) (m : Message) (rcptDomain : List Quota) :
    List Target :=
  senderTargets m quotas.sender ++
    (rcptDomain.flatMap fun quota => domainTargets m quota (firstRcpts [] 0 m.recipients)) ++
    quotas.rcpt.flatMap fun quota => rcptTargets m quota 0 m.recipients

def QueueQuotas.targets (quotas : QueueQuotas) (m : Message) : List Target :=
  quotas.targetsWith m quotas.rcptDomain

namespace Target

variable (counters : Counters) (size : Nat) (t : Target)

def key : List UInt8 := counters.key t.quota t.envelope

def Applies : Prop := t.quota.matches t.envelope = true

instance : Decidable t.Applies := inferInstanceAs (Decidable (_ = true))

def reservesOf (c : Counter) : List Metadata :=
  match t.quota.limit c with
  | some _ => [c.reservation (t.key counters) t.id]
  | none => []

def reserves : List Metadata :=
  if t.Applies then t.reservesOf counters .size ++ t.reservesOf counters .count else []

/-- There is room for one reservation, as the code computes it. -/
def Fits : Prop :=
  t.Applies → ∀ c max, t.quota.limit c = some max → counters.exceeds c (t.key counters) size max = false

end Target

def reservations (counters : Counters) (ts : List Target) : List Metadata :=
  ts.flatMap fun t => t.reserves counters

/-- The limits of all targets hold with all that the message reserves. -/
def WithinLimits (counters : Counters) (quotas : QueueQuotas) (m : Message) : Prop :=
  ∀ t ∈ quotas.targets m, t.Applies → ∀ c max, t.quota.limit c = some max →
    (counters.stored c (t.key counters)).toInt +
      weigh (t.key counters) m.size (reservations counters (quotas.targets m)) c ≤ max.toNat

/-- A message that is let in keeps all limits and lists what it reserves. -/
def Admits (counters : Counters) (quotas : QueueQuotas) (m : Message) : Prop :=
  ∀ refs, counters.hasQuota quotas m = some refs →
    refs.Perm (reservations counters (quotas.targets m)) ∧ WithinLimits counters quotas m

/-! ## The checks as one list -/

open Classical in
/-- What the checks of some targets come to. -/
noncomputable def checkAll (counters : Counters) (size : Nat) (ts : List Target)
    (refs : List Metadata) : Option (List Metadata) :=
  if ∀ t ∈ ts, t.Fits counters size then some (refs ++ reservations counters ts) else none

section Checks

variable (counters : Counters) (size : Nat) (refs : List Metadata)

theorem checkAll_nil : checkAll counters size [] refs = some refs := by
  simp [checkAll, reservations]

theorem checkAll_append (ts us : List Target) : checkAll counters size (ts ++ us) refs =
      match checkAll counters size ts refs with
      | none => none
      | some refs => checkAll counters size us refs := by
  unfold checkAll
  by_cases hts : ∀ t ∈ ts, t.Fits counters size
  · rw [if_pos hts]
    dsimp only
    by_cases hus : ∀ t ∈ us, t.Fits counters size
    · rw [if_pos hus, if_pos fun t ht => (mem_append.mp ht).elim (hts t) (hus t)]
      simp [reservations]
    · rw [if_neg hus, if_neg fun h => hus fun t ht => h t (mem_append_right _ ht)]
  · rw [if_neg hts, if_neg fun h => hts fun t ht => h t (mem_append_left _ ht)]

theorem checkLimit_fits (c : Counter) (t : Target) (hfits : ∀ max, t.quota.limit c = some max →
      counters.exceeds c (t.key counters) size max = false) :
    counters.checkLimit c t.quota (t.key counters) size t.id refs =
      some (refs ++ t.reservesOf counters c) := by
  unfold Counters.checkLimit Target.reservesOf
  cases hlimit : t.quota.limit c with
  | none => simp
  | some max => simp [hfits max hlimit]

theorem checkLimit_exceeds (c : Counter) (t : Target) (hexceeds : ¬ ∀ max, t.quota.limit c = some max →
      counters.exceeds c (t.key counters) size max = false) :
    counters.checkLimit c t.quota (t.key counters) size t.id refs = none := by
  unfold Counters.checkLimit
  cases hlimit : t.quota.limit c with
  | none => exact absurd (fun max hmax => by simp [hlimit] at hmax) hexceeds
  | some max =>
    have htrue : counters.exceeds c (t.key counters) size max = true := by
      by_contra h
      refine hexceeds fun max' hmax => ?_
      rw [hlimit, Option.some.injEq] at hmax
      exact hmax ▸ Bool.not_eq_true _ ▸ h
    simp [htrue]

theorem checkQuota_eq (t : Target) :
    counters.checkQuota t.quota t.envelope size t.id refs = checkAll counters size [t] refs := by
  unfold Counters.checkQuota checkAll
  dsimp only
  by_cases happlies : t.quota.matches t.envelope = true
  · have hkey : counters.key t.quota t.envelope = t.key counters := rfl
    have hreserves : reservations counters [t] =
        t.reservesOf counters .size ++ t.reservesOf counters .count := by
      rw [reservations, flatMap_singleton]
      exact if_pos happlies
    have hfits : (∀ u ∈ [t], u.Fits counters size) ↔ (∀ max, t.quota.limit .size = some max →
          counters.exceeds .size (t.key counters) size max = false) ∧
        (∀ max, t.quota.limit .count = some max →
          counters.exceeds .count (t.key counters) size max = false) := by
      simp only [mem_singleton, forall_eq]
      refine ⟨fun h => ⟨h happlies .size, h happlies .count⟩, fun h _ c => ?_⟩
      cases c with
      | size => exact h.1
      | count => exact h.2
    rw [if_pos happlies, hkey, hreserves]
    by_cases hsize : ∀ max, t.quota.limit .size = some max →
        counters.exceeds .size (t.key counters) size max = false
    · rw [checkLimit_fits _ _ _ _ _ hsize]
      dsimp only
      by_cases hcount : ∀ max, t.quota.limit .count = some max →
          counters.exceeds .count (t.key counters) size max = false
      · simp [checkLimit_fits _ _ _ _ _ hcount, hfits.mpr ⟨hsize, hcount⟩]
      · rw [checkLimit_exceeds _ _ _ _ _ hcount, if_neg fun h => hcount (hfits.mp h).2]
    · rw [checkLimit_exceeds _ _ _ _ _ hsize, if_neg fun h => hsize (hfits.mp h).1]
  · have hfits : ∀ u ∈ [t], u.Fits counters size := by
      simp only [mem_singleton, forall_eq]
      exact fun h => absurd h happlies
    have hreserves : reservations counters [t] = [] := by
      rw [reservations, flatMap_singleton]
      exact if_neg happlies
    simp [happlies, hfits, hreserves]

theorem checkAll_cons (t : Target) (ts : List Target) : checkAll counters size (t :: ts) refs =
      match counters.checkQuota t.quota t.envelope size t.id refs with
      | none => none
      | some refs => checkAll counters size ts refs := by
  simp [checkQuota_eq, ← checkAll_append]

end Checks

theorem checkSender_eq (counters : Counters) (m : Message) (refs : List Metadata) (quotas : List Quota) :
    counters.checkSender m refs quotas = checkAll counters m.size (senderTargets m quotas) refs := by
  induction quotas generalizing refs with
  | nil => exact (checkAll_nil _ _ _).symm
  | cons quota quotas ih =>
    rw [Counters.checkSender, senderTargets, map_cons, checkAll_cons]
    cases counters.checkQuota quota (.message m) m.size 0 refs with
    | none => rfl
    | some refs => exact ih refs

theorem checkRcpts_eq (counters : Counters) (m : Message) (quota : Quota) (idx : Nat)
    (refs : List Metadata) (rcpts : List Recipient) :
    counters.checkRcpts m quota idx refs rcpts =
      checkAll counters m.size (rcptTargets m quota idx rcpts) refs := by
  induction rcpts generalizing idx refs with
  | nil => exact (checkAll_nil _ _ _).symm
  | cons rcpt rcpts ih =>
    rw [Counters.checkRcpts, rcptTargets, checkAll_cons]
    cases counters.checkQuota quota (.queue m rcpt) m.size (idx + 1) refs with
    | none => rfl
    | some refs => exact ih (idx + 1) refs

theorem checkRcpt_eq (counters : Counters) (m : Message) (refs : List Metadata) (quotas : List Quota) :
    counters.checkRcpt m refs quotas = checkAll counters m.size
      (quotas.flatMap fun quota => rcptTargets m quota 0 m.recipients) refs := by
  induction quotas generalizing refs with
  | nil => exact (checkAll_nil _ _ _).symm
  | cons quota quotas ih =>
    rw [Counters.checkRcpt, flatMap_cons, checkAll_append, checkRcpts_eq]
    cases checkAll counters m.size (rcptTargets m quota 0 m.recipients) refs with
    | none => rfl
    | some refs => exact ih refs

/-- One quota of domains is checked for the first recipient of each new domain, and then every
domain is seen. -/
theorem checkDomains_eq (counters : Counters) (m : Message) (quota : Quota) (idx : Nat)
    (seen : List String) (refs : List Metadata) (rcpts : List Recipient) :
    ∃ seen', (seen ⊆ seen' ∧ ∀ rcpt ∈ rcpts, domainPart rcpt.address ∈ seen') ∧
      counters.checkDomains m quota idx seen refs rcpts =
        (checkAll counters m.size (domainTargets m quota (firstRcpts seen idx rcpts)) refs).map
          fun refs => (seen', refs) := by
  induction rcpts generalizing idx seen refs with
  | nil =>
    refine ⟨seen, ⟨fun _ h => h, fun _ h => by cases h⟩, ?_⟩
    rw [firstRcpts, domainTargets, map_nil, checkAll_nil]
    rfl
  | cons rcpt rcpts ih =>
    rw [Counters.checkDomains, firstRcpts]
    by_cases hseen : domainPart rcpt.address ∈ seen
    · rw [if_pos hseen, if_pos hseen]
      obtain ⟨seen', ⟨hsub, hall⟩, heq⟩ := ih (idx + 1) seen refs
      exact ⟨seen', ⟨hsub, forall_mem_cons.mpr ⟨hsub hseen, hall⟩⟩, heq⟩
    · rw [if_neg hseen, if_neg hseen, domainTargets, map_cons, checkAll_cons]
      cases hcheck : counters.checkQuota quota (.queue m rcpt) m.size ((idx + 1) * 2 ^ 32) refs with
      | none =>
        refine ⟨seen ++ (rcpt :: rcpts).map fun rcpt => domainPart rcpt.address,
          ⟨subset_append_left _ _, fun rcpt h => ?_⟩, rfl⟩
        exact mem_append_right _ (mem_map_of_mem h)
      | some refs' =>
        obtain ⟨seen', ⟨hsub, hall⟩, heq⟩ := ih (idx + 1) (domainPart rcpt.address :: seen) refs'
        have hcons := cons_subset.mp hsub
        exact ⟨seen', ⟨hcons.2, forall_mem_cons.mpr ⟨hcons.1, hall⟩⟩, heq⟩

theorem firstRcpts_seen {seen : List String} {rcpts : List Recipient}
    (h : ∀ rcpt ∈ rcpts, domainPart rcpt.address ∈ seen) (idx : Nat) :
    firstRcpts seen idx rcpts = [] := by
  induction rcpts generalizing idx with
  | nil => rfl
  | cons rcpt rcpts ih =>
    obtain ⟨hfirst, hrest⟩ := forall_mem_cons.mp h
    rw [firstRcpts, if_pos hfirst]
    exact ih hrest _

theorem checkRcptDomain_seen (counters : Counters) {m : Message} {seen : List String}
    (h : ∀ rcpt ∈ m.recipients, domainPart rcpt.address ∈ seen) (refs : List Metadata)
    (quotas : List Quota) : counters.checkRcptDomain m seen refs quotas = some refs := by
  induction quotas generalizing seen with
  | nil => rfl
  | cons quota quotas ih =>
    obtain ⟨seen', ⟨hsub, -⟩, heq⟩ :=
      checkDomains_eq counters m quota 0 seen refs m.recipients
    rw [Counters.checkRcptDomain, heq, firstRcpts_seen h, domainTargets, map_nil,
      checkAll_nil]
    exact ih fun rcpt hrcpt => hsub (h rcpt hrcpt)

theorem checkRcptDomain_eq (counters : Counters) (m : Message) (refs : List Metadata)
    (quotas : List Quota) :
    counters.checkRcptDomain m [] refs quotas = checkAll counters m.size
      ((quotas.take 1).flatMap fun quota =>
        domainTargets m quota (firstRcpts [] 0 m.recipients)) refs := by
  cases quotas with
  | nil => exact (checkAll_nil _ _ _).symm
  | cons quota quotas =>
    obtain ⟨seen', ⟨-, hall⟩, heq⟩ := checkDomains_eq counters m quota 0 [] refs m.recipients
    have htake : ((quota :: quotas).take 1).flatMap (fun quota =>
        domainTargets m quota (firstRcpts [] 0 m.recipients)) =
        domainTargets m quota (firstRcpts [] 0 m.recipients) := by simp
    rw [Counters.checkRcptDomain, heq, htake]
    cases checkAll counters m.size (domainTargets m quota (firstRcpts [] 0 m.recipients)) refs with
    | none => rfl
    | some refs => exact checkRcptDomain_seen counters hall refs quotas

/-- What the code checks: all targets but those of the later quotas of domains. -/
def QueueQuotas.checked (quotas : QueueQuotas) (m : Message) : List Target :=
  quotas.targetsWith m (quotas.rcptDomain.take 1)

theorem hasQuota_eq (counters : Counters) (quotas : QueueQuotas) (m : Message) :
    counters.hasQuota quotas m = checkAll counters m.size (quotas.checked m) [] := by
  rw [Counters.hasQuota, checkSender_eq, QueueQuotas.checked, QueueQuotas.targetsWith,
    checkAll_append, checkAll_append]
  cases checkAll counters m.size (senderTargets m quotas.sender) [] with
  | none => rfl
  | some refs =>
    dsimp only
    rw [checkRcptDomain_eq]
    cases checkAll counters m.size ((quotas.rcptDomain.take 1).flatMap fun quota =>
        domainTargets m quota (firstRcpts [] 0 m.recipients)) refs with
    | none => rfl
    | some refs => exact checkRcpt_eq counters m refs quotas.rcpt

/-! ## When the limits are kept -/

def Counter.entries (c : Counter) (key : List UInt8) (entries : List Metadata) : Nat :=
  match c with
  | .size => sizeEntries key entries
  | .count => countEntries key entries

theorem weigh_eq (key : List UInt8) (size : Nat) (entries : List Metadata) (c : Counter) :
    weigh key size entries c = c.amount size * c.entries key entries := by
  cases c with
  | size => rfl
  | count => simp [weigh, Counter.amount, Counter.entries]

/-- Some check finds no room for one reservation. -/
def Refused (counters : Counters) (quotas : QueueQuotas) (m : Message) : Prop :=
  ∃ t ∈ quotas.checked m, ¬t.Fits counters m.size

def QueueQuotas.unchecked (quotas : QueueQuotas) (m : Message) : List Target :=
  (quotas.rcptDomain.drop 1).flatMap fun quota =>
    domainTargets m quota (firstRcpts [] 0 m.recipients)

/-- A later quota of domains that applies has no limit. -/
def FirstOnly (quotas : QueueQuotas) (m : Message) : Prop :=
  ∀ t ∈ quotas.unchecked m, t.Applies → ∀ c, t.quota.limit c = none

/-- Under a key that is reserved more than once there is room for all reservations, as there is
under one that a single reservation brings beyond the words of the machine. -/
def Roomy (counters : Counters) (quotas : QueueQuotas) (m : Message) : Prop :=
  ∀ t ∈ quotas.targets m, t.Applies → ∀ c max, t.quota.limit c = some max →
    2 ≤ c.entries (t.key counters) (reservations counters (quotas.targets m)) ∨
      2 ^ 64 ≤ (counters.stored c (t.key counters)).toInt + c.amount m.size →
    (counters.stored c (t.key counters)).toInt + c.amount m.size *
      c.entries (t.key counters) (reservations counters (quotas.targets m)) ≤ max.toNat

theorem toInt_eq (n : Int64) : n.toInt =
    if 2 * n.toUInt64.toNat < 2 ^ 64 then (n.toUInt64.toNat : Int)
    else n.toUInt64.toNat - 2 ^ 64 := by
  have h := BitVec.toInt_eq_toNat_cond n.toBitVec
  exact h

variable {counters : Counters}

theorem le_of_not_exceeds {c : Counter} {key : List UInt8} {size : Nat}
    {max : UInt64} (h : counters.exceeds c key size max = false)
    (hword : (counters.stored c key).toInt + c.amount size < 2 ^ 64) :
    (counters.stored c key).toInt + c.amount size ≤ max.toNat := by
  simp only [Counters.exceeds, decide_eq_false_iff_not, UInt64.not_lt, UInt64.le_iff_toNat_le,
    UInt64.toNat_add, UInt64.toNat_ofNat'] at h
  have hint := toInt_eq (counters.stored c key)
  split at hint <;> omega

theorem mem_reservesOf {t : Target} {c : Counter} {max : UInt64}
    (happlies : t.Applies) (h : t.quota.limit c = some max) :
    c.reservation (t.key counters) t.id ∈ t.reserves counters := by
  have hof : t.reservesOf counters c = [c.reservation (t.key counters) t.id] := by
    rw [Target.reservesOf, h]
  rw [Target.reserves, if_pos happlies, mem_append]
  cases c with
  | size => exact Or.inl (by rw [hof]; exact mem_singleton_self _)
  | count => exact Or.inr (by rw [hof]; exact mem_singleton_self _)

theorem entries_pos {ts : List Target} {t : Target} (ht : t ∈ ts)
    {c : Counter} {max : UInt64} (happlies : t.Applies) (h : t.quota.limit c = some max) :
    1 ≤ c.entries (t.key counters) (reservations counters ts) := by
  have hmem : c.reservation (t.key counters) t.id ∈ reservations counters ts :=
    mem_flatMap.mpr ⟨t, ht, mem_reservesOf happlies h⟩
  cases c with
  | size | count => exact countP_pos_iff.mpr ⟨_, hmem, by simp [Counter.reservation]⟩

theorem reserves_eq_nil {t : Target} :
    t.reserves counters = [] ↔ (t.Applies → ∀ c, t.quota.limit c = none) := by
  constructor
  · intro h happlies c
    cases hlimit : t.quota.limit c with
    | none => rfl
    | some max =>
      have hmem : c.reservation (t.key counters) t.id ∈ t.reserves counters :=
        mem_reservesOf happlies hlimit
      rw [h] at hmem
      cases hmem
  · intro h
    rw [Target.reserves]
    split
    · rename_i happlies
      simp [Target.reservesOf, h happlies]
    · rfl

theorem targets_perm (quotas : QueueQuotas) (m : Message) :
    (quotas.targets m).Perm (quotas.checked m ++ quotas.unchecked m) := by
  have hsplit : (quotas.rcptDomain.flatMap fun quota =>
      domainTargets m quota (firstRcpts [] 0 m.recipients)) =
      ((quotas.rcptDomain.take 1).flatMap fun quota =>
        domainTargets m quota (firstRcpts [] 0 m.recipients)) ++ quotas.unchecked m := by
    rw [QueueQuotas.unchecked, ← flatMap_append, take_append_drop]
  rw [QueueQuotas.targets, QueueQuotas.checked, QueueQuotas.targetsWith, QueueQuotas.targetsWith, hsplit]
  simp only [append_assoc]
  exact List.Perm.append_left _ (List.Perm.append_left _ perm_append_comm)

theorem reservations_perm (counters : Counters) (quotas : QueueQuotas) (m : Message) :
    (reservations counters (quotas.targets m)).Perm
      (reservations counters (quotas.checked m) ++ reservations counters (quotas.unchecked m)) := by
  have hperm := (targets_perm quotas m).flatMap_right fun t => t.reserves counters
  rwa [flatMap_append] at hperm

/-- What is checked is all that is reserved when the first quota of domains is the only one. -/
theorem checked_perm_iff (counters : Counters) (quotas : QueueQuotas) (m : Message) :
    (reservations counters (quotas.checked m)).Perm (reservations counters (quotas.targets m)) ↔
      FirstOnly quotas m := by
  have hnil : reservations counters (quotas.unchecked m) = [] ↔ FirstOnly quotas m := by
    rw [reservations, flatMap_eq_nil_iff]
    exact forall₂_congr fun t _ => reserves_eq_nil
  have hperm := reservations_perm counters quotas m
  constructor
  · intro h
    have hlength := (h.trans hperm).length_eq
    rw [length_append] at hlength
    exact hnil.mp (eq_nil_of_length_eq_zero (by omega))
  · intro h
    rw [hnil.mpr h, List.append_nil] at hperm
    exact hperm.symm

theorem withinLimits_iff {quotas : QueueQuotas} {m : Message}
    (hfits : ∀ t ∈ quotas.checked m, t.Fits counters m.size) (hfirst : FirstOnly quotas m) :
    WithinLimits counters quotas m ↔ Roomy counters quotas m := by
  unfold WithinLimits Roomy
  simp only [weigh_eq]
  constructor
  · exact fun h t ht happlies c max hlimit _ => h t ht happlies c max hlimit
  · intro h t ht happlies c max hlimit
    by_cases hmany : 2 ≤ c.entries (t.key counters) (reservations counters (quotas.targets m)) ∨
        2 ^ 64 ≤ (counters.stored c (t.key counters)).toInt + c.amount m.size
    · exact h t ht happlies c max hlimit hmany
    · rw [not_or] at hmany
      -- one reservation, which the code has checked
      have hone : c.entries (t.key counters) (reservations counters (quotas.targets m)) = 1 := by
        have hpos : 1 ≤ c.entries (t.key counters) (reservations counters (quotas.targets m)) :=
          entries_pos ht happlies hlimit
        omega
      have hchecked : t ∈ quotas.checked m := by
        rcases mem_append.mp ((targets_perm quotas m).mem_iff.mp ht) with hchecked | hlater
        · exact hchecked
        · have hnone := hfirst t hlater happlies c
          rw [hlimit] at hnone
          cases hnone
      have hfit := hfits t hchecked happlies c max hlimit
      have hle := le_of_not_exceeds hfit (by omega)
      rw [hone]
      simpa using hle

end Bearmail.Queue
