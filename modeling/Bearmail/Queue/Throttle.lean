import Bearmail.Lib.BigEndian
import Bearmail.Lib.Utf8
import Mathlib.Data.List.Nodup

/-!
# Keys of quotas and rate limiters

`new_key` of `smtp/src/core/throttle.rs`, up to the bytes that it feeds to the hash. An envelope
is a text for each variable, as `ResolveVariable` gives it; the order of the bytes of a number in
memory is a parameter. The expression that decides whether a quota or a limiter applies is read
elsewhere.
-/

namespace Bearmail.Queue

open List

inductive ExpressionVariable where
  | rcpt
  | rcptDomain
  | sender
  | senderDomain
  | heloDomain
  | authenticatedAs
  | listener
  | mx
  | remoteIp
  | localIp
  deriving DecidableEq

abbrev Texts := ExpressionVariable → String

inductive Endian where
  | little
  | big
  deriving DecidableEq

def toBeBytes (n : UInt64) : List UInt8 := BigEndian.toBytes 8 n.toNat

def Endian.toNeBytes (endian : Endian) (n : UInt64) : List UInt8 :=
  match endian with
  | .little => (toBeBytes n).reverse
  | .big => toBeBytes n

def throttleRcpt : UInt16 := (1 : UInt16) <<< 0
def throttleRcptDomain : UInt16 := (1 : UInt16) <<< 1
def throttleSender : UInt16 := (1 : UInt16) <<< 2
def throttleSenderDomain : UInt16 := (1 : UInt16) <<< 3
def throttleAuthAs : UInt16 := (1 : UInt16) <<< 4
def throttleListener : UInt16 := (1 : UInt16) <<< 5
def throttleMx : UInt16 := (1 : UInt16) <<< 6
def throttleRemoteIp : UInt16 := (1 : UInt16) <<< 7
def throttleLocalIp : UInt16 := (1 : UInt16) <<< 8
def throttleHeloDomain : UInt16 := (1 : UInt16) <<< 9

structure Duration where
  secs : UInt64
  nanos : Nat
  deriving DecidableEq

structure Rate where
  count : UInt64
  period : Duration
  deriving DecidableEq

/-- A quota, with an expression over envelopes of some type; none is the empty expression. -/
structure QueueQuota (E : Type) where
  expr : Option (E → Option Bool)
  keys : UInt16
  size : Option UInt64
  messages : Option UInt64

structure QueueRateLimiter (E : Type) where
  expr : Option (E → Option Bool)
  keys : UInt16
  rate : Rate

/-! ## What is fed to the hash -/

def ExpressionVariable.isSender : ExpressionVariable → Bool
  | .sender => true
  | .senderDomain => true
  | _ => false

def Texts.shown (e : Texts) (v : ExpressionVariable) : String :=
  if v.isSender = true ∧ e v = "" then "<>" else e v

/-- The updates behind the tests of the flags, one after the other. -/
def fieldBytes (keys : UInt16) (fields : List (UInt16 × ExpressionVariable)) (e : Texts) :
    List UInt8 :=
  match fields with
  | [] => []
  | (flag, v) :: fields =>
    (if keys &&& flag ≠ 0 then Utf8.encode (e.shown v) else []) ++ fieldBytes keys fields e

def quotaFields : List (UInt16 × ExpressionVariable) :=
  [(throttleRcpt, .rcpt), (throttleRcptDomain, .rcptDomain), (throttleSender, .sender),
    (throttleSenderDomain, .senderDomain)]

def limiterFields : List (UInt16 × ExpressionVariable) :=
  quotaFields ++ [(throttleHeloDomain, .heloDomain), (throttleAuthAs, .authenticatedAs),
    (throttleListener, .listener), (throttleMx, .mx), (throttleRemoteIp, .remoteIp),
    (throttleLocalIp, .localIp)]

variable {E : Type}

def QueueQuota.feed (endian : Endian) (quota : QueueQuota E) (e : Texts) : List UInt8 :=
  fieldBytes quota.keys quotaFields e ++
    (match quota.messages with
      | some messages => endian.toNeBytes messages
      | none => []) ++
    (match quota.size with
      | some size => endian.toNeBytes size
      | none => [])

def QueueRateLimiter.feed (limiter : QueueRateLimiter E) (e : Texts) (context : String) :
    List UInt8 :=
  fieldBytes limiter.keys limiterFields e ++ toBeBytes limiter.rate.period.secs ++
    toBeBytes limiter.rate.count ++ Utf8.encode context

/-! ## Configurations -/

/-- A quota, or a limiter with the place where it is asked. -/
inductive Config (E : Type) where
  | quota (quota : QueueQuota E)
  | limiter (limiter : QueueRateLimiter E) (context : String)

namespace Config

def feed (endian : Endian) : Config E → Texts → List UInt8
  | .quota q, e => q.feed endian e
  | .limiter l context, e => l.feed e context

def selected (keys : UInt16) (fields : List (UInt16 × ExpressionVariable)) :
    List ExpressionVariable :=
  (fields.filter fun field => decide (keys &&& field.1 ≠ 0)).map Prod.snd

def fields : Config E → List ExpressionVariable
  | .quota q => selected q.keys quotaFields
  | .limiter l _ => selected l.keys limiterFields

def suffix (endian : Endian) : Config E → List UInt8
  | .quota q =>
    (match q.messages with
      | some messages => endian.toNeBytes messages
      | none => []) ++
    (match q.size with
      | some size => endian.toNeBytes size
      | none => [])
  | .limiter l context =>
    toBeBytes l.rate.period.secs ++ toBeBytes l.rate.count ++ Utf8.encode context

def SameLimits : Config E → Config E → Prop
  | .quota a, .quota b => a.messages = b.messages ∧ a.size = b.size
  | .limiter a _, .limiter b _ => a.rate = b.rate
  | _, _ => False

def Differ (c d : Config E) : Prop := ¬c.SameLimits d ∨ c.fields ≠ d.fields

end Config

/-! ## Texts of several fields -/

def Texts.joined (e : Texts) : List ExpressionVariable → String
  | [] => ""
  | v :: vs => e.shown v ++ e.joined vs

theorem fieldBytes_eq (keys : UInt16) (fields : List (UInt16 × ExpressionVariable)) (e : Texts) :
    fieldBytes keys fields e = Utf8.encode (e.joined (Config.selected keys fields)) := by
  induction fields with
  | nil => simp [fieldBytes, Config.selected, Texts.joined]
  | cons field fields ih =>
    obtain ⟨flag, v⟩ := field
    rw [fieldBytes, ih]
    by_cases hflag : keys &&& flag ≠ 0
    · have hselected : Config.selected keys ((flag, v) :: fields) =
          v :: Config.selected keys fields := by
        simp [Config.selected, hflag]
      simp [hflag, hselected, Texts.joined, Utf8.encode_append]
    · have hselected : Config.selected keys ((flag, v) :: fields) =
          Config.selected keys fields := by
        simp [Config.selected, hflag]
      simp [hflag, hselected]

variable (endian : Endian) (c : Config E) (e : Texts)

theorem Config.feed_eq : c.feed endian e = Utf8.encode (e.joined c.fields) ++ c.suffix endian := by
  cases c with
  | quota q =>
    simp [feed, QueueQuota.feed, fieldBytes_eq, fields, suffix]
  | limiter l context =>
    simp [feed, QueueRateLimiter.feed, fieldBytes_eq, fields, suffix]

theorem Config.fields_nodup : c.fields.Nodup := by
  have hselected : ∀ (keys : UInt16) (fields : List (UInt16 × ExpressionVariable)),
      (fields.map Prod.snd).Nodup → (selected keys fields).Nodup := fun keys fields h =>
    List.Nodup.sublist (filter_sublist.map Prod.snd) h
  cases c with
  | quota q => exact hselected q.keys quotaFields (by decide)
  | limiter l context => exact hselected l.keys limiterFields (by decide)

variable {v : ExpressionVariable} {vs : List ExpressionVariable}

theorem shown_congr {e e' : Texts} (h : e v = e' v) : e.shown v = e'.shown v := by
  simp [Texts.shown, h]

theorem shown_eq {e : Texts} (h : v.isSender = true → e v ≠ "") : e.shown v = e v := by
  unfold Texts.shown
  split
  · rename_i hempty
    exact absurd hempty.2 (h hempty.1)
  · rfl

theorem joined_congr {e e' : Texts} (h : ∀ v ∈ vs, e.shown v = e'.shown v) :
    e.joined vs = e'.joined vs := by
  induction vs with
  | nil => rfl
  | cons v vs ih =>
    simp [Texts.joined, Texts.joined, h v mem_cons_self, ih fun w hw => h w (mem_cons_of_mem _ hw)]

def Texts.only (v : ExpressionVariable) (text : String) : Texts := fun w =>
  if w = v then text else ""

theorem joined_only (hnodup : vs.Nodup) (hsender : ∀ v ∈ vs, v.isSender = false) (hv : v ∈ vs)
    (text : String) : (Texts.only v text).joined vs = text := by
  have hnone : ∀ ws : List ExpressionVariable, (∀ w ∈ ws, w.isSender = false) → v ∉ ws →
      (Texts.only v text).joined ws = "" := by
    intro ws hws hnot
    induction ws with
    | nil => rfl
    | cons w ws ih =>
      have hw : w ≠ v := fun hw => hnot (by rw [hw]; exact mem_cons_self)
      have hshown : (Texts.only v text).shown w = "" := by
        rw [shown_eq (by simp [hws w mem_cons_self]), Texts.only, if_neg hw]
      rw [Texts.joined, hshown, ih (fun u hu => hws u (mem_cons_of_mem _ hu))
        fun hmem => hnot (mem_cons_of_mem _ hmem)]
      rfl
  induction vs with
  | nil => cases hv
  | cons w ws ih =>
    rw [nodup_cons] at hnodup
    have hrest : ∀ u ∈ ws, u.isSender = false := fun u hu => hsender u (mem_cons_of_mem _ hu)
    have hshown : (Texts.only v text).shown w = if w = v then text else "" :=
      shown_eq (by simp [hsender w mem_cons_self])
    rw [Texts.joined, hshown]
    rcases mem_cons.mp hv with hv | hv
    · simp [hnone ws hrest (by rw [hv]; exact hnodup.1), hv.symm, String.append_empty]
    · have hw : w ≠ v := fun hw => hnodup.1 (by rw [hw]; exact hv)
      simp [ih hnodup.2 hrest hv, hw, String.empty_append]

/-- What the texts of some fields can join to: a sender is never empty. -/
def Joins (vs : List ExpressionVariable) (text : String) : Prop :=
  (vs = [] → text = "") ∧ vs.countP (fun v => v.isSender) ≤ text.length

theorem shown_sender_length (h : v.isSender = true) : 1 ≤ (e.shown v).length := by
  unfold Texts.shown
  split
  · decide
  · rename_i hempty
    rw [Nat.one_le_iff_ne_zero]
    intro hzero
    exact hempty ⟨h, String.length_eq_zero_iff.mp hzero⟩

theorem joins_joined (vs : List ExpressionVariable) : Joins vs (e.joined vs) := by
  refine ⟨fun h => by rw [h]; rfl, ?_⟩
  induction vs with
  | nil => exact Nat.zero_le _
  | cons v vs ih =>
    rw [Texts.joined, String.length_append, countP_cons]
    split
    · rename_i hsender
      have hlength := shown_sender_length e hsender
      omega
    · omega

/-- Any such text: each sender but the last field takes one character, and that takes the rest. -/
theorem exists_joined (hnodup : vs.Nodup) {text : String} (h : Joins vs text) :
    ∃ e : Texts, e.joined vs = text := by
  induction vs generalizing text with
  | nil => exact ⟨fun _ => "", (h.1 rfl).symm⟩
  | cons v vs ih =>
    rw [nodup_cons] at hnodup
    cases vs with
    | nil =>
      refine ⟨fun _ => text, ?_⟩
      have hlength := h.2
      have hshown : Texts.shown (fun _ => text) v = text := by
        apply shown_eq
        rintro hsender rfl
        simp [hsender] at hlength
      simp [Texts.joined, hshown]
    | cons w ws =>
      -- the first field takes `front`, the others the rest
      have hsplit : ∃ front rest : String, text = front ++ rest ∧
          (v.isSender = true → front ≠ "") ∧ Joins (w :: ws) rest := by
        have hlength := h.2
        rw [countP_cons] at hlength
        by_cases hsender : v.isSender = true
        · rw [if_pos hsender] at hlength
          obtain ⟨cs, rfl⟩ : ∃ cs, text = String.ofList cs := ⟨text.toList, by simp⟩
          cases cs with
          | nil => simp at hlength
          | cons c cs =>
            refine ⟨String.ofList [c], String.ofList cs, by simp,
              fun _ => by simp, fun hnil => (by cases hnil), ?_⟩
            simp only [String.length_ofList, length_cons] at hlength ⊢
            omega
        · rw [if_neg hsender] at hlength
          exact ⟨"", text, by simp, fun hsender' => absurd hsender' hsender,
            fun hnil => (by cases hnil), hlength⟩
      obtain ⟨front, rest, rfl, hfront, hrest⟩ := hsplit
      obtain ⟨e, he⟩ := ih hnodup.2 hrest
      refine ⟨fun u => if u = v then front else e u, ?_⟩
      rw [Texts.joined]
      have hshown : Texts.shown (fun u => if u = v then front else e u) v = front := by
        rw [shown_eq (by simpa using hfront), if_pos rfl]
      rw [← he]
      congr 1
      apply joined_congr
      intro u hu
      have hne : u ≠ v := fun hne => hnodup.1 (by rw [← hne]; exact hu)
      exact shown_congr (if_neg hne)

/-! ## Envelopes under one configuration -/

/-- Nothing is selected, or one field that is not a sender. -/
def Config.Single (c : Config E) : Prop :=
  c.fields = [] ∨ ∃ v, c.fields = [v] ∧ v.isSender = false

theorem joined_iff_of_single {c : Config E} (h : c.Single) (e e' : Texts) :
    e.joined c.fields = e'.joined c.fields ↔ ∀ v ∈ c.fields, e v = e' v := by
  rcases h with h | ⟨v, h, hsender⟩
  · simp [h, Texts.joined]
  · simp [h, Texts.joined, Texts.shown, hsender]

theorem single_of_joined_iff {c : Config E}
    (h : ∀ e e' : Texts, e.joined c.fields = e'.joined c.fields ↔ ∀ v ∈ c.fields, e v = e' v) :
    c.Single := by
  by_cases hsender : ∃ v ∈ c.fields, v.isSender = true
  · obtain ⟨v, hv, hsender⟩ := hsender
    -- an empty sender and `<>`
    have hsame : (Texts.only v "").joined c.fields = (Texts.only v "<>").joined c.fields := by
      apply joined_congr
      intro w _
      by_cases hw : w = v
      · simp [Texts.shown, Texts.only, hw, hsender]
      · simp [Texts.shown, Texts.only, hw]
    have hagree := (h _ _).mp hsame v hv
    simp [Texts.only] at hagree
  · have hnone : ∀ v ∈ c.fields, v.isSender = false := by simpa using hsender
    have hnodup := c.fields_nodup
    unfold Config.Single
    cases hfields : c.fields with
    | nil => exact Or.inl rfl
    | cons v vs =>
      cases vs with
      | nil => exact Or.inr ⟨v, rfl, hnone v (by rw [hfields]; exact mem_cons_self)⟩
      | cons w ws =>
        -- a text moves from one field to the next
        have hv : v ∈ c.fields := by rw [hfields]; exact mem_cons_self
        have hw : w ∈ c.fields := by
          rw [hfields]
          exact mem_cons_of_mem _ mem_cons_self
        have hne : v ≠ w := by
          rintro rfl
          rw [hfields] at hnodup
          exact (nodup_cons.mp hnodup).1 mem_cons_self
        have hsame : (Texts.only v "a").joined c.fields = (Texts.only w "a").joined c.fields := by
          rw [joined_only hnodup hnone hv, joined_only hnodup hnone hw]
        have hagree := (h _ _).mp hsame v hv
        simp [Texts.only, hne] at hagree

/-! ## Two configurations -/

/-- What `d` feeds behind its fields is what `c` feeds there, behind a text that can be the end
of the fields of `c`. -/
def Config.EndsIn (endian : Endian) (c d : Config E) : Prop :=
  ∃ text : String, d.suffix endian = Utf8.encode text ++ c.suffix endian ∧
    (c.fields = [] → text = "" ∧ ∀ v ∈ d.fields, v.isSender = false) ∧
    (d.fields = [] → c.fields.countP (fun v => v.isSender) ≤ text.length)

def Config.Overlap (endian : Endian) (c d : Config E) : Prop :=
  c.EndsIn endian d ∨ d.EndsIn endian c

theorem endsIn_iff (d : Config E) : c.EndsIn endian d ↔ ∃ (e e' : Texts) (text : String),
      d.suffix endian = Utf8.encode text ++ c.suffix endian ∧
        e.joined c.fields = e'.joined d.fields ++ text := by
  constructor
  · rintro ⟨text, hsuffix, hc, hd⟩
    -- long enough for the senders of both
    have hjoins : ∃ front, Joins d.fields front ∧ Joins c.fields (front ++ text) := by
      by_cases hempty : d.fields = []
      · refine ⟨"", ⟨fun _ => rfl, by simp [hempty]⟩, fun hfields => ?_, ?_⟩
        · simp [(hc hfields).1]
        · simpa using hd hempty
      · by_cases hfields : c.fields = []
        · obtain ⟨htext, hsenders⟩ := hc hfields
          refine ⟨"", ⟨fun _ => rfl, ?_⟩, fun _ => by simp [htext], by simp [hfields]⟩
          rw [countP_eq_zero.mpr fun v hv => by simp [hsenders v hv]]
          exact Nat.zero_le _
        · refine ⟨String.ofList (List.replicate
            (d.fields.countP (fun v => v.isSender) + c.fields.countP (fun v => v.isSender)) 'a'),
            ⟨fun h => absurd h hempty, ?_⟩, fun h => absurd h hfields, ?_⟩
          · simp
          · simp only [String.length_append, String.length_ofList, length_replicate]
            omega
    obtain ⟨front, hfront, hwhole⟩ := hjoins
    obtain ⟨e', he'⟩ := exists_joined d.fields_nodup hfront
    obtain ⟨e, he⟩ := exists_joined c.fields_nodup hwhole
    exact ⟨e, e', text, hsuffix, by rw [he, he']⟩
  · rintro ⟨e, e', text, hsuffix, htexts⟩
    have hc := joins_joined e c.fields
    have hd := joins_joined e' d.fields
    rw [htexts] at hc
    refine ⟨text, hsuffix, fun hfields => ?_, fun hfields => ?_⟩
    · have hempty := hc.1 hfields
      rw [String.append_eq_empty_iff] at hempty
      refine ⟨hempty.2, fun v hv => ?_⟩
      have hcount := hd.2
      rw [hempty.1, String.length_empty, Nat.le_zero, countP_eq_zero] at hcount
      simpa using hcount v hv
    · have hfront := hd.1 hfields
      have hlength := hc.2
      rw [hfront] at hlength
      exact hlength

theorem overlap_iff (d : Config E) :
    c.Overlap endian d ↔ ∃ e e' : Texts, c.feed endian e = d.feed endian e' := by
  simp only [Config.feed_eq]
  unfold Config.Overlap
  rw [endsIn_iff, endsIn_iff]
  constructor
  · rintro (⟨e, e', text, hsuffix, htexts⟩ | ⟨e, e', text, hsuffix, htexts⟩)
    · exact ⟨e, e', by simp [hsuffix, htexts, Utf8.encode_append]⟩
    · exact ⟨e', e, by simp [hsuffix, htexts, Utf8.encode_append]⟩
  · rintro ⟨e, e', h⟩
    rcases append_eq_append_iff.mp h with ⟨rest, hlong, hshort⟩ | ⟨rest, hlong, hshort⟩
    · obtain ⟨text, rfl, htexts⟩ := Utf8.exists_append_of_encode hlong
      exact Or.inr ⟨e', e, text, hshort, htexts⟩
    · obtain ⟨text, rfl, htexts⟩ := Utf8.exists_append_of_encode hlong
      exact Or.inl ⟨e, e', text, hshort, htexts⟩

/-- A configuration tells envelopes apart by its fields exactly when it selects no field, or one
that is not a sender; two that differ never feed the same bytes exactly when they do not
overlap. -/
theorem keys_isolate_iff (endian : Endian) :
    (∀ c : Config E, (∀ e e' : Texts, c.feed endian e = c.feed endian e' ↔
      ∀ v ∈ c.fields, e v = e' v) ↔ c.Single) ∧
    (∀ c d : Config E, (c.Differ d → ∀ e e' : Texts, c.feed endian e ≠ d.feed endian e') ↔
      (c.Differ d → ¬c.Overlap endian d)) := by
  constructor
  · intro c
    have hfeed : ∀ e e' : Texts, c.feed endian e = c.feed endian e' ↔
        e.joined c.fields = e'.joined c.fields := by
      simp [c.feed_eq, Utf8.encode_inj]
    simp only [hfeed]
    exact ⟨single_of_joined_iff, joined_iff_of_single⟩
  · intro c d
    rw [overlap_iff]
    push Not
    rfl

/-- A recipient and a sender that share the letter between them; and five messages, or five
bytes. -/
theorem quotaKey_not_isolated :
    let keys := throttleRcpt ||| throttleSender
    let quota : Config Texts := .quota ⟨none, keys, none, some 5⟩
    let sized : Config Texts := .quota ⟨none, keys, some 5, none⟩
    let e : Texts := fun
      | .rcpt => "a@x.co"
      | .sender => "me@y.org"
      | _ => ""
    let e' : Texts := fun
      | .rcpt => "a@x.com"
      | .sender => "e@y.org"
      | _ => ""
    ¬(quota.feed .little e = quota.feed .little e' ↔ ∀ v ∈ quota.fields, e v = e' v) ∧
      quota.Differ sized ∧ quota.feed .little e = sized.feed .little e := by
  intro keys quota sized e e'
  have hjoined : e.joined quota.fields = e'.joined quota.fields := by decide
  refine ⟨fun h => ?_, Or.inl fun h => (by cases h.1), ?_⟩
  · have hagree := h.mp (by rw [quota.feed_eq, quota.feed_eq, hjoined]) .rcpt (by decide)
    exact absurd hagree (by decide)
  · rw [quota.feed_eq, sized.feed_eq]
    rfl

end Bearmail.Queue
