import Mathlib.Algebra.BigOperators.Group.List.Basic
import Mathlib.Algebra.GroupWithZero.Nat

/-!
# Metadata of messages

`build_metadata_contents` of `email/src/message/metadata.rs` takes a parsed message apart, first the message
and then those nested in it, level by level. Offsets within a header and all indices are narrowed to 16 bits.
-/

namespace Bearmail.Email

open List

/-! ## Parsed messages -/

inductive Encoding where
  | none
  | quotedPrintable
  | base64
  deriving DecidableEq

/-- The names of the headers whose values are kept, and any other name. -/
inductive HeaderName where
  | subject
  | sentFrom
  | sentTo
  | cc
  | date
  | bcc
  | replyTo
  | sender
  | comments
  | inReplyTo
  | keywords
  | messageId
  | references
  | resentMessageId
  | contentDescription
  | contentId
  | contentLanguage
  | contentLocation
  | contentTransferEncoding
  | contentType
  | contentDisposition
  | listId
  | other (name : String)
  deriving DecidableEq

def HeaderName.keepsValue : HeaderName → Bool
  | .other _ => false
  | _ => true

structure Header (ν : Type) where
  name : HeaderName
  value : Option ν
  offsetField : UInt32
  offsetStart : UInt32
  offsetEnd : UInt32

/-- The contents of a leaf only count by their length. -/
inductive PartType (μ : Type) where
  | text (len : Nat)
  | html (len : Nat)
  | binary (len : Nat)
  | inlineBinary (len : Nat)
  | message (message : μ)
  | multipart (parts : List Nat)

structure Part (ν μ : Type) where
  headers : List (Header ν)
  encoding : Encoding
  isEncodingProblem : Bool
  body : PartType μ
  offsetHeader : UInt32
  offsetBody : UInt32
  offsetEnd : UInt32

inductive Message (ν : Type) where
  /-- with the `raw_len` of the root part -/
  | mk (parts : List (Part ν (Message ν))) (htmlBody textBody attachments : List Nat) (rawLen : UInt32)

namespace Message

variable {ν : Type}

def parts : Message ν → List (Part ν (Message ν))
  | mk parts .. => parts

def htmlBody : Message ν → List Nat
  | mk _ htmlBody .. => htmlBody

def textBody : Message ν → List Nat
  | mk _ _ textBody .. => textBody

def attachments : Message ν → List Nat
  | mk _ _ _ attachments _ => attachments

def rawLen : Message ν → UInt32
  | mk _ _ _ _ rawLen => rawLen

end Message

/-! ## Metadata -/

structure MetadataHeader (ν : Type) where
  name : HeaderName
  value : Option ν
  baseOffset : UInt32
  start : UInt16
  stop : UInt16

inductive MetadataPartType where
  | text
  | html
  | binary
  | inlineBinary
  | message (messageId : UInt16)
  | multipart (parts : List UInt16)

structure MessageMetadataPart (ν : Type) where
  headers : List (MetadataHeader ν)
  body : MetadataPartType
  flags : UInt32
  offsetHeader : UInt32
  offsetBody : UInt32
  offsetEnd : UInt32

structure MessageMetadataContents (ν : Type) where
  htmlBody : List UInt16
  textBody : List UInt16
  attachments : List UInt16
  parts : List (MessageMetadataPart ν)

def partEncodingBase64 : UInt32 := (1 : UInt32) <<< 31

def partEncodingQp : UInt32 := (1 : UInt32) <<< 30

def partEncodingProblem : UInt32 := (1 : UInt32) <<< 29

def partSizeMask : UInt32 := ~~~ (partEncodingBase64 ||| partEncodingQp ||| partEncodingProblem)

variable {ν : Type}

def Part.flags {μ : Type} (part : Part ν μ) (size : Nat) : UInt32 :=
  (match part.encoding with
    | .none => 0
    | .quotedPrintable => partEncodingQp
    | .base64 => partEncodingBase64) |||
  (if part.isEncodingProblem then partEncodingProblem else 0) ||| (UInt32.ofNat size &&& partSizeMask)

def buildHeader (hdr : Header ν) : MetadataHeader ν where
  name := hdr.name
  value := if hdr.name.keepsValue then hdr.value else none
  baseOffset := hdr.offsetField
  start := (hdr.offsetStart - hdr.offsetField).toUInt16
  stop := (hdr.offsetEnd - hdr.offsetField).toUInt16

/-- The size of a part and its body, the messages that are queued and the last number given to one. -/
def buildBody (body : PartType (Message ν)) (messageId : UInt16) :
    Nat × MetadataPartType × List (Message ν) × UInt16 :=
  match body with
  | .text len => (len, .text, [], messageId)
  | .html len => (len, .html, [], messageId)
  | .binary len => (len, .binary, [], messageId)
  | .inlineBinary len => (len, .inlineBinary, [], messageId)
  | .message inner => (inner.rawLen.toNat, .message (messageId + 1), [inner], messageId + 1)
  | .multipart parts => (0, .multipart (parts.map UInt16.ofNat), [], messageId)

def buildParts : List (Part ν (Message ν)) → UInt16 →
    List (MessageMetadataPart ν) × List (Message ν) × UInt16
  | [], messageId => ([], [], messageId)
  | part :: parts, messageId =>
    let (size, body, queued, messageId) := buildBody part.body messageId
    let (built, more, messageId) := buildParts parts messageId
    ({ headers := part.headers.map buildHeader
       body := body
       flags := part.flags size
       offsetHeader := part.offsetHeader
       offsetBody := part.offsetBody
       offsetEnd := part.offsetEnd } :: built, queued ++ more, messageId)

def PartType.message? : PartType (Message ν) → Option (Message ν)
  | .message inner => some inner
  | _ => none

def nested (parts : List (Part ν (Message ν))) : List (Message ν) :=
  parts.filterMap fun part => part.body.message?

theorem buildParts_queued (parts : List (Part ν (Message ν))) (messageId : UInt16) :
    (buildParts parts messageId).2.1 = nested parts := by
  induction parts generalizing messageId with
  | nil => rfl
  | cons part parts ih =>
    simp only [buildParts, ih]
    cases hbody : part.body <;> simp [buildBody, nested, hbody, PartType.message?]

theorem sizeOf_nested (parts : List (Part ν (Message ν))) :
    ((nested parts).map sizeOf).sum ≤ sizeOf parts := by
  induction parts with
  | nil => simp [nested]
  | cons part parts ih =>
    obtain ⟨headers, encoding, problem, body, header, offset, stop⟩ := part
    cases body <;> simp [nested, PartType.message?] at ih ⊢ <;> omega

theorem sizeOf_queue (message : Message ν) (messages : List (Message ν)) :
    ((messages ++ nested message.parts).map sizeOf).sum < ((message :: messages).map sizeOf).sum := by
  have hnested := sizeOf_nested message.parts
  obtain ⟨parts, htmlBody, textBody, attachments, rawLen⟩ := message
  simp only [Message.parts, List.map_append, sum_append, map_cons, sum_cons,
    Message.mk.sizeOf_spec] at hnested ⊢
  omega

def buildLoop (messages : List (Message ν)) (messageId : UInt16) : List (MessageMetadataContents ν) :=
  match messages with
  | [] => []
  | message :: messages =>
    let built := buildParts message.parts messageId
    { htmlBody := message.htmlBody.map UInt16.ofNat
      textBody := message.textBody.map UInt16.ofNat
      attachments := message.attachments.map UInt16.ofNat
      parts := built.1 } :: buildLoop (messages ++ built.2.1) built.2.2
termination_by (messages.map sizeOf).sum
decreasing_by
  rw [buildParts_queued]
  exact sizeOf_queue ..

def buildMetadataContents (message : Message ν) : List (MessageMetadataContents ν) :=
  buildLoop [message] 0

/-! ## What the parser has found -/

/-- The offset of a header, and where its value begins and ends. -/
abbrev HeaderLayout := Nat × Nat × Nat

inductive BodyLayout where
  | leaf
  /-- the place of the contents of a nested message -/
  | message (place : Nat)
  | multipart (parts : List Nat)
  deriving DecidableEq

structure Layout where
  htmlBody : List Nat
  textBody : List Nat
  attachments : List Nat
  parts : List (List HeaderLayout × BodyLayout)
  deriving DecidableEq

def Header.layout (hdr : Header ν) : HeaderLayout :=
  (hdr.offsetField.toNat, hdr.offsetStart.toNat, hdr.offsetEnd.toNat)

/-- With the number of messages that were queued before. -/
def layoutParts : List (Part ν (Message ν)) → Nat → List (List HeaderLayout × BodyLayout)
  | [], _ => []
  | part :: parts, place =>
    let headers := part.headers.map Header.layout
    match part.body with
    | .message _ => (headers, .message (place + 1)) :: layoutParts parts (place + 1)
    | .multipart indices => (headers, .multipart indices) :: layoutParts parts place
    | _ => (headers, .leaf) :: layoutParts parts place

def levels (messages : List (Message ν)) : List (Message ν) :=
  match messages with
  | [] => []
  | message :: messages => message :: levels (messages ++ nested message.parts)
termination_by (messages.map sizeOf).sum
decreasing_by exact sizeOf_queue ..

def Message.layout (message : Message ν) (place : Nat) : Layout :=
  ⟨message.htmlBody, message.textBody, message.attachments, layoutParts message.parts place⟩

def layoutLoop (messages : List (Message ν)) (place : Nat) : List Layout :=
  match messages with
  | [] => []
  | message :: messages =>
    message.layout place :: layoutLoop (messages ++ nested message.parts) (place + (nested message.parts).length)
termination_by (messages.map sizeOf).sum
decreasing_by exact sizeOf_queue ..

/-! ## What is restored -/

def MetadataHeader.restore (hdr : MetadataHeader ν) : HeaderLayout :=
  (hdr.baseOffset.toNat, hdr.baseOffset.toNat + hdr.start.toNat, hdr.baseOffset.toNat + hdr.stop.toNat)

def MetadataPartType.restore : MetadataPartType → BodyLayout
  | .message messageId => .message messageId.toNat
  | .multipart parts => .multipart (parts.map UInt16.toNat)
  | _ => .leaf

def MessageMetadataPart.restore (part : MessageMetadataPart ν) : List HeaderLayout × BodyLayout :=
  (part.headers.map MetadataHeader.restore, part.body.restore)

def MessageMetadataContents.restore (contents : MessageMetadataContents ν) : Layout where
  htmlBody := contents.htmlBody.map UInt16.toNat
  textBody := contents.textBody.map UInt16.toNat
  attachments := contents.attachments.map UInt16.toNat
  parts := contents.parts.map MessageMetadataPart.restore

def Restores (message : Message ν) : Prop :=
  (buildMetadataContents message).map MessageMetadataContents.restore = layoutLoop [message] 0

/-! ## What fits in 16 bits -/

/-- The value begins and ends behind the start of the header, by fewer than 65536 bytes. -/
def Header.Fits (hdr : Header ν) : Prop :=
  ∀ offset ∈ [hdr.offsetStart, hdr.offsetEnd],
    hdr.offsetField ≤ offset ∧ offset.toNat < hdr.offsetField.toNat + 65536

def FitAll (indices : List Nat) : Prop := ∀ i ∈ indices, i < 65536

structure Part.Fits (part : Part ν (Message ν)) : Prop where
  headers : ∀ hdr ∈ part.headers, hdr.Fits
  multipart : ∀ indices, part.body = .multipart indices → FitAll indices

structure Message.Fits (message : Message ν) : Prop where
  htmlBody : FitAll message.htmlBody
  textBody : FitAll message.textBody
  attachments : FitAll message.attachments
  parts : ∀ part ∈ message.parts, part.Fits

theorem narrowed_iff {field offset : UInt32} :
    field.toNat + (offset - field).toUInt16.toNat = offset.toNat ↔
      field ≤ offset ∧ offset.toNat < field.toNat + 65536 := by
  rw [UInt32.le_iff_toNat_le, UInt32.toNat_toUInt16, UInt32.toNat_sub]
  have hfield := field.toNat_lt
  omega

theorem Header.restore_iff {hdr : Header ν} : (buildHeader hdr).restore = hdr.layout ↔ hdr.Fits := by
  simp only [MetadataHeader.restore, buildHeader, Header.layout, Prod.mk.injEq, narrowed_iff, true_and]
  simp [Header.Fits]

theorem fitAll_iff {indices : List Nat} :
    (indices.map UInt16.ofNat).map UInt16.toNat = indices ↔ FitAll indices := by
  rw [map_map]
  conv_lhs => rhs; rw [← map_id indices]
  rw [map_inj_left]
  refine forall₂_congr fun i hi => ?_
  simp

theorem headers_iff {headers : List (Header ν)} :
    (headers.map buildHeader).map MetadataHeader.restore = headers.map Header.layout ↔
      ∀ hdr ∈ headers, hdr.Fits := by
  rw [map_map, map_inj_left]
  exact forall₂_congr fun hdr _ => hdr.restore_iff

/-- The numbers given to nested messages after the first `place`. -/
def PlacesFit (place count : Nat) : Prop := ∀ i, place < i → i ≤ place + count → i < 65536

theorem placesFit_succ {place count : Nat} :
    PlacesFit place (count + 1) ↔ place + 1 < 65536 ∧ PlacesFit (place + 1) count := by
  constructor
  · intro h
    exact ⟨h (place + 1) (by omega) (by omega), fun i hlt hle => h i (by omega) (by omega)⟩
  · rintro ⟨hplace, hrest⟩ i hlt hle
    rcases eq_or_ne i (place + 1) with rfl | hne
    · exact hplace
    · exact hrest i (by omega) (by omega)

theorem next_number (place : Nat) : UInt16.ofNat place + 1 = UInt16.ofNat (place + 1) :=
  (UInt16.ofNat_add place 1).symm

theorem buildParts_number (parts : List (Part ν (Message ν))) (place : Nat) :
    (buildParts parts (UInt16.ofNat place)).2.2 = UInt16.ofNat (place + (nested parts).length) := by
  induction parts generalizing place with
  | nil => rfl
  | cons part parts ih =>
    simp only [buildParts]
    cases hbody : part.body with
    | message inner =>
      have hnested : (nested (part :: parts)).length = (nested parts).length + 1 := by
        simp [nested, hbody, PartType.message?]
      simp only [buildBody, next_number, ih, hnested]
      rw [Nat.add_assoc, Nat.add_comm 1]
    | _ => simp [buildBody, nested, hbody, PartType.message?, ih]

theorem buildParts_iff (parts : List (Part ν (Message ν))) (place : Nat) :
    (buildParts parts (UInt16.ofNat place)).1.map MessageMetadataPart.restore = layoutParts parts place ↔
      (∀ part ∈ parts, part.Fits) ∧ PlacesFit place (nested parts).length := by
  induction parts generalizing place with
  | nil =>
    simp [buildParts, layoutParts, nested, PlacesFit]
    omega
  | cons part parts ih =>
    have hfits : ∀ {body}, part.body = body → (part.Fits ↔
        (∀ hdr ∈ part.headers, hdr.Fits) ∧ ∀ indices, body = .multipart indices → FitAll indices) := by
      rintro _ rfl
      exact ⟨fun h => ⟨h.headers, h.multipart⟩, fun h => ⟨h.1, h.2⟩⟩
    simp only [buildParts, layoutParts, forall_mem_cons]
    cases hbody : part.body with
    | message inner =>
      have hnested : (nested (part :: parts)).length = (nested parts).length + 1 := by
        simp [nested, hbody, PartType.message?]
      have hnumber : (UInt16.ofNat (place + 1)).toNat = place + 1 ↔ place + 1 < 65536 := by
        rw [UInt16.toNat_ofNat']
        omega
      simp only [buildBody, next_number, map_cons, List.cons.injEq, ih, MessageMetadataPart.restore,
        Prod.mk.injEq, headers_iff, MetadataPartType.restore, BodyLayout.message.injEq, hnumber, hnested,
        placesFit_succ, hfits hbody, reduceCtorEq, false_implies, implies_true, and_true]
      tauto
    | multipart indices =>
      have hnested : nested (part :: parts) = nested parts := by simp [nested, hbody, PartType.message?]
      simp only [buildBody, map_cons, List.cons.injEq, ih, MessageMetadataPart.restore,
        Prod.mk.injEq, headers_iff, MetadataPartType.restore, BodyLayout.multipart.injEq, fitAll_iff, hnested,
        hfits hbody, PartType.multipart.injEq, forall_eq']
      tauto
    | _ =>
      have hnested : nested (part :: parts) = nested parts := by simp [nested, hbody, PartType.message?]
      simp only [buildBody, map_cons, List.cons.injEq, ih, MessageMetadataPart.restore,
        Prod.mk.injEq, headers_iff, MetadataPartType.restore, hnested, hfits hbody, reduceCtorEq,
        false_implies, implies_true, and_true]
      tauto

/-! ## Levels -/

theorem prefix_levels (messages : List (Message ν)) : messages <+: levels messages := by
  fun_induction levels messages with
  | case1 => exact prefix_rfl
  | case2 message messages ih =>
    exact cons_prefix_cons.mpr ⟨rfl, (prefix_append ..).trans ih⟩

theorem length_levels_cons (message : Message ν) (messages : List (Message ν)) :
    (levels (message :: messages)).length - (messages.length + 1) = (nested message.parts).length +
      ((levels (messages ++ nested message.parts)).length - (messages ++ nested message.parts).length) := by
  have hle := (prefix_levels (messages ++ nested message.parts)).length_le
  rw [levels]
  simp only [length_cons, length_append] at hle ⊢
  omega

theorem placesFit_add {place a b : Nat} :
    PlacesFit place (a + b) ↔ PlacesFit place a ∧ PlacesFit (place + a) b := by
  constructor
  · intro h
    exact ⟨fun i hlt hle => h i hlt (by omega), fun i hlt hle => h i (by omega) (by omega)⟩
  · rintro ⟨hfirst, hrest⟩ i hlt hle
    rcases Nat.lt_or_ge (place + a) i with hbehind | hin
    · exact hrest i hbehind (by omega)
    · exact hfirst i hlt hin

theorem buildLoop_iff (messages : List (Message ν)) (place : Nat) :
    (buildLoop messages (UInt16.ofNat place)).map MessageMetadataContents.restore = layoutLoop messages place ↔
      (∀ message ∈ levels messages, message.Fits) ∧
        PlacesFit place ((levels messages).length - messages.length) := by
  induction hlevels : levels messages generalizing messages place with
  | nil =>
    cases messages with
    | nil =>
      simp [buildLoop, layoutLoop, PlacesFit]
      omega
    | cons message messages => simp [levels] at hlevels
  | cons first rest ih =>
    cases messages with
    | nil => simp [levels] at hlevels
    | cons message messages =>
      have hfits : message.Fits ↔ FitAll message.htmlBody ∧ FitAll message.textBody ∧
          FitAll message.attachments ∧ ∀ part ∈ message.parts, part.Fits :=
        ⟨fun h => ⟨h.1, h.2, h.3, h.4⟩, fun h => ⟨h.1, h.2.1, h.2.2.1, h.2.2.2⟩⟩
      have hlength := length_levels_cons message messages
      rw [hlevels] at hlength
      rw [levels] at hlevels
      obtain ⟨rfl, hrest⟩ := List.cons.inj hlevels
      rw [hrest] at hlength
      rw [buildLoop, layoutLoop, buildParts_queued, buildParts_number, map_cons, List.cons.injEq,
        ih _ _ hrest, show (message :: messages).length = messages.length + 1 from rfl, hlength,
        placesFit_add, forall_mem_cons, hfits]
      simp only [MessageMetadataContents.restore, Message.layout, Layout.mk.injEq, fitAll_iff, buildParts_iff]
      tauto

/-- Everything is restored when everything fits, and only then. -/
theorem restores_iff (message : Message ν) :
    Restores message ↔ (∀ m ∈ levels [message], m.Fits) ∧ (levels [message]).length ≤ 65536 := by
  have hplaces : PlacesFit 0 ((levels [message]).length - 1) ↔ (levels [message]).length ≤ 65536 := by
    constructor
    · intro h
      by_contra hlarge
      have := h ((levels [message]).length - 1) (by omega) (by omega)
      omega
    · intro hle i hlt hi
      omega
  rw [← hplaces]
  exact buildLoop_iff [message] 0

/-- A header of a message whose recipients take more than 65536 bytes. -/
def longRecipients : Message String :=
  .mk [⟨[⟨.sentTo, none, 0, 3, 70000⟩], .none, false, .text 10, 0, 70002, 70012⟩] [0] [0] [] 70012

theorem not_restores_longRecipients : ¬ Restores longRecipients := by
  intro h
  have hheader := congrArg (fun layouts => layouts.flatMap fun layout => layout.parts.flatMap Prod.fst) h
  simp [buildMetadataContents, buildLoop, layoutLoop, longRecipients, Message.parts, buildParts, buildBody,
    MessageMetadataContents.restore, MessageMetadataPart.restore, MetadataHeader.restore, buildHeader,
    Message.layout, layoutParts, Header.layout] at hheader

end Bearmail.Email
