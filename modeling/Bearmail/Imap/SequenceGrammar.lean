import Bearmail.Imap.SequenceSet

/-!
# The grammar of a sequence set

What `parse_sequence_set` accepts, against the grammar of a set: numbers, ranges
whose ends may be `*`, `*` and `$`, joined by commas.

The scan is followed by a reader without positions (`readFrom`), which knows of
an item only the phase it is in.
-/

namespace Bearmail.Imap

open List Option

/-! ## The grammar -/

def NumberText (n : Nat) (digits : Bytes) : Prop :=
  digits ≠ [] ∧ (∀ b ∈ digits, isAsciiDigit b = true) ∧ readDigits 0 digits = some n ∧ n < 2 ^ 32

def EndText : Option Nat → Bytes → Prop
  | none, text => text = [42]
  | some n, text => NumberText n text

inductive ItemText : Sequence → Bytes → Prop where
  | number {n digits} : NumberText n digits → ItemText (.number n) digits
  | range {a b first last} : EndText a first → EndText b last →
      ItemText (.range a b) (first ++ 58 :: last)
  | star : ItemText (.range none none) [42]
  | savedSearch : ItemText .savedSearch [36]

inductive ItemsText : List Sequence → Bytes → Prop where
  | one {item text} : ItemText item text → ItemsText [item] text
  | cons {item text items rest} : ItemText item text → ItemsText items rest →
      ItemsText (item :: items) (text ++ 44 :: rest)

def setOf : List Sequence → Sequence
  | [item] => item
  | items => .list items

def SetText (set : Sequence) (text : Bytes) : Prop :=
  ∃ items, ItemsText items text ∧ set = setOf items

/-- An item as the scan takes it, with what is kept of a `$` before and after it. A
`$` may follow `*`, and is then kept for a later item; it hides the digits of a number
it follows, and a `$` that was kept hides the digits of a later number. -/
inductive LooseItem : Bool → Sequence → Bytes → Bool → Prop where
  | number {n digits} : NumberText n digits → LooseItem false (.number n) digits false
  | range {kept a b first last} : EndText a first → EndText b last →
      LooseItem kept (.range a b) (first ++ 58 :: last) kept
  | rangeDollar {kept a first} : EndText a first →
      LooseItem kept (.range a none) (first ++ [58, 42, 36]) true
  | star {kept} : LooseItem kept (.range none none) [42] kept
  | starDollar {kept} : LooseItem kept (.range none none) [42, 36] true
  | savedSearch {kept digits} : (∀ b ∈ digits, isAsciiDigit b = true) →
      LooseItem kept .savedSearch (digits ++ [36]) false
  | keptSearch {digits} : (∀ b ∈ digits, isAsciiDigit b = true) →
      LooseItem true .savedSearch digits false

/-- Such items joined by commas; one more comma may follow the last. -/
inductive LooseItems : Bool → List Sequence → Bytes → Prop where
  | one {kept kept' item text} : LooseItem kept item text kept' → text ≠ [] → LooseItems kept [item] text
  | comma {kept kept' item text} : LooseItem kept item text kept' → LooseItems kept [item] (text ++ [44])
  | cons {kept kept' item text items rest} : LooseItem kept item text kept' →
      LooseItems kept' items rest → LooseItems kept (item :: items) (text ++ 44 :: rest)

/-- A text with an item that is none, or with a comma after the last item, that
the scan takes all the same. -/
def Loose (text : Bytes) : Prop :=
  (∃ items, LooseItems false items text) ∧ ¬ ∃ items, ItemsText items text

variable {item : Sequence} {text digits rest before : Bytes} {φ ψ : Phase} {ch : UInt8}

theorem ItemText.loose (h : ItemText item text) : LooseItem false item text false ∧ text ≠ [] := by
  cases h with
  | number hn => exact ⟨.number hn, hn.1⟩
  | range ha hb => exact ⟨.range ha hb, by simp⟩
  | star => exact ⟨.star, by simp⟩
  | savedSearch => exact ⟨@LooseItem.savedSearch false [] (by simp), by simp⟩

theorem ItemsText.loose {items : List Sequence} (h : ItemsText items text) :
    LooseItems false items text := by
  induction h with
  | one hi => exact .one hi.loose.1 hi.loose.2
  | cons hi _ ih => exact .cons hi.loose.1 ih

/-! ## Numbers -/

def numberOf (digits : Bytes) : Option Nat := (parseNumber 32 digits).toOption

variable (h : ∀ b ∈ digits, isAsciiDigit b = true)
include h

theorem utf8_of_digits : utf8 (String.ofList (digits.map fun b => Char.ofNat b.toNat)) = digits := by
  have hdigit : ∀ b ∈ digits, (Char.ofNat b.toNat).toNat = b.toNat ∧ b.toNat < 128 := by
    intro b hb
    have hd := h b hb
    simp only [isAsciiDigit, Bool.and_eq_true, decide_eq_true_eq, UInt8.le_iff_toNat_le] at hd
    have h57 : (57 : UInt8).toNat = 57 := rfl
    have hv : b.toNat.isValidChar := Or.inl (by omega)
    refine ⟨?_, by omega⟩
    rw [Char.ofNat, dif_pos hv]
    rfl
  rw [utf8_ofList, List.map_map]
  · refine (map_congr_left fun b hb => ?_).trans (List.map_id _)
    show UInt8.ofNat (Char.ofNat b.toNat).toNat = b
    rw [(hdigit b hb).1, UInt8.ofNat_toNat]
  · intro c hc
    obtain ⟨b, hb, rfl⟩ := List.mem_map.mp hc
    rw [(hdigit b hb).1]
    exact (hdigit b hb).2

theorem numberOf_digits (hne : digits ≠ []) :
    numberOf digits = (readDigits 0 digits).filter fun n => decide (n < 2 ^ 32) := by
  have hhead : digits.head? ≠ some 43 := by
    intro hplus
    have hd := h 43 (List.mem_of_mem_head? hplus)
    cases hd
  have hutf : fromUtf8 digits = some (String.ofList (digits.map fun b => Char.ofNat b.toNat)) := by
    have hu := fromUtf8_utf8 (String.ofList (digits.map fun b => Char.ofNat b.toNat))
    rwa [utf8_of_digits h] at hu
  unfold numberOf parseNumber
  simp only [hutf, fromStr, if_neg hhead, if_neg hne]
  cases (readDigits 0 digits).filter fun n => decide (n < 2 ^ 32) with
  | none | some n => rfl

theorem numberOf_eq_some (hne : digits ≠ []) (n : Nat) :
    numberOf digits = some n ↔ NumberText n digits := by
  rw [numberOf_digits h hne, filter_eq_some_iff]
  simp only [decide_eq_true_eq]
  exact ⟨fun hn => ⟨hne, h, hn.1, hn.2⟩, fun hn => ⟨hn.2.2.1, hn.2.2.2⟩⟩

omit h

theorem NumberText.numberOf {n : Nat} (h : NumberText n digits) :
    numberOf digits = some n := (numberOf_eq_some h.2.1 h.1 n).mpr h

theorem readDigits_dollar (digits : Bytes) (value : Nat) : readDigits value (digits ++ [36]) = none := by
  induction digits generalizing value with
  | nil => rfl
  | cons b digits ih =>
    rw [cons_append, readDigits]
    split
    · exact ih _
    · rfl

theorem numberOf_dollar (h : ∀ b ∈ digits, isAsciiDigit b = true) :
    numberOf (digits ++ [36]) = none := by
  have hhead : (digits ++ [36]).head? ≠ some 43 := by
    intro hplus
    rcases mem_append.mp (List.mem_of_mem_head? hplus) with hmem | hmem
    · cases h 43 hmem
    · cases mem_singleton.mp hmem
  have hnone : fromStr 32 (digits ++ [36]) = none := by
    simp only [fromStr, if_neg hhead, readDigits_dollar]
    rw [if_neg (by simp)]
    rfl
  unfold numberOf parseNumber
  simp only [hnone]
  cases fromUtf8 (digits ++ [36]) <;> rfl

/-! ## Reading without positions -/

inductive Phase where
  | start
  | token (digits : Bytes)
  | wild
  | range (first : Option Nat)
  | rangeToken (first : Option Nat) (digits : Bytes)
  | rangeWild (first : Option Nat)

namespace Phase

def byte (ch : UInt8) : Phase → Option Phase
  | start =>
    if isAsciiDigit ch then some (token [ch]) else if ch = 42 then some wild else none
  | token digits =>
    if isAsciiDigit ch then some (token (digits ++ [ch]))
    else if ch = 58 then (numberOf digits).map fun n => range (some n)
    else none
  | wild => if ch = 58 then some (range none) else none
  | range first =>
    if isAsciiDigit ch then some (rangeToken first [ch])
    else if ch = 42 then some (rangeWild first)
    else none
  | rangeToken first digits =>
    if isAsciiDigit ch then some (rangeToken first (digits ++ [ch])) else none
  | rangeWild _ => none

/-- The item that ends here, and whether a `$` is still kept after it. -/
def close (kept : Bool) : Phase → Option (Sequence × Bool)
  | start => if kept then some (.savedSearch, false) else none
  | token digits =>
    if kept then some (.savedSearch, false) else (numberOf digits).map fun n => (.number n, false)
  | wild => some (.range none none, kept)
  | range _ => none
  | rangeToken first digits => (numberOf digits).map fun n => (.range first (some n), kept)
  | rangeWild first => some (.range first none, kept)

def closeDollar : Phase → Option (Sequence × Bool)
  | start => some (.savedSearch, false)
  | token _ => some (.savedSearch, false)
  | wild => some (.range none none, true)
  | range _ => none
  | rangeToken _ _ => none
  | rangeWild first => some (.range first none, true)

end Phase

/-- What follows an item is read between two items, unless nothing follows. -/
def readFrom : Phase → Bool → Bytes → Option (List Sequence)
  | _, _, [] => some []
  | φ, kept, ch :: rest =>
    if ch = 44 then
      (φ.close kept).bind fun r => (readFrom .start r.2 rest).map (r.1 :: ·)
    else if ch = 36 then
      match rest with
      | [] => φ.closeDollar.map fun r => [r.1]
      | next :: more =>
        if next = 44 then
          φ.closeDollar.bind fun r => (readFrom .start r.2 more).map (r.1 :: ·)
        else none
    else
      (φ.byte ch).bind fun ψ =>
        if rest = [] then (ψ.close kept).map fun r => [r.1] else readFrom ψ kept rest

def endItem (r : Option (Sequence × Bool)) (rest : Bytes) : Option (List Sequence) :=
  r.bind fun r => (readFrom .start r.2 rest.tail).map (r.1 :: ·)

theorem endItem_nil (r : Option (Sequence × Bool)) : endItem r [] = r.map fun r => [r.1] := by
  cases r <;> rfl

theorem not_special_of_byte (h : φ.byte ch = some ψ) : ch ≠ 44 ∧ ch ≠ 36 := by
  constructor
  all_goals
    rintro rfl
    cases φ <;> simp [Phase.byte, isAsciiDigit] at h

theorem readFrom_comma (φ : Phase) (kept : Bool) (rest : Bytes) :
    readFrom φ kept (44 :: rest) = endItem (φ.close kept) (44 :: rest) := by
  cases rest <;> rfl

theorem readFrom_dollar (φ : Phase) (kept : Bool) (h : AtEnd rest) :
    readFrom φ kept (36 :: rest) = endItem φ.closeDollar rest := by
  rcases h with rfl | ⟨more, rfl⟩
  · rw [endItem_nil]
    rfl
  · rfl

/-- A byte that ends no item and is not the one of `$`. -/
theorem readFrom_other (hcomma : ch ≠ 44) (hdollar : ch ≠ 36) (φ : Phase) (kept : Bool) (rest : Bytes) :
    readFrom φ kept (ch :: rest) = (φ.byte ch).bind fun ψ =>
      if rest = [] then (ψ.close kept).map fun r => [r.1] else readFrom ψ kept rest := by
  cases rest
  all_goals
    show (if ch = 44 then _ else if ch = 36 then _ else _) = _
    rw [if_neg hcomma, if_neg hdollar]

theorem readFrom_byte (h : φ.byte ch = some ψ) (kept : Bool) (hne : rest ≠ []) :
    readFrom φ kept (ch :: rest) = readFrom ψ kept rest := by
  obtain ⟨hcomma, hdollar⟩ := not_special_of_byte h
  rw [readFrom_other hcomma hdollar, h, Option.bind_some, if_neg hne]

theorem readFrom_dollar_none (φ : Phase) (kept : Bool) (h : ¬ AtEnd rest) :
    readFrom φ kept (36 :: rest) = none := by
  cases rest with
  | nil => exact absurd (Or.inl rfl) h
  | cons next more =>
    have hne : next ≠ 44 := by
      rintro rfl
      exact h (Or.inr ⟨more, rfl⟩)
    exact if_neg hne

theorem readFrom_none (hcomma : ch ≠ 44) (hdollar : ch ≠ 36) (h : φ.byte ch = none) (kept : Bool)
    (rest : Bytes) : readFrom φ kept (ch :: rest) = none := by
  rw [readFrom_other hcomma hdollar, h, Option.bind_none]

theorem readFrom_last (h : φ.byte ch = some ψ) (kept : Bool) (hend : AtEnd rest) :
    readFrom φ kept (ch :: rest) = endItem (ψ.close kept) rest := by
  rcases hend with rfl | ⟨more, rfl⟩
  · obtain ⟨hcomma, hdollar⟩ := not_special_of_byte h
    rw [endItem_nil, readFrom_other hcomma hdollar, h, Option.bind_some, if_pos rfl]
  · rw [readFrom_byte h kept (by simp), readFrom_comma]

/-! ## The scan reads the same -/

namespace Phase

def scan (pos : Nat) (done : List Sequence) (kept : Bool) : Phase → SetScan
  | start => { SetScan.between done with isSavedSearch := kept }
  | token digits =>
    { SetScan.between done with
      tokenStart := some (pos - digits.length), isSavedSearch := kept }
  | wild => { SetScan.between done with isWildcard := true, isSavedSearch := kept }
  | range first =>
    { SetScan.between done with rangeStart := first, isRange := true, isSavedSearch := kept }
  | rangeToken first digits =>
    { SetScan.between done with
      rangeStart := first, tokenStart := some (pos - digits.length), isRange := true,
      isSavedSearch := kept }
  | rangeWild first =>
    { SetScan.between done with
      rangeStart := first, isWildcard := true, isRange := true, isSavedSearch := kept }

def Read (before : Bytes) : Phase → Prop
  | token digits => (∀ b ∈ digits, isAsciiDigit b = true) ∧ digits <:+ before
  | rangeToken _ digits => (∀ b ∈ digits, isAsciiDigit b = true) ∧ digits <:+ before
  | _ => True

theorem read_snoc (hd : isAsciiDigit ch = true)
    (h : (∀ b ∈ digits, isAsciiDigit b = true) ∧ digits <:+ before) :
    (∀ b ∈ digits ++ [ch], isAsciiDigit b = true) ∧ digits ++ [ch] <:+ before ++ [ch] := by
  obtain ⟨hall, pre, rfl⟩ := h
  refine ⟨?_, pre, by simp⟩
  intro b hb
  rcases mem_append.mp hb with hb | hb
  · exact hall b hb
  · rw [mem_singleton.mp hb]
    exact hd

theorem Read.byte (h : φ.Read before) (hb : φ.byte ch = some ψ) : ψ.Read (before ++ [ch]) := by
  have hone : isAsciiDigit ch = true →
      (∀ b ∈ [ch], isAsciiDigit b = true) ∧ [ch] <:+ before ++ [ch] := fun hd =>
    @read_snoc [] before ch hd ⟨by simp, nil_suffix⟩
  cases φ with
  | start =>
    simp only [Phase.byte] at hb
    split at hb
    · rename_i hd
      cases hb
      exact hone hd
    · split at hb <;> cases hb
      trivial
  | token digits =>
    simp only [Phase.byte] at hb
    split at hb
    · rename_i hd
      cases hb
      exact read_snoc hd h
    · split at hb
      · obtain ⟨n, -, rfl⟩ := map_eq_some_iff.mp hb
        trivial
      · cases hb
  | wild =>
    simp only [Phase.byte] at hb
    split at hb <;> cases hb
    trivial
  | range first =>
    simp only [Phase.byte] at hb
    split at hb
    · rename_i hd
      cases hb
      exact hone hd
    · split at hb <;> cases hb
      trivial
  | rangeToken first digits =>
    simp only [Phase.byte] at hb
    split at hb
    · rename_i hd
      cases hb
      exact read_snoc hd h
    · cases hb
  | rangeWild first => cases hb

end Phase

theorem setNumber_suffix (h : digits <:+ before) (rest : Bytes) :
    setNumber (before ++ rest) (before.length - digits.length) before.length =
      parseNumber 32 digits := by
  obtain ⟨pre, rfl⟩ := h
  have hslice := slice_append pre digits rest
  simp [setNumber, hslice]

theorem scanByte_phase (φ : Phase) {before rest : Bytes} {ch : UInt8} (h : φ.Read before)
    (hcomma : ch ≠ 44) (hdollar : ch ≠ 36) (done : List Sequence) (kept : Bool) :
    (scanByte (before ++ ch :: rest) before.length ch (φ.scan before.length done kept)).toOption =
      (φ.byte ch).map fun ψ => (false, ψ.scan (before.length + 1) done kept) := by
  by_cases hd : isAsciiDigit ch = true
  · have hstar : ch ≠ 42 := by rintro rfl; cases hd
    have hcolon : ch ≠ 58 := by rintro rfl; cases hd
    cases φ with
    | start | token digits =>
      rw [scanByte_digit _ _ _ hd rfl]
      simp [Phase.byte, hd, Phase.scan, SetScan.between, Except.toOption]
    | wild => simp [scanByte, hcomma, hcolon, hstar, hdollar, hd, Phase.byte, Phase.scan, invalidSet,
        Except.toOption]
    | range first | rangeToken first digits =>
      rw [scanByte_digit _ _ _ hd rfl]
      simp [Phase.byte, hd, Phase.scan, SetScan.between, Except.toOption]
    | rangeWild first => simp [scanByte, hcomma, hcolon, hstar, hdollar, hd, Phase.byte, Phase.scan,
        invalidSet, Except.toOption]
  · by_cases hcolon : ch = 58
    · subst hcolon
      cases φ with
      | start => simp [scanByte, Phase.byte, Phase.scan, SetScan.between, invalidSet, Except.toOption, hd]
      | token digits =>
        have hnum := setNumber_suffix h.2 (58 :: rest)
        simp only [scanByte, Phase.scan, SetScan.between, hnum, Phase.byte, hd, numberOf]
        cases parseNumber 32 digits <;> simp [Except.toOption, bind, Except.bind]
      | wild => simp [scanByte, Phase.byte, Phase.scan, SetScan.between, Except.toOption]
      | range first => simp [scanByte, Phase.byte, Phase.scan, invalidSet, Except.toOption, hd]
      | rangeToken first digits =>
        simp [scanByte, Phase.byte, Phase.scan, invalidSet, Except.toOption, hd]
      | rangeWild first => simp [scanByte, Phase.byte, Phase.scan, invalidSet, Except.toOption]
    · by_cases hstar : ch = 42
      · subst hstar
        cases φ <;> simp [scanByte, Phase.byte, Phase.scan, SetScan.between, invalidSet,
          Except.toOption, hd]
      · cases φ <;> simp [scanByte, hcomma, hcolon, hstar, hdollar, hd, Phase.byte, Except.toOption]

/-- What a reader makes of the end of an item, as the scan has it. -/
def afterItem (done : List Sequence) (r : Sequence × Bool) : SetScan :=
  Phase.start.scan 0 (done ++ [r.1]) r.2

theorem pushItem_phase (φ : Phase) (rest : Bytes) (h : φ.Read before) (done : List Sequence)
    (kept : Bool) :
    (pushItem (before ++ rest) before.length (φ.scan before.length done kept)).toOption =
      (φ.close kept).map (afterItem done) := by
  cases φ with
  | start => cases kept <;>
      simp [pushItem, Phase.scan, SetScan.between, Phase.close, afterItem, Except.toOption, tokenNumber,
        invalidSet, bind, Except.bind]
  | token digits =>
    have hnum := setNumber_suffix h.2 rest
    cases kept with
    | true =>
      simp [pushItem, Phase.scan, SetScan.between, Phase.close, afterItem, Except.toOption]
    | false =>
      simp only [pushItem, Phase.scan, SetScan.between, tokenNumber, hnum, Phase.close, numberOf]
      cases parseNumber 32 digits <;>
        simp [Except.toOption, bind, Except.bind, afterItem, Phase.scan, SetScan.between]
  | wild => simp [pushItem, Phase.scan, SetScan.between, Phase.close, afterItem, Except.toOption]
  | range first =>
    simp [pushItem, Phase.scan, SetScan.between, Phase.close, Except.toOption, tokenNumber, invalidSet,
      bind, Except.bind]
  | rangeToken first digits =>
    have hnum := setNumber_suffix h.2 rest
    simp only [pushItem, Phase.scan, SetScan.between, tokenNumber, hnum, Phase.close, numberOf]
    cases parseNumber 32 digits <;>
      simp [Except.toOption, bind, Except.bind, afterItem, Phase.scan, SetScan.between]
  | rangeWild first =>
    simp [pushItem, Phase.scan, SetScan.between, Phase.close, afterItem, Except.toOption]

theorem pushItem_dollar (φ : Phase) (rest : Bytes) (h : φ.Read before) (done : List Sequence)
    (kept : Bool) :
    (pushItem (before ++ 36 :: rest) (before.length + 1)
        { φ.scan before.length done kept with isSavedSearch := true }).toOption =
      φ.closeDollar.map (afterItem done) := by
  cases φ with
  | start => simp [pushItem, Phase.scan, SetScan.between, Phase.closeDollar, afterItem, Except.toOption]
  | token digits =>
    simp [pushItem, Phase.scan, SetScan.between, Phase.closeDollar, afterItem, Except.toOption]
  | wild => simp [pushItem, Phase.scan, SetScan.between, Phase.closeDollar, afterItem, Except.toOption]
  | range first =>
    simp [pushItem, Phase.scan, SetScan.between, Phase.closeDollar, Except.toOption, tokenNumber,
      invalidSet, bind, Except.bind]
  | rangeToken first digits =>
    obtain ⟨hall, pre, rfl⟩ := h
    have hnum := setNumber_suffix (show digits ++ [36] <:+ pre ++ digits ++ [36] from ⟨pre, by simp⟩) rest
    have hstart : (pre ++ digits ++ [36]).length - (digits ++ [36]).length =
        (pre ++ digits).length - digits.length := by
      simp only [length_append, length_singleton]
      omega
    have hpos : (pre ++ digits ++ [36]).length = (pre ++ digits).length + 1 := by
      rw [length_append, length_singleton]
    have hvalue : pre ++ digits ++ [36] ++ rest = pre ++ digits ++ 36 :: rest := by simp
    rw [hstart, hpos, hvalue] at hnum
    have hnone := numberOf_dollar hall
    unfold numberOf at hnone
    simp only [pushItem, Phase.scan, SetScan.between, tokenNumber, Phase.closeDollar, hnum]
    cases hparse : parseNumber 32 (digits ++ [36]) with
    | error e => simp [bind, Except.bind, Except.toOption]
    | ok n =>
      rw [hparse] at hnone
      cases hnone
  | rangeWild first =>
    simp [pushItem, Phase.scan, SetScan.between, Phase.closeDollar, afterItem, Except.toOption]

def answer (r : Result SetScan) : Option (List Sequence) := r.toOption.map SetScan.sequenceSet

theorem answer_closeItem {value : Bytes} {pos : Nat} {s : SetScan} {r : Option (Sequence × Bool)}
    {done : List Sequence} (hpush : (pushItem value pos s).toOption = r.map (afterItem done))
    (hrest : ∀ done kept, answer (scanFrom value (pos + 1) rest.tail (Phase.start.scan 0 done kept)) =
      (readFrom .start kept rest.tail).map (done ++ ·)) :
    answer (closeItem value pos rest s) = (endItem r rest).map (done ++ ·) := by
  cases hp : pushItem value pos s with
  | error e =>
    rw [hp] at hpush
    cases r with
    | none => simp [closeItem, hp, bind, Except.bind, answer, Except.toOption, endItem]
    | some r => cases hpush
  | ok t =>
    rw [hp] at hpush
    cases r with
    | none => cases hpush
    | some r =>
      have ht : t = afterItem done r := Option.some.inj hpush
      have hnext := hrest (done ++ [r.1]) r.2
      simp only [closeItem, hp, bind, Except.bind, ht, afterItem, hnext, endItem, bind_some,
        Option.map_map]
      congr 1
      funext items
      simp

theorem answer_error (e : Message) : answer (.error e) = none := rfl

theorem scanFrom_comma (value : Bytes) (pos : Nat) (rest : Bytes) (s : SetScan) :
    scanFrom value pos (44 :: rest) s = closeItem value pos (44 :: rest) s := by
  simp [scanFrom, scanByte, bind, Except.bind, closeItem]

theorem head?_atEnd (rest : Bytes) : (rest.head? = none ∨ rest.head? = some 44) ↔ AtEnd rest := by
  cases rest with
  | nil | cons b rest => simp [AtEnd]

theorem getElem?_after (before rest : Bytes) (ch : UInt8) :
    (before ++ ch :: rest)[before.length + 1]? = rest.head? := by
  rw [List.getElem?_append_right (by omega)]
  simp [List.head?_eq_getElem?]

theorem scanByte_dollar (before : Bytes) (h : AtEnd rest) (s : SetScan) :
    scanByte (before ++ 36 :: rest) before.length 36 s =
      .ok (false, { s with isSavedSearch := true }) := by
  simp only [scanByte, getElem?_after, if_pos ((head?_atEnd rest).mpr h)]
  rfl

theorem scanByte_dollar_error (before : Bytes) (h : ¬ AtEnd rest) (s : SetScan) :
    ∃ e, scanByte (before ++ 36 :: rest) before.length 36 s = .error e := by
  simp only [scanByte, getElem?_after, if_neg (mt (head?_atEnd rest).mp h)]
  exact ⟨_, rfl⟩

/-- The scan and the reader answer alike. The induction is on the number of bytes
left, as a `$` is read together with the comma after it. -/
theorem scanFrom_readFrom (rest before : Bytes) (φ : Phase) (h : φ.Read before)
    (hstart : rest ≠ [] ∨ φ = .start) (done : List Sequence) (kept : Bool) :
    answer (scanFrom (before ++ rest) before.length rest (φ.scan before.length done kept)) =
      (readFrom φ kept rest).map (done ++ ·) := by
  match rest with
  | [] =>
    rw [hstart.resolve_left (by simp)]
    simp [scanFrom, answer, Phase.scan, SetScan.between, readFrom, Except.toOption]
  | ch :: rest =>
    -- What follows an item is read between two items.
    have hnext : ∀ (pre tail : Bytes) (pos : Nat), before ++ ch :: rest = pre ++ tail →
        pre.length = pos → tail.length < (ch :: rest).length → ∀ done kept,
        answer (scanFrom (before ++ ch :: rest) pos tail (Phase.start.scan 0 done kept)) =
          (readFrom .start kept tail).map (done ++ ·) := by
      intro pre tail pos hvalue hpos hlt done kept
      rw [hvalue, ← hpos]
      exact scanFrom_readFrom tail pre .start trivial (Or.inr rfl) done kept
    have hlen : (before ++ ch :: rest).length = before.length + 1 + rest.length := by
      simp only [length_append, length_cons]
      omega
    -- The same after the comma that ends the item.
    have hafter : AtEnd rest → ∀ done kept,
        answer (scanFrom (before ++ ch :: rest) (before.length + 1 + 1) rest.tail
          (Phase.start.scan 0 done kept)) = (readFrom .start kept rest.tail).map (done ++ ·) := by
      rintro (rfl | ⟨more, rfl⟩)
      · intro done kept
        simp [scanFrom, answer, Phase.scan, SetScan.between, readFrom, Except.toOption]
      · refine hnext (before ++ [ch, 44]) more _ (by simp) (by simp) ?_
        simp only [length_cons]
        omega
    by_cases hcomma : ch = 44
    · rw [hcomma] at hnext ⊢
      rw [scanFrom_comma, readFrom_comma]
      exact answer_closeItem (pushItem_phase φ (44 :: rest) h done kept)
        (hnext (before ++ [44]) rest _ (by simp) (by simp) (by simp))
    · by_cases hdollar : ch = 36
      · rw [hdollar] at hlen hafter ⊢
        by_cases hend : AtEnd rest
        · rw [scanFrom_last hlen hend (scanByte_dollar before hend _), readFrom_dollar φ kept hend]
          exact answer_closeItem (pushItem_dollar φ rest h done kept) (hafter hend)
        · obtain ⟨e, he⟩ := scanByte_dollar_error before hend (φ.scan before.length done kept)
          rw [scanFrom, he, readFrom_dollar_none φ kept hend]
          rfl
      · have hbyte := @scanByte_phase φ before rest ch h hcomma hdollar done kept
        cases hψ : φ.byte ch with
        | none =>
          have hnone := readFrom_none hcomma hdollar hψ kept rest
          rw [hψ] at hbyte
          cases hs : scanByte (before ++ ch :: rest) before.length ch
              (φ.scan before.length done kept) with
          | error e =>
            rw [scanFrom, hs, hnone]
            rfl
          | ok r =>
            rw [hs] at hbyte
            cases hbyte
        | some ψ =>
          rw [hψ] at hbyte
          cases hs : scanByte (before ++ ch :: rest) before.length ch
              (φ.scan before.length done kept) with
          | error e =>
            rw [hs] at hbyte
            cases hbyte
          | ok r =>
            rw [hs] at hbyte
            have hr : r = (false, ψ.scan (before.length + 1) done kept) := Option.some.inj hbyte
            rw [hr] at hs
            have hvalue : before ++ ch :: rest = before ++ [ch] ++ rest := by simp
            have hread := h.byte hψ
            by_cases hne : rest = []
            · have hend : AtEnd rest := Or.inl hne
              rw [scanFrom_last hlen hend hs, readFrom_last hψ kept hend]
              have hpush := pushItem_phase ψ rest hread done kept
              rw [← hvalue, length_append] at hpush
              exact answer_closeItem hpush (hafter hend)
            · rw [scanFrom_inner hlen hne hs, readFrom_byte hψ kept hne, hvalue]
              have hind := scanFrom_readFrom rest (before ++ [ch]) ψ hread (Or.inl hne) done kept
              rwa [length_append, length_singleton] at hind
termination_by rest.length
decreasing_by
  · exact hlt
  · exact Nat.lt_succ_self rest.length

/-! ## What the reader takes is loose -/

namespace Phase

def Text : Phase → Bytes → Prop
  | start, text => text = []
  | token digits, text => text = digits ∧ digits ≠ [] ∧ ∀ b ∈ digits, isAsciiDigit b = true
  | wild, text => text = [42]
  | range a, text => ∃ first, EndText a first ∧ text = first ++ [58]
  | rangeToken a digits, text => ∃ first, EndText a first ∧ text = first ++ 58 :: digits ∧
      digits ≠ [] ∧ ∀ b ∈ digits, isAsciiDigit b = true
  | rangeWild a, text => ∃ first, EndText a first ∧ text = first ++ [58, 42]

theorem digits_snoc (h : ∀ b ∈ digits, isAsciiDigit b = true) (hd : isAsciiDigit ch = true) :
    ∀ b ∈ digits ++ [ch], isAsciiDigit b = true := by
  intro b hb
  rcases mem_append.mp hb with hb | hb
  · exact h b hb
  · rw [mem_singleton.mp hb]
    exact hd

theorem Text.byte (h : φ.Text text) (hb : φ.byte ch = some ψ) : ψ.Text (text ++ [ch]) := by
  cases φ with
  | start =>
    cases h
    simp only [Phase.byte] at hb
    split at hb
    · rename_i hd
      cases hb
      exact ⟨rfl, by simp, @digits_snoc [] ch (by simp) hd⟩
    · split at hb
      · rename_i hstar
        cases hb
        rw [hstar]
        rfl
      · cases hb
  | token digits =>
    obtain ⟨rfl, hne, hall⟩ := h
    simp only [Phase.byte] at hb
    split at hb
    · rename_i hd
      cases hb
      exact ⟨rfl, by simp, digits_snoc hall hd⟩
    · split at hb
      · rename_i hcolon
        obtain ⟨n, hn, rfl⟩ := map_eq_some_iff.mp hb
        exact ⟨text, (numberOf_eq_some hall hne n).mp hn, by rw [hcolon]⟩
      · cases hb
  | wild =>
    cases h
    simp only [Phase.byte] at hb
    split at hb
    · rename_i hcolon
      cases hb
      exact ⟨[42], rfl, by rw [hcolon]⟩
    · cases hb
  | range first =>
    obtain ⟨text', hfirst, rfl⟩ := h
    simp only [Phase.byte] at hb
    split at hb
    · rename_i hd
      cases hb
      exact ⟨text', hfirst, by simp, by simp, @digits_snoc [] ch (by simp) hd⟩
    · split at hb
      · rename_i hstar
        cases hb
        exact ⟨text', hfirst, by simp [hstar]⟩
      · cases hb
  | rangeToken first digits =>
    obtain ⟨text', hfirst, rfl, hne, hall⟩ := h
    simp only [Phase.byte] at hb
    split at hb
    · rename_i hd
      cases hb
      exact ⟨text', hfirst, by simp, by simp, digits_snoc hall hd⟩
    · cases hb
  | rangeWild first => cases hb

theorem Text.close {kept : Bool} {r : Sequence × Bool} (h : φ.Text text)
    (hr : φ.close kept = some r) : LooseItem kept r.1 text r.2 := by
  cases φ with
  | start =>
    cases h
    cases kept with
    | true =>
      cases hr
      exact .keptSearch (by simp)
    | false => cases hr
  | token digits =>
    obtain ⟨rfl, hne, hall⟩ := h
    cases kept with
    | true =>
      cases hr
      exact .keptSearch hall
    | false =>
      obtain ⟨n, hn, rfl⟩ := map_eq_some_iff.mp hr
      exact .number ((numberOf_eq_some hall hne n).mp hn)
  | wild =>
    cases h
    cases hr
    exact .star
  | range first => cases hr
  | rangeToken first digits =>
    obtain ⟨text', hfirst, rfl, hne, hall⟩ := h
    obtain ⟨n, hn, rfl⟩ := map_eq_some_iff.mp hr
    exact .range hfirst ((numberOf_eq_some hall hne n).mp hn)
  | rangeWild first =>
    obtain ⟨text', hfirst, rfl⟩ := h
    cases hr
    exact @LooseItem.range kept first none text' [42] hfirst rfl

theorem Text.closeDollar (kept : Bool) {r : Sequence × Bool} (h : φ.Text text)
    (hr : φ.closeDollar = some r) : LooseItem kept r.1 (text ++ [36]) r.2 := by
  cases φ with
  | start =>
    cases h
    cases hr
    exact @LooseItem.savedSearch kept [] (by simp)
  | token digits =>
    obtain ⟨rfl, -, hall⟩ := h
    cases hr
    exact .savedSearch hall
  | wild =>
    cases h
    cases hr
    exact .starDollar
  | range first | rangeToken first digits => cases hr
  | rangeWild first =>
    obtain ⟨text', hfirst, rfl⟩ := h
    cases hr
    rw [append_assoc]
    exact .rangeDollar hfirst

end Phase

theorem looseItems_of_endItem {kept : Bool} {o : Option (Sequence × Bool)} {text rest : Bytes}
    {items : List Sequence} (h : endItem o rest = some items) (hend : AtEnd rest)
    (hne : text ++ rest ≠ []) (hitem : ∀ r, o = some r → LooseItem kept r.1 text r.2)
    (hrest : ∀ kept' items', rest.tail ≠ [] → readFrom .start kept' rest.tail = some items' →
      LooseItems kept' items' rest.tail) :
    LooseItems kept items (text ++ rest) := by
  obtain ⟨r, hr, h⟩ := bind_eq_some_iff.mp h
  obtain ⟨items', hread, rfl⟩ := map_eq_some_iff.mp h
  have hi := hitem r hr
  rcases hend with rfl | ⟨more, rfl⟩
  · cases hread
    rw [List.append_nil] at hne ⊢
    exact .one hi hne
  · by_cases hmore : more = []
    · subst hmore
      cases hread
      exact .comma hi
    · exact .cons hi (hrest r.2 items' hmore hread)

theorem looseItems_of_readFrom (rest : Bytes) {φ : Phase} {text : Bytes} {kept : Bool}
    {items : List Sequence} (h : readFrom φ kept rest = some items) (ht : φ.Text text)
    (hne : rest ≠ []) : LooseItems kept items (text ++ rest) := by
  match rest, hne with
  | ch :: rest, _ =>
    have hnext : ∀ more : Bytes, more.length ≤ rest.length → ∀ kept' items', more ≠ [] →
        readFrom .start kept' more = some items' → LooseItems kept' items' more := by
      intro more hle kept' items' hmore hread
      exact looseItems_of_readFrom more hread rfl hmore
    have htail : rest.tail.length ≤ rest.length := by
      rw [length_tail]
      omega
    by_cases hcomma : ch = 44
    · rw [hcomma] at h ⊢
      rw [readFrom_comma] at h
      exact looseItems_of_endItem h (Or.inr ⟨rest, rfl⟩) (by simp) (fun r hr => ht.close hr)
        (hnext rest (Nat.le_refl _))
    · by_cases hdollar : ch = 36
      · rw [hdollar] at h ⊢
        by_cases hend : AtEnd rest
        · rw [readFrom_dollar φ kept hend] at h
          have hall := @looseItems_of_endItem kept _ (text ++ [36]) rest items h hend (by simp)
            (fun r hr => ht.closeDollar kept hr) (hnext rest.tail htail)
          rwa [append_assoc] at hall
        · rw [readFrom_dollar_none φ kept hend] at h
          cases h
      · cases hψ : φ.byte ch with
        | none =>
          rw [readFrom_none hcomma hdollar hψ] at h
          cases h
        | some ψ =>
          have htψ := ht.byte hψ
          have hvalue : text ++ ch :: rest = text ++ [ch] ++ rest := by simp
          rw [hvalue]
          by_cases hrest : rest = []
          · have hend : AtEnd rest := Or.inl hrest
            rw [readFrom_last hψ kept hend] at h
            exact looseItems_of_endItem h hend (by simp) (fun r hr => htψ.close hr)
              (hnext rest.tail htail)
          · rw [readFrom_byte hψ kept hrest] at h
            exact looseItems_of_readFrom rest h htψ hrest
termination_by rest.length

/-! ## What is loose the reader takes -/

namespace Phase

def feed : Phase → Bytes → Option Phase
  | φ, [] => some φ
  | φ, ch :: text => (φ.byte ch).bind fun ψ => ψ.feed text

theorem feed_append (φ : Phase) (first last : Bytes) :
    φ.feed (first ++ last) = (φ.feed first).bind fun ψ => ψ.feed last := by
  induction first generalizing φ with
  | nil => rfl
  | cons ch first ih =>
    rw [cons_append, feed, feed, bind_assoc]
    exact congrArg _ (funext fun ψ => ih ψ)

theorem feed_token (digits more : Bytes) (h : ∀ b ∈ more, isAsciiDigit b = true) :
    (token digits).feed more = some (token (digits ++ more)) := by
  induction more generalizing digits with
  | nil => simp [feed]
  | cons b more ih =>
    have hb := h b mem_cons_self
    have hrest := ih (digits ++ [b]) fun c hc => h c (mem_cons_of_mem _ hc)
    simp [feed, byte, hb, hrest]

theorem feed_rangeToken (first : Option Nat) (digits more : Bytes)
    (h : ∀ b ∈ more, isAsciiDigit b = true) :
    (rangeToken first digits).feed more = some (rangeToken first (digits ++ more)) := by
  induction more generalizing digits with
  | nil => simp [feed]
  | cons b more ih =>
    have hb := h b mem_cons_self
    have hrest := ih (digits ++ [b]) fun c hc => h c (mem_cons_of_mem _ hc)
    simp [feed, byte, hb, hrest]

theorem feed_digits (h : ∀ b ∈ digits, isAsciiDigit b = true) (hne : digits ≠ []) :
    start.feed digits = some (token digits) := by
  cases digits with
  | nil => exact absurd rfl hne
  | cons b digits =>
    have hrest := feed_token [b] digits fun c hc => h c (mem_cons_of_mem _ hc)
    simp [feed, byte, h b mem_cons_self, hrest]

theorem feed_first {a : Option Nat} {first : Bytes} (h : EndText a first) :
    start.feed (first ++ [58]) = some (range a) := by
  cases a with
  | none =>
    rw [show first = [42] from h]
    rfl
  | some n =>
    have hn : NumberText n first := h
    have hcolon : isAsciiDigit 58 = false := by decide
    rw [feed_append, feed_digits hn.2.1 hn.1]
    simp [feed, byte, hcolon, hn.numberOf]

theorem feed_last {b : Option Nat} {last : Bytes} (a : Option Nat) (h : EndText b last) :
    ∃ ψ : Phase, (range a).feed last = some ψ ∧
      ∀ kept, ψ.close kept = some (Sequence.range a b, kept) := by
  cases b with
  | none =>
    rw [show last = [42] from h]
    exact ⟨rangeWild a, rfl, fun kept => rfl⟩
  | some n =>
    have hn : NumberText n last := h
    have hne := hn.1
    have hall := hn.2.1
    refine ⟨rangeToken a last, ?_, fun kept => by simp [close, hn.numberOf]⟩
    cases last with
    | nil => exact absurd rfl hne
    | cons d last =>
      have hrest := feed_rangeToken a [d] last fun c hc => hall c (mem_cons_of_mem _ hc)
      simp [feed, byte, hall d mem_cons_self, hrest]

end Phase

theorem readFrom_feed (text : Bytes) (h : φ.feed text = some ψ) (kept : Bool) (hne : rest ≠ []) :
    readFrom φ kept (text ++ rest) = readFrom ψ kept rest := by
  induction text generalizing φ with
  | nil =>
    cases h
    rfl
  | cons ch text ih =>
    obtain ⟨χ, hχ, h⟩ := bind_eq_some_iff.mp h
    rw [cons_append, readFrom_byte hχ kept (by simp [hne]), ih h]

theorem readFrom_feed_last (text : Bytes) (h : φ.feed text = some ψ) (hne : text ≠ []) (kept : Bool)
    (hend : AtEnd rest) : readFrom φ kept (text ++ rest) = endItem (ψ.close kept) rest := by
  induction text generalizing φ with
  | nil => exact absurd rfl hne
  | cons ch text ih =>
    obtain ⟨χ, hχ, h⟩ := bind_eq_some_iff.mp h
    by_cases htext : text = []
    · subst htext
      cases h
      exact readFrom_last hχ kept hend
    · rw [cons_append, readFrom_byte hχ kept (by simp [htext])]
      exact ih h htext

theorem readFrom_item {kept kept' : Bool} (h : LooseItem kept item text kept') (hend : AtEnd rest)
    (hne : text ++ rest ≠ []) :
    readFrom .start kept (text ++ rest) = endItem (some (item, kept')) rest := by
  have hdollar : ∀ (φ : Phase) (before : Bytes), Phase.start.feed before = some φ →
      readFrom .start kept (before ++ [36] ++ rest) = endItem φ.closeDollar rest := by
    intro φ before hfeed
    rw [append_assoc, readFrom_feed before hfeed kept (by simp), singleton_append,
      readFrom_dollar φ kept hend]
  cases h with
  | number hn =>
    rw [readFrom_feed_last text (Phase.feed_digits hn.2.1 hn.1) hn.1 false hend]
    simp [Phase.close, hn.numberOf]
  | @range _ a b first last ha hb =>
    obtain ⟨ψ, hψ, hclose⟩ := Phase.feed_last a hb
    have hfeed : Phase.start.feed (first ++ 58 :: last) = some ψ := by
      rw [← singleton_append, ← append_assoc, Phase.feed_append, Phase.feed_first ha]
      exact hψ
    rw [readFrom_feed_last _ hfeed (by simp) kept hend, hclose]
  | @rangeDollar _ a first ha =>
    have hfeed : Phase.start.feed (first ++ [58] ++ [42]) = some (.rangeWild a) := by
      rw [Phase.feed_append, Phase.feed_first ha]
      rfl
    have h := hdollar _ _ hfeed
    simp only [append_assoc] at h ⊢
    exact h
  | star => exact readFrom_feed_last (ψ := .wild) [42] rfl (by simp) kept hend
  | starDollar => exact hdollar .wild [42] rfl
  | @savedSearch _ digits hall =>
    by_cases hdigits : digits = []
    · subst hdigits
      exact hdollar .start [] rfl
    · exact hdollar _ digits (Phase.feed_digits hall hdigits)
  | keptSearch hall =>
    by_cases hdigits : text = []
    · subst hdigits
      rcases hend with rfl | ⟨more, rfl⟩
      · exact absurd rfl hne
      · rw [nil_append, readFrom_comma]
        rfl
    · rw [readFrom_feed_last text (Phase.feed_digits hall hdigits) hdigits true hend]
      rfl

theorem readFrom_of_looseItems {kept : Bool} {items : List Sequence}
    (h : LooseItems kept items text) : readFrom .start kept text = some items ∧ text ≠ [] := by
  induction h with
  | one hi hne =>
    refine ⟨?_, hne⟩
    have hread := readFrom_item hi (Or.inl rfl) (by simpa using hne)
    rw [List.append_nil] at hread
    rw [hread]
    rfl
  | comma hi =>
    refine ⟨?_, by simp⟩
    rw [readFrom_item hi (Or.inr ⟨[], rfl⟩) (by simp)]
    rfl
  | @cons _ _ _ _ _ rest hi _ ih =>
    rw [readFrom_item hi (Or.inr ⟨rest, rfl⟩) (by simp)]
    simp [endItem, ih.1]

/-! ## What is accepted -/

theorem parseSequenceSet_readFrom (value : Bytes) (set : Sequence) : parseSequenceSet value = .ok set ↔
      ∃ items, readFrom .start false value = some items ∧ items ≠ [] ∧ set = setOf items := by
  have hscan := scanFrom_readFrom value [] .start trivial (Or.inr rfl) [] false
  simp only [nil_append, length_nil, Option.map_id'] at hscan
  unfold parseSequenceSet
  split
  · rename_i hstar
    rw [hstar]
    constructor
    · intro h
      cases h
      exact ⟨_, rfl, by simp, rfl⟩
    · rintro ⟨items, hitems, -, rfl⟩
      cases hitems
      rfl
  · have hbetween : SetScan.between [] = Phase.start.scan 0 [] false := rfl
    rw [hbetween]
    rw [← hscan]
    cases scanFrom value 0 value (Phase.start.scan 0 [] false) with
    | error e => simp [answer_error]
    | ok s =>
      have hs : answer (.ok s) = some s.sequenceSet := rfl
      rw [hs]
      dsimp only
      split
      · rename_i hnil
        simp [hnil, fail]
      · rename_i item hone
        simp [hone, setOf, eq_comm]
      · rename_i items hnil hone
        have hset : setOf s.sequenceSet = .list s.sequenceSet := by
          match hm : s.sequenceSet with
          | [] => rfl
          | [item] => exact absurd hm (hone item)
          | _ :: _ :: _ => rfl
        constructor
        · intro h
          cases h
          exact ⟨_, rfl, hnil, hset.symm⟩
        · rintro ⟨items, hitems, -, rfl⟩
          rw [← Option.some.inj hitems, hset]

theorem parseSequenceSet_iff (value : Bytes) (set : Sequence) : parseSequenceSet value = .ok set ↔
      ∃ items, LooseItems false items value ∧ set = setOf items := by
  rw [parseSequenceSet_readFrom]
  refine exists_congr fun items => ?_
  constructor
  · rintro ⟨hread, hne, hset⟩
    have hvalue : value ≠ [] := by
      rintro rfl
      exact hne (Option.some.inj hread).symm
    exact ⟨looseItems_of_readFrom value hread rfl hvalue, hset⟩
  · rintro ⟨hloose, hset⟩
    have hne : items ≠ [] := by cases hloose <;> simp
    exact ⟨(readFrom_of_looseItems hloose).1, hne, hset⟩

/-- A text is read as the grammar says exactly if it is not loose. -/
theorem parseSequenceSet_exact_iff (value : Bytes) :
    (∀ set, parseSequenceSet value = .ok set ↔ SetText set value) ↔ ¬ Loose value := by
  constructor
  · rintro h ⟨⟨items, hitems⟩, hnone⟩
    obtain ⟨items', hstrict, -⟩ :=
      (h (setOf items)).mp ((parseSequenceSet_iff value _).mpr ⟨items, hitems, rfl⟩)
    exact hnone ⟨items', hstrict⟩
  · intro hstrict set
    constructor
    · intro hset
      obtain ⟨items, hitems, -⟩ := (parseSequenceSet_iff value set).mp hset
      have hex : ∃ items, ItemsText items value := by
        by_contra hno
        exact hstrict ⟨⟨items, hitems⟩, hno⟩
      obtain ⟨items', hitems'⟩ := hex
      have hread := (parseSequenceSet_iff value _).mpr ⟨items', hitems'.loose, rfl⟩
      rw [hset] at hread
      exact ⟨items', hitems', Except.ok.inj hread⟩
    · rintro ⟨items, hitems, rfl⟩
      exact (parseSequenceSet_iff value _).mpr ⟨items, hitems.loose, rfl⟩

theorem ItemText.eq_dollar (h : ItemText item text) (hmem : 36 ∈ text) : text = [36] := by
  have hend : ∀ {o : Option Nat} {t : Bytes}, EndText o t → (36 : UInt8) ∉ t := by
    intro o t ht hin
    cases o with
    | none =>
      rw [show t = [42] from ht] at hin
      cases mem_singleton.mp hin
    | some n => cases (show NumberText n t from ht).2.1 36 hin
  cases h with
  | number hn => cases hn.2.1 36 hmem
  | range ha hb =>
    rcases mem_append.mp hmem with hin | hin
    · exact absurd hin (hend ha)
    · rcases mem_cons.mp hin with hin | hin
      · cases hin
      · exact absurd hin (hend hb)
  | star => cases mem_singleton.mp hmem
  | savedSearch => rfl

/-- `5$` is read as `$`: the number is lost. -/
theorem not_parseSequenceSet_exact :
    ¬ ∀ set, parseSequenceSet [53, 36] = .ok set ↔ SetText set [53, 36] := by
  intro h
  obtain ⟨items, hitems, -⟩ := (h .savedSearch).mp rfl
  have hcomma : (44 : UInt8) ∉ [53, 36] := by decide
  generalize hv : ([53, 36] : Bytes) = value at hitems hcomma
  cases hitems with
  | one hi =>
    have htext := hi.eq_dollar (by rw [← hv]; decide)
    rw [← hv] at htext
    cases htext
  | cons _ _ => exact hcomma (by simp)

end Bearmail.Imap
