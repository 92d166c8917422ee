import Bearmail.Imap.Token
import Bearmail.Imap.Sequence

/-!
# Reading a sequence set

`parse_sequence_set` of `imap-proto/src/parser/mod.rs`: one scan over the bytes
with the positions of the number being read.
-/

namespace Bearmail.Imap

open List

structure SetScan where
  sequenceSet : List Sequence
  rangeStart : Option Nat
  tokenStart : Option Nat
  isWildcard : Bool
  isRange : Bool
  isSavedSearch : Bool

def slice (value : Bytes) (start pos : Nat) : Option Bytes :=
  if start ≤ pos ∧ pos ≤ value.length then some ((value.drop start).take (pos - start)) else none

def invalidSet {α : Type} (value : Bytes) (what : String) : Result α :=
  .error [.text "Invalid sequence set ", .quoted value, .text what]

def setNumber (value : Bytes) (start pos : Nat) : Result Nat :=
  match slice value start pos with
  | some digits => parseNumber 32 digits
  | none => invalidSet value ", parse error."

def tokenNumber (value : Bytes) (tokenStart : Option Nat) (pos : Nat) : Result Nat :=
  match tokenStart with
  | some start => setNumber value start pos
  | none => invalidSet value ", expected number."

/-- One byte; the answer tells whether it ends an item. -/
def scanByte (value : Bytes) (pos : Nat) (ch : UInt8) (s : SetScan) : Result (Bool × SetScan) :=
  if ch = 44 then .ok (true, s)
  else if ch = 58 then
    if s.isRange then invalidSet value ", ':' appears multiple times."
    else
      match s.tokenStart with
      | some start => do
        let from_ ← setNumber value start pos
        .ok (false, { s with rangeStart := some from_, tokenStart := none, isRange := true })
      | none =>
        if s.isWildcard then .ok (false, { s with isWildcard := false, isRange := true })
        else invalidSet value ", number expected before ':'."
  else if ch = 42 then
    if s.isWildcard then invalidSet value ", '*' appears multiple times."
    else if s.tokenStart = none then .ok (false, { s with isWildcard := true })
    else invalidSet value ", invalid use of '*'."
  else if ch = 36 then
    if value[pos + 1]? = none ∨ value[pos + 1]? = some 44 then
      .ok (false, { s with isSavedSearch := true })
    else invalidSet value ", unexpected token after '$'."
  else if isAsciiDigit ch then
    if s.isWildcard then invalidSet value ", invalid use of '*'."
    else .ok (false, { s with tokenStart := some (s.tokenStart.getD pos) })
  else
    .error [.text "Invalid sequence set ", .quoted value, .text ", found invalid character '",
      .number ch.toNat, .text "' at position ", .number pos, .text "."]

def pushItem (value : Bytes) (pos : Nat) (s : SetScan) : Result SetScan :=
  if s.isRange then
    if s.isWildcard then
      .ok { s with
        sequenceSet := s.sequenceSet ++ [.range s.rangeStart none], rangeStart := none,
        tokenStart := none, isWildcard := false, isRange := false }
    else do
      let last ← tokenNumber value s.tokenStart pos
      .ok { s with
        sequenceSet := s.sequenceSet ++ [.range s.rangeStart (some last)], rangeStart := none,
        tokenStart := none, isRange := false }
  else if s.isWildcard then
    .ok { s with
      sequenceSet := s.sequenceSet ++ [.range none none], tokenStart := none, isWildcard := false }
  else if s.isSavedSearch then
    .ok { s with
      sequenceSet := s.sequenceSet ++ [.savedSearch], tokenStart := none, isSavedSearch := false }
  else do
    let number ← tokenNumber value s.tokenStart pos
    .ok { s with sequenceSet := s.sequenceSet ++ [.number number], tokenStart := none }

def scanFrom (value : Bytes) : Nat → Bytes → SetScan → Result SetScan
  | _, [], s => .ok s
  | pos, ch :: rest, s => do
    let (addToken, s) ← scanByte value pos ch s
    if addToken then
      let s ← pushItem value pos s
      scanFrom value (pos + 1) rest s
    else if pos = value.length - 1 then
      let s ← pushItem value (pos + 1) s
      scanFrom value (pos + 1) rest s
    else scanFrom value (pos + 1) rest s

def SetScan.between (sequenceSet : List Sequence) : SetScan where
  sequenceSet := sequenceSet
  rangeStart := none
  tokenStart := none
  isWildcard := false
  isRange := false
  isSavedSearch := false

/-- A lone `*` is answered when its byte is met. -/
def parseSequenceSet (value : Bytes) : Result Sequence :=
  if value = [42] then .ok (.range none none)
  else
    match scanFrom value 0 value (.between []) with
    | .error e => .error e
    | .ok s =>
      match s.sequenceSet with
      | [] => fail "Invalid empty sequence set."
      | [item] => .ok item
      | items => .ok (.list items)

/-! ## The text of a set -/

namespace Sequence

def itemText : Sequence → Bytes
  | .number n => decimal n
  | .range (some a) (some b) => decimal a ++ 58 :: decimal b
  | .range (some a) none => decimal a ++ [58, 42]
  | .range none (some b) => 42 :: 58 :: decimal b
  | .range none none => [42]
  | .savedSearch => [36]
  | .list _ => []

def ItemFits : Sequence → Prop
  | .number n => n < 2 ^ 32
  | .range a b => (∀ n ∈ a, n < 2 ^ 32) ∧ ∀ n ∈ b, n < 2 ^ 32
  | .savedSearch => True
  | .list _ => False

def itemsText : List Sequence → Bytes
  | [] => []
  | [item] => item.itemText
  | item :: items => item.itemText ++ 44 :: itemsText items

def text : Sequence → Bytes
  | .list items => itemsText items
  | item => item.itemText

/-- One item, or a list of at least two, all numbers of 32 bits. -/
def Fits : Sequence → Prop
  | .list items => 2 ≤ items.length ∧ ∀ item ∈ items, item.ItemFits
  | item => item.ItemFits

end Sequence

/-! ## Scanning it -/

/-- What is left after an item: nothing, or a comma and more. -/
def AtEnd (rest : Bytes) : Prop := rest = [] ∨ ∃ more, rest = 44 :: more

def closeItem (value : Bytes) (pos : Nat) (rest : Bytes) (s : SetScan) : Result SetScan := do
  let s ← pushItem value pos s
  scanFrom value (pos + 1) rest.tail s

variable (pre : Bytes) (done : List Sequence) (start : Option Nat)

theorem slice_append (digits rest : Bytes) :
    slice (pre ++ (digits ++ rest)) pre.length (pre.length + digits.length) = some digits := by
  have hlen : pre.length + digits.length ≤ (pre ++ (digits ++ rest)).length := by
    simp only [length_append]
    omega
  rw [slice]
  simp

theorem setNumber_append (rest : Bytes) {n : Nat} (h : n < 2 ^ 32) :
    setNumber (pre ++ (decimal n ++ rest)) pre.length (pre.length + (decimal n).length) = .ok n := by
  rw [setNumber, slice_append]
  exact parseNumber_decimal h

theorem scanByte_digit (value : Bytes) (pos : Nat) {ch : UInt8} (s : SetScan)
    (hd : isAsciiDigit ch = true) (hw : s.isWildcard = false) :
    scanByte value pos ch s = .ok (false, { s with tokenStart := some (s.tokenStart.getD pos) }) := by
  have h1 : ch ≠ 44 := by rintro rfl; cases hd
  have h2 : ch ≠ 58 := by rintro rfl; cases hd
  have h3 : ch ≠ 42 := by rintro rfl; cases hd
  have h4 : ch ≠ 36 := by rintro rfl; cases hd
  simp only [scanByte, if_neg h1, if_neg h2, if_neg h3, if_neg h4, hd, hw]
  rfl

variable {value rest : Bytes} {pos : Nat} {s : SetScan} {item : Sequence}

attribute [local simp] scanFrom Sequence.itemsText

theorem scanFrom_inner {ch : UInt8} {s' : SetScan} (hlen : value.length = pos + 1 + rest.length)
    (hne : rest ≠ []) (h : scanByte value pos ch s = .ok (false, s')) :
    scanFrom value pos (ch :: rest) s = scanFrom value (pos + 1) rest s' := by
  have hpos : 0 < rest.length := length_pos_iff.mpr hne
  have hlast : pos ≠ value.length - 1 := by omega
  rw [scanFrom, h]
  simp [bind, Except.bind, hlast]

theorem scanFrom_last {ch : UInt8} {s' : SetScan} (hlen : value.length = pos + 1 + rest.length)
    (hend : AtEnd rest) (h : scanByte value pos ch s = .ok (false, s')) :
    scanFrom value pos (ch :: rest) s = closeItem value (pos + 1) rest s' := by
  rcases hend with rfl | ⟨more, rfl⟩
  · have hlast : pos = value.length - 1 := by
      simp only [length_nil] at hlen
      omega
    rw [scanFrom, h]
    simp only [bind, Except.bind, Bool.false_eq_true, if_false, if_pos hlast, closeItem, tail_nil]
    cases pushItem value (pos + 1) s' with
    | error e => rfl
    | ok s'' => simp [scanFrom]
  · rw [scanFrom_inner hlen (by simp) h, scanFrom]
    simp [scanByte, bind, Except.bind, closeItem]

theorem scanFrom_digits (ds : Bytes) (hd : ∀ b ∈ ds, isAsciiDigit b = true)
    (hw : s.isWildcard = false) (hlen : value.length = pos + ds.length + rest.length)
    (hne : rest ≠ []) :
    scanFrom value pos (ds ++ rest) s = scanFrom value (pos + ds.length) rest
      { s with tokenStart := if ds = [] then s.tokenStart else some (s.tokenStart.getD pos) } := by
  induction ds generalizing pos s with
  | nil => rfl
  | cons b ds ih =>
    have hb := scanByte_digit value pos s (hd b mem_cons_self) hw
    have hlen' : value.length = pos + 1 + (ds ++ rest).length := by
      simp only [length_cons, length_append] at hlen ⊢
      omega
    have hne' : ds ++ rest ≠ [] := by simp [hne]
    have hrest : value.length = (pos + 1) + ds.length + rest.length := by
      simp only [length_append] at hlen'
      omega
    have hpos : pos + 1 + ds.length = pos + (b :: ds).length := by
      omega
    have hds := ih (s := { s with tokenStart := some (s.tokenStart.getD pos) })
      (fun c hc => hd c (mem_cons_of_mem _ hc)) hw hrest
    rw [cons_append, scanFrom_inner hlen' hne' hb, hds, hpos]
    cases ds <;> simp

theorem scanFrom_number_last (n : Nat) (hw : s.isWildcard = false) (ht : s.tokenStart = none)
    (hlen : value.length = pos + (decimal n).length + rest.length) (hend : AtEnd rest) :
    scanFrom value pos (decimal n ++ rest) s =
      closeItem value (pos + (decimal n).length) rest { s with tokenStart := some pos } := by
  obtain ⟨ds, d, hds⟩ : ∃ ds d, decimal n = ds ++ [d] :=
    ⟨_, _, (dropLast_append_getLast (decimal_ne_nil n)).symm⟩
  have hdig : ∀ b ∈ ds ++ [d], isAsciiDigit b = true := by
    rw [← hds]
    exact fun b hb => isAsciiDigit_of_mem_decimal hb
  rw [hds] at hlen ⊢
  simp only [length_append, length_singleton] at hlen ⊢
  have hstep := scanFrom_digits ds (fun b hb => hdig b (mem_append_left _ hb)) hw
    (show value.length = pos + ds.length + ([d] ++ rest).length by
      simp only [length_append, length_singleton]
      omega) (by simp)
  have hlast := scanByte_digit value (pos + ds.length)
    { s with tokenStart := if ds = [] then s.tokenStart else some (s.tokenStart.getD pos) }
    (hdig d (by simp)) hw
  rw [append_assoc, hstep, singleton_append, scanFrom_last (by omega) hend hlast, Nat.add_assoc]
  cases ds <;> simp [ht]

theorem scanFrom_number_colon {n : Nat} (hw : s.isWildcard = false) (ht : s.tokenStart = none)
    (hr : s.isRange = false) (hlen : value.length = pos + (decimal n).length + 1 + rest.length)
    (hne : rest ≠ []) (hnum : setNumber value pos (pos + (decimal n).length) = .ok n) :
    scanFrom value pos (decimal n ++ 58 :: rest) s = scanFrom value (pos + (decimal n).length + 1) rest
        { s with rangeStart := some n, isRange := true } := by
  have hstep := scanFrom_digits (decimal n) (fun b hb => isAsciiDigit_of_mem_decimal hb) hw
    (show value.length = pos + (decimal n).length + (58 :: rest).length by
      simp only [length_cons]
      omega) (by simp)
  rw [hstep, if_neg (decimal_ne_nil n), ht]
  refine scanFrom_inner hlen hne ?_
  simp only [scanByte, hr, Option.getD_none, hnum, bind, Except.bind]
  rfl

theorem scanFrom_range_end (last : Option Nat) (hend : AtEnd rest)
    (hlen : value.length = pos + (last.elim [42] decimal).length + rest.length)
    (hnum : ∀ n ∈ last, setNumber value pos (pos + (decimal n).length) = .ok n) :
    scanFrom value pos (last.elim [42] decimal ++ rest)
        { SetScan.between done with rangeStart := start, isRange := true } =
      scanFrom value (pos + (last.elim [42] decimal).length + 1) rest.tail
        (.between (done ++ [.range start last])) := by
  cases last with
  | none =>
    have hbyte : scanByte value pos 42
        { SetScan.between done with rangeStart := start, isRange := true } =
        .ok (false, { SetScan.between done with
          rangeStart := start, isRange := true, isWildcard := true }) := by
      simp [scanByte, SetScan.between]
    exact (scanFrom_last hlen hend hbyte).trans (by
      simp [closeItem, pushItem, SetScan.between, bind, Except.bind])
  | some n =>
    have hn := hnum n rfl
    refine (scanFrom_number_last n rfl rfl hlen hend).trans ?_
    simp [closeItem, pushItem, SetScan.between, tokenNumber, hn, bind, Except.bind]

theorem scanFrom_range_start (hne : rest ≠ [])
    (hlen : value.length = pos + (start.elim [42] decimal).length + 1 + rest.length)
    (hnum : ∀ n ∈ start, setNumber value pos (pos + (decimal n).length) = .ok n) :
    scanFrom value pos (start.elim [42] decimal ++ 58 :: rest) (.between done) =
      scanFrom value (pos + (start.elim [42] decimal).length + 1) rest
        { SetScan.between done with rangeStart := start, isRange := true } := by
  cases start with
  | none =>
    have hstar : scanByte value pos 42 (.between done) =
        .ok (false, { SetScan.between done with isWildcard := true }) := by
      simp [scanByte, SetScan.between]
    have hcolon : scanByte value (pos + 1) 58 { SetScan.between done with isWildcard := true } =
        .ok (false, { SetScan.between done with isRange := true }) := by
      simp [scanByte, SetScan.between]
    have hlen' : value.length = pos + 1 + (58 :: rest).length := by
      simp only [Option.elim_none, length_cons, length_nil] at hlen ⊢
      omega
    exact (scanFrom_inner hlen' (by simp) hstar).trans (scanFrom_inner hlen hne hcolon)
  | some n => exact scanFrom_number_colon rfl rfl rfl hlen hne (hnum n rfl)

theorem range_itemText (last : Option Nat) (h : start ≠ none ∨ last ≠ none) :
    (Sequence.range start last).itemText = start.elim [42] decimal ++ 58 :: last.elim [42] decimal := by
  cases start with
  | none =>
    cases last with
    | none => simp at h
    | some b => rfl
  | some a => cases last <;> rfl

theorem scanFrom_item (item : Sequence) (done : List Sequence) (hfit : item.ItemFits)
    (hend : AtEnd rest) :
    scanFrom (pre ++ (item.itemText ++ rest)) pre.length (item.itemText ++ rest) (.between done) =
      scanFrom (pre ++ (item.itemText ++ rest)) (pre.length + item.itemText.length + 1) rest.tail
        (.between (done ++ [item])) := by
  have hlen : (pre ++ (item.itemText ++ rest)).length =
      pre.length + item.itemText.length + rest.length := by
    simp only [length_append]
    omega
  generalize hv : pre ++ (item.itemText ++ rest) = value at hlen
  cases item with
  | number n =>
    have hn : setNumber value pre.length (pre.length + (decimal n).length) = .ok n := by
      rw [← hv]
      exact setNumber_append pre rest hfit
    rw [Sequence.itemText, scanFrom_number_last n rfl rfl hlen hend]
    simp [closeItem, pushItem, SetScan.between, tokenNumber, hn, bind, Except.bind]
  | savedSearch =>
    have hnext : value[pre.length + 1]? = none ∨ value[pre.length + 1]? = some 44 := by
      rw [← hv]
      rcases hend with rfl | ⟨more, rfl⟩
      · left
        simp [Sequence.itemText]
      · right
        simp [Sequence.itemText]
    have hbyte : scanByte value pre.length 36 (.between done) =
        .ok (false, { SetScan.between done with isSavedSearch := true }) := by
      simp only [scanByte, if_pos hnext]
      rfl
    exact (scanFrom_last hlen hend hbyte).trans (by
      simp [closeItem, pushItem, SetScan.between, Sequence.itemText, bind, Except.bind])
  | list items => exact hfit.elim
  | range start last =>
    by_cases hstar : start = none ∧ last = none
    · -- A lone `*` among other items.
      obtain ⟨rfl, rfl⟩ := hstar
      have hbyte : scanByte value pre.length 42 (.between done) =
          .ok (false, { SetScan.between done with isWildcard := true }) := by
        simp [scanByte, SetScan.between]
      exact (scanFrom_last hlen hend hbyte).trans (by
        simp [closeItem, pushItem, SetScan.between, Sequence.itemText, bind, Except.bind])
    · have htext := range_itemText start last (by
        by_contra hno
        simp only [not_or, not_not] at hno
        exact hstar hno)
      rw [htext] at hv hlen ⊢
      simp only [append_assoc, cons_append, length_append, length_cons] at hv hlen ⊢
      have hstart : ∀ n ∈ start, setNumber value pre.length (pre.length + (decimal n).length) = .ok n := by
        rintro n rfl
        rw [← hv]
        exact setNumber_append pre _ (hfit.1 n rfl)
      have hlast : ∀ n ∈ last, setNumber value (pre.length + (start.elim [42] decimal).length + 1)
          (pre.length + (start.elim [42] decimal).length + 1 + (decimal n).length) = .ok n := by
        rintro n rfl
        have h := setNumber_append (pre ++ (start.elim [42] decimal ++ [58])) rest (hfit.2 n rfl)
        simpa [← hv, Nat.add_assoc] using h
      rw [scanFrom_range_start done start (by cases last <;> simp [decimal_ne_nil])
        (by simp only [length_append]; omega) hstart,
        scanFrom_range_end done start last hend (by omega) hlast]
      congr 1
      omega

theorem scanFrom_items (items : List Sequence) (done : List Sequence)
    (hfit : ∀ item ∈ items, item.ItemFits) (hne : items ≠ []) :
    scanFrom (pre ++ Sequence.itemsText items) pre.length (Sequence.itemsText items) (.between done) =
      .ok (.between (done ++ items)) := by
  induction items generalizing pre done with
  | nil => exact absurd rfl hne
  | cons item items ih =>
    have hitem := hfit item mem_cons_self
    cases items with
    | nil =>
      have h := scanFrom_item pre item done hitem (Or.inl rfl)
      simpa [Sequence.itemsText, scanFrom] using h
    | cons next items =>
      have h := scanFrom_item pre item done hitem
        (Or.inr ⟨Sequence.itemsText (next :: items), rfl⟩)
      have hrest := ih (pre ++ (item.itemText ++ [44])) (done ++ [item])
        (fun x hx => hfit x (mem_cons_of_mem _ hx)) (by simp)
      simp only [append_assoc, length_append, length_singleton, cons_append,
        nil_append, ← Nat.add_assoc] at hrest
      rw [Sequence.itemsText.eq_3 _ _ (by simp), h, tail_cons, hrest]

theorem itemText_ne_nil (h : item.ItemFits) : item.itemText ≠ [] := by
  cases item with
  | number n => exact decimal_ne_nil n
  | range a b => cases a <;> cases b <;> simp [Sequence.itemText]
  | savedSearch => simp [Sequence.itemText]
  | list items => exact h.elim

theorem eq_star_of_itemText (h : item.ItemFits) (hstar : item.itemText = [42]) :
    item = .range none none := by
  cases item with
  | number n =>
    have hmem : (42 : UInt8) ∈ decimal n := by
      rw [show decimal n = [42] from hstar]
      exact mem_singleton_self _
    exact absurd (isAsciiDigit_of_mem_decimal hmem) (by decide)
  | range a b =>
    cases a with
    | none =>
      cases b with
      | none => rfl
      | some b => simp [Sequence.itemText] at hstar
    | some a =>
      have hlen := congrArg List.length hstar
      have hpos : 0 < (decimal a).length := length_pos_iff.mpr (decimal_ne_nil a)
      cases b with
      | none => simp [Sequence.itemText] at hlen
      | some b =>
        simp [Sequence.itemText] at hlen
        omega
  | savedSearch => simp [Sequence.itemText] at hstar
  | list items => exact h.elim

theorem itemsText_ne_star (next : Sequence) (items : List Sequence) (h : item.ItemFits) :
    Sequence.itemsText (item :: next :: items) ≠ [42] := by
  intro heq
  have hlen := congrArg List.length heq
  have hpos : 0 < item.itemText.length := length_pos_iff.mpr (itemText_ne_nil h)
  simp only [Sequence.itemsText, length_append, length_cons, length_nil] at hlen
  omega

theorem parseSequenceSet_itemText (item : Sequence) (h : item.ItemFits) :
    parseSequenceSet item.itemText = .ok item := by
  unfold parseSequenceSet
  split
  · rename_i hstar
    rw [eq_star_of_itemText h hstar]
  · have hscan := scanFrom_items [] [item] [] (by simpa using h) (by simp)
    simp only [nil_append, length_nil, Sequence.itemsText] at hscan
    rw [hscan]
    rfl

theorem parseSequenceSet_text {set : Sequence} (h : set.Fits) :
    parseSequenceSet set.text = .ok set := by
  cases set with
  | number n => exact parseSequenceSet_itemText (.number n) h
  | range a b => exact parseSequenceSet_itemText (.range a b) h
  | savedSearch => exact parseSequenceSet_itemText .savedSearch h
  | list items =>
    obtain ⟨hlen, hall⟩ := h
    match items, hlen, hall with
    | item :: next :: items, _, hall =>
      have hscan := scanFrom_items [] (item :: next :: items) [] hall (by simp)
      have hne := itemsText_ne_star next items (hall item mem_cons_self)
      simp only [nil_append, length_nil] at hscan
      rw [parseSequenceSet, Sequence.text, if_neg hne, hscan]
      rfl

end Bearmail.Imap
