import Bearmail.Search.Query

/-!
# Values and document ids in one key

A key of the index ends with a value and the document id behind it, and nothing tells where the
value stops. Where one value begins with another, the ids take part in the order of the values.
-/

namespace Bearmail.Search

open List

/-! ## Bytes -/

section Bytes

variable {a b x y : Bytes}

theorem apart (a b : Bytes) : (∃ rest, b = a ++ rest) ∨ (∃ rest, a = b ++ rest) ∨
    (∀ x y, a ++ x < b ++ y) ∨ ∀ x y, b ++ y < a ++ x := by
  induction a generalizing b with
  | nil => exact .inl ⟨b, rfl⟩
  | cons c a ih =>
    cases b with
    | nil => exact .inr (.inl ⟨c :: a, rfl⟩)
    | cons e b =>
      rcases Nat.lt_trichotomy c.toNat e.toNat with hlt | heq | hlt
      · exact .inr (.inr (.inl fun x y =>
          cons_lt_cons_iff.mpr (.inl (UInt8.lt_iff_toNat_lt.mpr hlt))))
      · obtain rfl := UInt8.toNat_inj.mp heq
        rcases ih b with ⟨rest, rfl⟩ | ⟨rest, rfl⟩ | hbelow | hbelow
        · exact .inl ⟨rest, rfl⟩
        · exact .inr (.inl ⟨rest, rfl⟩)
        · exact .inr (.inr (.inl fun x y => cons_lt_cons_iff.mpr (.inr ⟨rfl, hbelow x y⟩)))
        · exact .inr (.inr (.inr fun x y => cons_lt_cons_iff.mpr (.inr ⟨rfl, hbelow x y⟩)))
      · exact .inr (.inr (.inr fun x y =>
          cons_lt_cons_iff.mpr (.inl (UInt8.lt_iff_toNat_lt.mpr hlt))))

theorem append_left_le_iff : a ++ x ≤ a ++ y ↔ ¬ y < x :=
  ⟨fun h hlt => List.not_lt.mpr h (append_left_lt hlt), fun h => append_left_le (List.not_lt.mp h)⟩

theorem not_append_lt (a rest : Bytes) : ¬ a ++ rest < a := by
  have hle : a ++ [] ≤ a ++ rest := append_left_le (nil_le rest)
  rw [List.append_nil] at hle
  exact List.not_lt.mpr hle

theorem append_le_append_iff (h : a ≤ b) :
    a ++ x ≤ b ++ y ↔ ¬ ∃ rest, b = a ++ rest ∧ rest ++ y < x := by
  rcases apart a b with ⟨rest, rfl⟩ | ⟨rest, rfl⟩ | hbelow | hbelow
  · rw [append_assoc, append_left_le_iff]
    refine not_congr ⟨fun hlt => ⟨rest, rfl, hlt⟩, ?_⟩
    rintro ⟨rest', heq, hlt⟩
    rwa [append_cancel_left heq]
  · obtain heq : b ++ rest = b := by
      rcases List.le_iff_lt_or_eq.mp h with hlt | heq
      · exact absurd hlt (not_append_lt b rest)
      · exact heq
    obtain rfl := append_right_eq_self.mp heq
    rw [List.append_nil, append_left_le_iff]
    refine not_congr ⟨fun hlt => ⟨[], (List.append_nil b).symm, hlt⟩, ?_⟩
    rintro ⟨rest', heq, hlt⟩
    rwa [append_right_eq_self.mp heq.symm] at hlt
  · refine iff_of_true (List.le_of_lt (hbelow x y)) ?_
    rintro ⟨rest, rfl, -⟩
    have hlt := hbelow rest []
    rw [List.append_nil] at hlt
    exact List.lt_irrefl _ hlt
  · have hlt := hbelow [] []
    rw [List.append_nil, List.append_nil] at hlt
    exact absurd hlt (List.not_lt.mpr h)

end Bytes

/-! ## The range scan -/

/-- The scan passes over a key that compares as asked: one value begins with the other, and the id
takes the key out of the bounds. -/
def SearchOperator.passesOver (idLen : Nat) (matchValue : Bytes) : SearchOperator → FieldKey → Prop
  | .lowerThan, k =>
    ∃ rest, matchValue = k.data ++ rest ∧ rest ++ List.replicate idLen 0 < beBytes idLen k.id
  | .lowerEqualThan, k =>
    ∃ rest, matchValue = k.data ++ rest ∧ rest ++ List.replicate idLen 255 < beBytes idLen k.id
  | .greaterThan, k =>
    ∃ rest, k.data = matchValue ++ rest ∧ rest ++ beBytes idLen k.id < List.replicate idLen 255
  | _, _ => False

theorem visits_iff_not_passesOver {op : SearchOperator} {idLen : Nat} {matchValue : Bytes}
    {k : FieldKey} (hcmp : op.compares k.data matchValue = true) :
    op.visits idLen matchValue (k.suffix idLen) = true ↔ ¬ op.passesOver idLen matchValue k := by
  have hid : (beBytes idLen k.id).length = idLen := length_beBytes idLen k.id
  have hlow : List.replicate idLen 0 ≤ beBytes idLen k.id := replicate_zero_le _ _ hid.ge
  have hstart : List.replicate idLen 0 ≤ k.data ++ beBytes idLen k.id :=
    replicate_zero_le _ _ (by simp [hid])
  rw [visits_iff, FieldKey.suffix]
  cases op with
  | lowerThan =>
    have h : k.data < matchValue := by simpa [SearchOperator.compares] using hcmp
    simpa [SearchOperator.scanBounds, SearchOperator.passesOver, hstart] using
      append_le_append_iff (List.le_of_lt h)
  | lowerEqualThan =>
    have h : k.data ≤ matchValue := by simpa [SearchOperator.compares] using hcmp
    simpa [SearchOperator.scanBounds, SearchOperator.passesOver, hstart] using append_le_append_iff h
  | greaterThan =>
    have h : matchValue < k.data := by simpa [SearchOperator.compares] using hcmp
    simpa [SearchOperator.scanBounds, SearchOperator.passesOver] using
      append_le_append_iff (List.le_of_lt h)
  | greaterEqualThan =>
    have h : matchValue ≤ k.data := by simpa [SearchOperator.compares] using hcmp
    refine iff_of_true ⟨(append_le_append_iff h).mpr ?_, by simp [SearchOperator.scanBounds]⟩ id
    rintro ⟨rest, -, hlt⟩
    exact List.not_lt.mpr (replicate_zero_le _ _ (by simp [hid])) hlt
  | equal | contains =>
    obtain rfl : k.data = matchValue := by simpa [SearchOperator.compares] using hcmp
    refine iff_of_true ⟨append_left_le hlow, ?_⟩ id
    rintro last ⟨⟩
    exact append_left_le (le_replicate_max _ _ hid.le)

section Range

variable {H : Type}

theorem mem_rangeToBitmap {keys : IndexKeys H} {idLen field : Nat} {matchValue : Bytes}
    {op : SearchOperator} {d : Nat} :
    d ∈ ((keys.fields.filter fun k => k.field = field ∧
      op.visits idLen matchValue (k.suffix idLen) ∧ op.compares k.data matchValue).map
        FieldKey.id).toFinset ↔
      ∃ k ∈ keys.fields, k.field = field ∧ k.id = d ∧ op.compares k.data matchValue = true ∧
        ¬ op.passesOver idLen matchValue k := by
  simp only [mem_toFinset, mem_map, mem_filter, decide_eq_true_eq]
  constructor
  · rintro ⟨k, ⟨hk, hfield, hvisits, hcmp⟩, hid⟩
    exact ⟨k, hk, hfield, hid, hcmp, (visits_iff_not_passesOver hcmp).mp hvisits⟩
  · rintro ⟨k, hk, hfield, hid, hcmp, hover⟩
    exact ⟨k, ⟨hk, hfield, (visits_iff_not_passesOver hcmp).mpr hover, hcmp⟩, hid⟩

theorem someNonempty_inj {bm bm' : Bitmap} : someNonempty bm = someNonempty bm' ↔ bm = bm' := by
  unfold someNonempty
  split <;> split <;> simp_all [eq_comm]

/-- The range scan finds the documents of which a value compares as asked exactly when each of them
has such a value that the scan does not pass over. -/
theorem rangeToBitmap_exact_iff (keys : IndexKeys H) (idLen field : Nat) (matchValue : Bytes)
    (op : SearchOperator) :
    rangeToBitmap keys idLen field matchValue op =
        someNonempty (rangeDocuments keys field matchValue op) ↔
      ∀ k ∈ keys.fields, k.field = field → op.compares k.data matchValue = true →
        ∃ k' ∈ keys.fields, k'.field = field ∧ k'.id = k.id ∧
          op.compares k'.data matchValue = true ∧ ¬ op.passesOver idLen matchValue k' := by
  have hdocuments {d : Nat} : d ∈ rangeDocuments keys field matchValue op ↔
      ∃ k ∈ keys.fields, k.field = field ∧ k.id = d ∧ op.compares k.data matchValue = true := by
    simp only [rangeDocuments, mem_toFinset, mem_map, mem_filter, decide_eq_true_eq]
    exact exists_congr fun k => by tauto
  rw [rangeToBitmap, someNonempty_inj]
  constructor
  · intro h k hk hfield hcmp
    refine mem_rangeToBitmap.mp (h ▸ hdocuments.mpr ?_)
    exact ⟨k, hk, hfield, rfl, hcmp⟩
  · intro h
    ext d
    rw [mem_rangeToBitmap, hdocuments]
    constructor
    · rintro ⟨k, hk, hfield, hid, hcmp, -⟩
      exact ⟨k, hk, hfield, hid, hcmp⟩
    · rintro ⟨k, hk, hfield, rfl, hcmp⟩
      exact h k hk hfield hcmp

/-- One document with the value `ab`, and the values above `a`. -/
theorem not_rangeToBitmap_extended :
    rangeToBitmap (⟨[], [⟨1, [97, 98], 7⟩]⟩ : IndexKeys Unit) 4 1 [97] .greaterThan ≠
      someNonempty
        (rangeDocuments (⟨[], [⟨1, [97, 98], 7⟩]⟩ : IndexKeys Unit) 1 [97] .greaterThan) := by
  decide

end Range

end Bearmail.Search
