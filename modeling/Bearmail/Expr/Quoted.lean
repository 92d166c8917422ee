import Bearmail.Expr.Spelling

/-!
# Quoted strings

What is written with its quotes and backslashes escaped is read back iff there are none: `parse_string` keeps
the backslash of every escape.
-/

namespace Bearmail.Expr

open Imap (utf8 fromUtf8)
open Fallible (bind_eq_ok)
open List

variable {stop : UInt8}

/-- A backslash before each quote and each backslash. -/
def escape (stop : UInt8) (text : List UInt8) : List UInt8 :=
  text.flatMap fun ch => if ch = stop ∨ ch = 92 then [92, ch] else [ch]

theorem length_escape (text : List UInt8) :
    (escape stop text).length = text.length + text.countP fun ch => ch = stop ∨ ch = 92 := by
  induction text with
  | nil => rfl
  | cons ch text ih =>
    rw [escape, flatMap_cons, length_append, ← escape, ih]
    by_cases h : ch = stop ∨ ch = 92
    · simp [h]
      omega
    · simp [h]
      omega

theorem escape_eq_self {text : List UInt8} (hstop : stop ∉ text) (hbackslash : 92 ∉ text) :
    escape stop text = text := by
  induction text with
  | nil => rfl
  | cons ch text ih =>
    simp only [mem_cons, not_or] at hstop hbackslash
    rw [escape, flatMap_cons, if_neg (not_or.mpr ⟨Ne.symm hstop.1, Ne.symm hbackslash.1⟩)]
    exact congrArg (ch :: ·) (ih hstop.2 hbackslash.2)

theorem parseString_escape_iff (stop : UInt8) (s : String) (rest : List UInt8) :
    parseString stop (escape stop (utf8 s) ++ stop :: rest) = .ok (s, rest) ↔
      stop ∉ utf8 s ∧ 92 ∉ utf8 s := by
  constructor
  · intro h
    obtain ⟨⟨buf, rest'⟩, hread, h⟩ := bind_eq_ok.mp h
    dsimp only at h
    split at h
    · rename_i hutf
      cases h
      have hcount := length_readString hread
      rw [← Imap.utf8_of_fromUtf8 hutf] at hcount
      simp only [length_append, length_cons, length_nil] at hcount
      rw [length_escape] at hcount
      have hnone := countP_eq_zero.mp (show (utf8 s).countP (fun ch => ch = stop ∨ ch = 92) = 0 by omega)
      exact ⟨fun hmem => hnone _ hmem (by simp), fun hmem => hnone _ hmem (by simp)⟩
    · cases h
  · rintro ⟨hstop, hbackslash⟩
    rw [escape_eq_self hstop hbackslash]
    exact parseString_plain hstop hbackslash rest

/-- The text of one quote. -/
theorem not_parseString_escape : parseString 34 (escape 34 (utf8 "\"") ++ [34]) ≠ .ok ("\"", []) :=
  fun h => absurd ((parseString_escape_iff 34 "\"" []).mp h).1 (by decide)

end Bearmail.Expr
