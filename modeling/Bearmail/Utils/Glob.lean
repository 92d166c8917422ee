import Mathlib.Data.List.Infix

/-!
# Glob patterns

`GlobPattern` of `utils/src/glob.rs`. The positions of a match, which nothing reads, are left out.
-/

namespace Bearmail.Utils.Glob

open List

/-- The case mapping of the standard library, for a character and for a text. -/
structure CaseMapping where
  isUppercase : Char → Bool
  toLowercase : Char → List Char
  textToLowercase : List Char → List Char

inductive PatternChar where
  | wildcardMany (num : Nat)
  | wildcardSingle
  | char (char : Char)

structure GlobPattern where
  pattern : List PatternChar
  toLower : Bool

section

variable (mapping : CaseMapping) (toLower : Bool)

def lowered (char : Char) : List Char :=
  if toLower && mapping.isUppercase char then mapping.toLowercase char else [char]

def compileFrom (isEscaped : Bool) : List Char → List PatternChar
  | [] => []
  | char :: str =>
    if char = '*' ∧ isEscaped = false then
      .wildcardMany (1 + (str.takeWhile (· = '*')).length) :: compileFrom false (str.dropWhile (· = '*'))
    else if char = '?' ∧ isEscaped = false then .wildcardSingle :: compileFrom false str
    else if char = '\\' ∧ isEscaped = false then compileFrom true str
    else (lowered mapping toLower char).map .char ++ compileFrom false str
termination_by str => str.length
decreasing_by
  · exact Nat.lt_succ_of_le (dropWhile_sublist _).length_le
  all_goals exact Nat.lt_succ_self _

def compile (pattern : List Char) : GlobPattern := ⟨compileFrom mapping toLower false pattern, toLower⟩

end

/-! ## The loop of `matches` -/

/-- What a turn of the loop finds in what is left from `px` and from `nx` on. -/
inductive Turn where
  | matched
  | next (pattern : List PatternChar) (value : List Char)
  | star (pattern : List PatternChar)
  | stuck

def turn : List PatternChar → List Char → Turn
  | [], [] => .matched
  | [], _ :: _ => .stuck
  | .char char :: pattern, nc :: value => if nc = char then .next pattern value else .stuck
  | .wildcardSingle :: pattern, _ :: value => .next pattern value
  | .char _ :: _, [] | .wildcardSingle :: _, [] => .stuck
  | .wildcardMany _ :: pattern, _ => .star pattern

/-- Where to go back to, behind a star that takes one more character: `next_px` and `next_nx`. -/
abbrev Start := Option (List PatternChar × List Char)

def startOf (pattern : List PatternChar) : List Char → Start
  | [] => none
  | _ :: value => some (pattern, value)

def Start.left (start : Start) : Nat := (start.map fun start => start.2.length + 1).getD 0

theorem left_startOf (pattern : List PatternChar) (value : List Char) :
    (startOf pattern value).left = value.length := by
  cases value <;> rfl

/-- The relation of a compiled pattern. -/
def Matches : List PatternChar → List Char → Prop
  | [], value => value = []
  | .wildcardMany _ :: pattern, value => ∃ rest, rest <:+ value ∧ Matches pattern rest
  | .wildcardSingle :: pattern, value => ∃ c rest, value = c :: rest ∧ Matches pattern rest
  | .char char :: pattern, value => ∃ rest, value = char :: rest ∧ Matches pattern rest

variable {pattern rest : List PatternChar} {value value' : List Char} {start : Start} {num : Nat}

theorem turn_spec (pattern : List PatternChar) (value : List Char) :
    match turn pattern value with
    | .next rest value' => ∃ token c, (∀ num, token ≠ .wildcardMany num) ∧ pattern = token :: rest ∧
        value = c :: value' ∧ (Matches pattern value ↔ Matches rest value')
    | .star rest => ∃ num, pattern = .wildcardMany num :: rest
    | .stuck => ¬ Matches pattern value
    | .matched => Matches pattern value := by
  fun_cases turn pattern value
  case case1 => rfl
  case case3 | case5 => exact ⟨_, _, by simp, rfl, rfl, by simp [Matches]⟩
  case case8 => exact ⟨_, rfl⟩
  all_goals simp_all [Matches]

theorem turn_next (h : turn pattern value = .next rest value') :
    ∃ token c, (∀ num, token ≠ .wildcardMany num) ∧ pattern = token :: rest ∧ value = c :: value' ∧
      (Matches pattern value ↔ Matches rest value') := by
  have hspec := turn_spec pattern value
  rwa [h] at hspec

theorem turn_star (h : turn pattern value = .star rest) : ∃ num, pattern = .wildcardMany num :: rest := by
  have hspec := turn_spec pattern value
  rwa [h] at hspec

theorem turn_stuck (h : turn pattern value = .stuck) : ¬ Matches pattern value := by
  have hspec := turn_spec pattern value
  rwa [h] at hspec

theorem turn_matched (h : turn pattern value = .matched) : Matches pattern value := by
  have hspec := turn_spec pattern value
  rwa [h] at hspec

/-- Going back to a star and passing it again are one turn. -/
def matchLoop (pattern : List PatternChar) (value : List Char) (start : Start) : Bool :=
  match h : turn pattern value with
  | .matched => true
  | .next pattern value => matchLoop pattern value start
  | .star pattern => matchLoop pattern value (startOf pattern value)
  | .stuck =>
    match start with
    | none => false
    | some (pattern, value) => matchLoop pattern value (startOf pattern value)
termination_by (max value.length start.left, pattern.length)
decreasing_by
  · obtain ⟨_, _, _, rfl, rfl, _⟩ := turn_next h
    grind
  · obtain ⟨num, rfl⟩ := turn_star h
    grind [left_startOf]
  · grind [left_startOf, Start.left]

theorem Matches.longer (h : Matches (.wildcardMany num :: pattern) value) (hle : value <:+ value') :
    Matches (.wildcardMany num :: pattern) value' := by
  obtain ⟨rest, hrest, h⟩ := h
  exact ⟨rest, hrest.trans hle, h⟩

/-- What stands in front of a star takes one character for each of its tokens. -/
theorem Matches.split {front : List PatternChar} (hfront : ∀ num, .wildcardMany num ∉ front)
    (h : Matches (front ++ pattern) value) :
    ∃ taken rest, value = taken ++ rest ∧ taken.length = front.length ∧ Matches pattern rest := by
  induction front generalizing value with
  | nil => exact ⟨[], value, rfl, rfl, h⟩
  | cons token front ih =>
    have hfront' (num : Nat) : .wildcardMany num ∉ front := fun hmem => hfront num (mem_cons_of_mem _ hmem)
    cases token with
    | wildcardMany num => exact absurd mem_cons_self (hfront num)
    | wildcardSingle =>
      obtain ⟨c, rest, rfl, h⟩ := h
      obtain ⟨taken, rest, rfl, hlength, hrest⟩ := ih hfront' h
      exact ⟨c :: taken, rest, rfl, congrArg (· + 1) hlength, hrest⟩
    | char c =>
      obtain ⟨rest, rfl, h⟩ := h
      obtain ⟨taken, rest, rfl, hlength, hrest⟩ := ih hfront' h
      exact ⟨c :: taken, rest, rfl, congrArg (· + 1) hlength, hrest⟩

/-- Between the last star and the place of the loop there are only tokens for one character. -/
def Behind (pattern : List PatternChar) (value : List Char) : Start → Prop
  | none => True
  | some (pattern', value') => ∃ front taken c, (∀ num, .wildcardMany num ∉ front) ∧
    pattern' = front ++ pattern ∧ c :: value' = taken ++ value ∧ taken.length = front.length

def Start.Finds : Start → Prop
  | none => False
  | some (pattern, value) => Matches (.wildcardMany 1 :: pattern) value

theorem behind_startOf (pattern : List PatternChar) (value : List Char) :
    Behind pattern value (startOf pattern value) := by
  cases value with
  | nil => trivial
  | cons c value => exact ⟨[], [], c, by simp, rfl, rfl, rfl⟩

theorem matches_or_finds : Matches pattern value ∨ (startOf pattern value).Finds ↔
    Matches (.wildcardMany 1 :: pattern) value := by
  cases value with
  | nil => simp [startOf, Start.Finds, Matches]
  | cons c value => simp [startOf, Start.Finds, Matches, suffix_cons_iff, or_and_right, exists_or]

/-- A later star finds whatever one before it would. -/
theorem Start.Finds.star (h : start.Finds) (hbehind : Behind (.wildcardMany num :: pattern) value start) :
    Matches (.wildcardMany 1 :: pattern) value := by
  obtain - | ⟨pattern', value'⟩ := start
  · cases h
  obtain ⟨front, taken, c, hfront, rfl, hvalue, hlength⟩ := hbehind
  obtain ⟨rest, ⟨skipped, rfl⟩, h⟩ := h
  obtain ⟨passed, rest, rfl, hpassed, h⟩ := h.split hfront
  have hsuffix : rest <:+ taken ++ value := ⟨c :: (skipped ++ passed), by simp [← hvalue]⟩
  have hle : rest.length ≤ value.length := by
    have := congrArg length hvalue
    simp only [length_cons, length_append] at this
    omega
  exact Matches.longer h (suffix_of_suffix_length_le hsuffix (suffix_append taken value) hle)

theorem Behind.next {token : PatternChar} {c : Char} (htoken : ∀ num, token ≠ .wildcardMany num)
    (h : Behind (token :: pattern) (c :: value) start) : Behind pattern value start := by
  obtain - | ⟨pattern', value'⟩ := start
  · trivial
  obtain ⟨front, taken, d, hfront, rfl, hvalue, hlength⟩ := h
  refine ⟨front ++ [token], taken ++ [c], d, fun num hmem => ?_, by simp, by simp [hvalue], by simp [hlength]⟩
  rcases mem_append.mp hmem with hmem | hmem
  · exact hfront num hmem
  · exact htoken num (mem_singleton.mp hmem).symm

theorem matchLoop_iff (h : Behind pattern value start) :
    matchLoop pattern value start = true ↔ Matches pattern value ∨ start.Finds := by
  fun_induction matchLoop pattern value start with
  | case1 pattern value start hturn => simp [turn_matched hturn]
  | case2 pattern value start rest value' hturn ih =>
    obtain ⟨token, c, htoken, rfl, rfl, hiff⟩ := turn_next hturn
    rw [ih (h.next htoken), hiff]
  | case3 pattern value start rest hturn ih =>
    obtain ⟨num, rfl⟩ := turn_star hturn
    rw [ih (behind_startOf _ _), matches_or_finds]
    exact ⟨.inl, fun hfound => hfound.elim id fun hfound => hfound.star h⟩
  | case4 pattern value hturn => simp [turn_stuck hturn, Start.Finds]
  | case5 pattern value hturn pattern' value' ih =>
    rw [ih (behind_startOf _ _), matches_or_finds]
    simp [turn_stuck hturn, Start.Finds]

/-! ## The text of a pattern -/

section

variable (mapping : CaseMapping) (toLower : Bool)

/-- `*` is any text and `?` any character; behind a backslash they stand for themselves. -/
def Globs (literal : Bool) : List Char → List Char → Prop
  | [], value => value = []
  | char :: str, value =>
    if char = '*' ∧ literal = false then ∃ rest, rest <:+ value ∧ Globs false str rest
    else if char = '?' ∧ literal = false then ∃ c rest, value = c :: rest ∧ Globs false str rest
    else if char = '\\' ∧ literal = false then Globs true str value
    else ∃ rest, value = lowered mapping toLower char ++ rest ∧ Globs false str rest

theorem matches_chars (chars : List Char) :
    Matches (chars.map .char ++ pattern) value ↔ ∃ rest, value = chars ++ rest ∧ Matches pattern rest := by
  induction chars generalizing value with
  | nil => simp
  | cons c chars ih => simp [Matches, ih]

/-- A run of stars means what its last one does. -/
theorem globs_stars (str : List Char) : (∃ rest, rest <:+ value ∧ Globs mapping toLower false str rest) ↔
    ∃ rest, rest <:+ value ∧ Globs mapping toLower false (str.dropWhile (· = '*')) rest := by
  induction str with
  | nil => rfl
  | cons char str ih =>
    by_cases hchar : char = '*'
    · rw [dropWhile_cons_of_pos (by simpa using hchar), ← ih]
      simp only [Globs, hchar, and_self, if_true]
      constructor
      · rintro ⟨rest, hrest, rest', hrest', hglobs⟩
        exact ⟨rest', hrest'.trans hrest, hglobs⟩
      · rintro ⟨rest, hrest, hglobs⟩
        exact ⟨rest, hrest, rest, suffix_rfl, hglobs⟩
    · rw [dropWhile_cons_of_neg (by simpa using hchar)]

theorem matches_compileFrom (isEscaped : Bool) (str : List Char) :
    Matches (compileFrom mapping toLower isEscaped str) value ↔ Globs mapping toLower isEscaped str value := by
  fun_induction compileFrom mapping toLower isEscaped str generalizing value with
  | case1 => rfl
  | case2 isEscaped char str h ih =>
    rw [Globs, if_pos h, globs_stars]
    simp only [Matches, ih]
  | case3 isEscaped char str hmany h ih =>
    rw [Globs, if_neg hmany, if_pos h]
    simp only [Matches, ih]
  | case4 isEscaped char str hmany hsingle h ih => rw [ih, Globs, if_neg hmany, if_neg hsingle, if_pos h]
  | case5 isEscaped char str hmany hsingle h ih =>
    rw [matches_chars, Globs, if_neg hmany, if_neg hsingle, if_neg h]
    simp only [ih]

end

def GlobPattern.matches (mapping : CaseMapping) (glob : GlobPattern) (value : List Char) : Bool :=
  matchLoop glob.pattern (if glob.toLower then mapping.textToLowercase value else value) none

theorem matches_compile (mapping : CaseMapping) (toLower : Bool) (pattern value : List Char) :
    (compile mapping toLower pattern).matches mapping value = true ↔
      Globs mapping toLower false pattern (if toLower then mapping.textToLowercase value else value) := by
  rw [GlobPattern.matches, matchLoop_iff (by trivial), compile, matches_compileFrom]
  exact or_iff_left id

end Bearmail.Utils.Glob
