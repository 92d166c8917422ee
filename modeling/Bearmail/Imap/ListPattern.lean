import Bearmail.Imap.Token

/-!
# The patterns of a LIST command

`matches_pattern` of `imap/src/op/list.rs`: a matcher without backtracking that
searches for the text after each wildcard.
-/

namespace Bearmail.Imap

open List

def isWildcard (ch : UInt8) : Bool := decide (ch = 37) || decide (ch = 42)

/-- How the search for the text after a wildcard ends. -/
inductive Search where
  | found (rest : Bytes)
  | matched
  | exhausted
  deriving DecidableEq

/-- The search, with `matchCount` bytes of the text found. After a mismatch the count
is reset, and the byte that did not match is not looked at again. -/
def search (matchBytes : Bytes) (patternEof : Bool) : Nat → Bytes → Search
  | _, [] => .exhausted
  | matchCount, ch :: rest =>
    if matchBytes[matchCount]? = some ch then
      if matchCount + 1 = matchBytes.length then
        if !patternEof then .found rest
        else if rest = [] then .matched
        else search matchBytes patternEof 0 rest
      else search matchBytes patternEof (matchCount + 1) rest
    else search matchBytes patternEof 0 rest

def matchFrom (pattern name : Bytes) : Bool :=
  match pattern with
  | [] => name.isEmpty
  | ch :: rest =>
    if isWildcard ch then
      let matchBytes := rest.takeWhile fun b => !isWildcard b
      let rest' := rest.dropWhile fun b => !isWildcard b
      if matchBytes ≠ [] then
        match search matchBytes rest'.isEmpty 0 name with
        | .exhausted => false
        | .matched => true
        | .found name' => matchFrom rest' name'
      else decide (ch = 42) || !name.any fun b => decide (b = 47)
    else
      match name with
      | [] => false
      | mch :: name' => if mch = ch then matchFrom rest name' else false
termination_by pattern.length
decreasing_by
  · exact Nat.lt_succ_of_le (List.dropWhile_suffix _).length_le
  · exact Nat.lt_succ_self _

def matchesPattern (patterns : List String) (mailboxName : String) : Bool :=
  if patterns.isEmpty then true
  else patterns.any fun pattern => matchFrom (utf8 pattern) (utf8 mailboxName)

/-! ## What the wildcards mean -/

/-- `*` stands for any text, `%` for any without a separator. -/
inductive Matches : Bytes → Bytes → Prop where
  | nil : Matches [] []
  | byte {ch pattern name} : isWildcard ch = false → Matches pattern name →
      Matches (ch :: pattern) (ch :: name)
  | star {pattern name} (skip : Bytes) : Matches pattern name → Matches (42 :: pattern) (skip ++ name)
  | percent {pattern name} {skip : Bytes} : 47 ∉ skip → Matches pattern name →
      Matches (37 :: pattern) (skip ++ name)

/-! ## What the matcher takes -/

/-- What the search leaves behind: beginnings of the text, each with the byte that did
not go on, and whole texts if one must end the name. -/
inductive Missed (text : Bytes) (last : Bool) : Bytes → Prop where
  | nil : Missed text last []
  | broken {c ch skip} : c < text.length → text[c]? ≠ some ch → Missed text last skip →
      Missed text last (text.take c ++ ch :: skip)
  | whole {skip} : last = true → Missed text last skip → Missed text last (text ++ skip)

def AtWild (pattern : Bytes) : Prop := ∀ b ∈ pattern.head?, isWildcard b = true

def passes (wildcard : UInt8) (skip : Bytes) : Bool := decide (wildcard = 37 ∧ 47 ∈ skip)

/-- How a pattern is read, and whether a slip was made: a `%` that passes a separator,
or a wildcard that decides although another follows it. -/
inductive Takes : Bool → Bytes → Bytes → Prop where
  | nil : Takes false [] []
  | byte {slip ch pattern name} : isWildcard ch = false → Takes slip pattern name →
      Takes slip (ch :: pattern) (ch :: name)
  | star {pattern name} : AtWild pattern → Takes (!pattern.isEmpty) (42 :: pattern) name
  | percent {pattern name} : AtWild pattern → 47 ∉ name → Takes (!pattern.isEmpty) (37 :: pattern) name
  | find {slip wildcard text pattern skip name} : isWildcard wildcard = true → text ≠ [] →
      (∀ b ∈ text, isWildcard b = false) → pattern ≠ [] → AtWild pattern →
      Missed text false skip → Takes slip pattern name →
      Takes (slip || passes wildcard skip) (wildcard :: (text ++ pattern)) (skip ++ (text ++ name))
  | findLast {wildcard text skip} : isWildcard wildcard = true → text ≠ [] →
      (∀ b ∈ text, isWildcard b = false) → Missed text true skip →
      Takes (passes wildcard skip) (wildcard :: text) (skip ++ text)

/-! ## The search -/

attribute [local simp] search

theorem search_part (text : Bytes) (last : Bool) (rest : Bytes) (k c : Nat) (h : c + k < text.length) :
    search text last c ((text.drop c).take k ++ rest) = search text last (c + k) rest := by
  induction k generalizing c with
  | zero => simp
  | succ k ih =>
    have hc : c < text.length := by omega
    have hget : text[c]? = some (text.get ⟨c, hc⟩) := by simp
    have hdrop : text.drop c = text.get ⟨c, hc⟩ :: text.drop (c + 1) := by simp
    have hne : c + 1 ≠ text.length := by omega
    rw [hdrop, take_succ_cons, cons_append, search, if_pos hget, if_neg hne, ih (c + 1) (by omega)]
    congr 1
    omega

theorem search_broken {text : Bytes} {c : Nat} {ch : UInt8} (hc : c < text.length)
    (hch : text[c]? ≠ some ch) (last : Bool) (rest : Bytes) :
    search text last 0 (text.take c ++ ch :: rest) = search text last 0 rest := by
  have hpart := search_part text last (ch :: rest) c 0 (by omega)
  rw [drop_zero] at hpart
  simp [hpart, search, hch]

theorem search_whole {text : Bytes} (hne : text ≠ []) (last : Bool) (rest : Bytes) :
    search text last 0 (text ++ rest) =
      if !last then .found rest else if rest = [] then .matched else search text last 0 rest := by
  obtain ⟨init, b, rfl⟩ : ∃ init b, text = init ++ [b] :=
    ⟨_, _, (dropLast_append_getLast hne).symm⟩
  have hpart := search_part (init ++ [b]) last (b :: rest) init.length 0 (by simp)
  have hinit : ((init ++ [b]).drop 0).take init.length = init := by simp
  rw [hinit] at hpart
  rw [append_assoc, singleton_append, hpart, search, if_pos (by simp), if_pos (by simp)]

theorem search_missed {text : Bytes} {last : Bool} {skip : Bytes} (hne : text ≠ [])
    (h : Missed text last skip) (rest : Bytes) (hrest : rest ≠ []) :
    search text last 0 (skip ++ rest) = search text last 0 rest := by
  induction h with
  | nil => rfl
  | broken hc hch _ ih => simp [search_broken hc hch, ih]
  | whole hlast _ ih =>
    subst hlast
    rw [append_assoc, search_whole hne]
    simp [hrest, ih]

theorem search_found {text skip : Bytes} (hne : text ≠ []) (h : Missed text false skip) (rest : Bytes) :
    search text false 0 (skip ++ (text ++ rest)) = .found rest := by
  rw [search_missed hne h _ (by simp [hne]), search_whole hne]
  rfl

theorem search_matched {text skip : Bytes} (hne : text ≠ []) (h : Missed text true skip) :
    search text true 0 (skip ++ text) = .matched := by
  have hwhole := search_whole hne true []
  rw [List.append_nil] at hwhole
  rw [search_missed hne h text hne, hwhole]
  rfl

/-- Where the search stops. The induction is on the name; `c` bytes of the text were
found just before it. -/
theorem search_spec {text : Bytes} (last : Bool) (name : Bytes) (c : Nat) (hc : c < text.length) :
    (∀ rest, search text last c name = .found rest → last = false ∧
      ∃ skip, Missed text false skip ∧ text.take c ++ name = skip ++ (text ++ rest)) ∧
    (search text last c name = .matched → last = true ∧
      ∃ skip, Missed text true skip ∧ text.take c ++ name = skip ++ text) := by
  induction name generalizing c with
  | nil => exact ⟨fun rest h => (by cases h), fun h => (by cases h)⟩
  | cons ch name ih =>
    rw [search]
    split
    · rename_i hget
      have htake : text.take (c + 1) = text.take c ++ [ch] := by
        rw [take_add_one, hget]
        rfl
      split
      · rename_i hfull
        have htext : text.take c ++ [ch] = text := by
          rw [← htake, hfull, take_length]
        cases last with
        | false =>
          refine ⟨fun rest h => ?_, fun h => (by cases h)⟩
          cases h
          refine ⟨rfl, [], .nil, ?_⟩
          conv => rhs; rw [← htext]
          simp
        | true =>
          rw [if_neg (show ¬ (!true) = true by decide)]
          split
          · rename_i hnil
            refine ⟨fun rest h => (by cases h), fun _ => ⟨rfl, [], .nil, ?_⟩⟩
            rw [hnil, htext]
            rfl
          · obtain ⟨hfound, hmatched⟩ := ih 0 (by omega)
            refine ⟨fun rest h => ?_, fun h => ?_⟩
            · cases (hfound rest h).1
            · obtain ⟨-, skip, hskip, heq⟩ := hmatched h
              refine ⟨rfl, text ++ skip, .whole rfl hskip, ?_⟩
              rw [append_assoc, ← heq]
              conv => rhs; rw [← htext]
              simp
      · rename_i hmore
        have hrest := ih (c + 1) (by omega)
        rw [htake, append_assoc] at hrest
        exact hrest
    · rename_i hget
      obtain ⟨hfound, hmatched⟩ := ih 0 (by omega)
      rw [take_zero, nil_append] at hfound hmatched
      refine ⟨fun rest h => ?_, fun h => ?_⟩
      · obtain ⟨hlast, skip, hskip, heq⟩ := hfound rest h
        exact ⟨hlast, _, .broken hc hget hskip, by rw [heq]; simp⟩
      · obtain ⟨hlast, skip, hskip, heq⟩ := hmatched h
        exact ⟨hlast, _, .broken hc hget hskip, by rw [heq]; simp⟩

/-! ## The matcher -/

theorem split_text {text pattern : Bytes} (htext : ∀ b ∈ text, isWildcard b = false)
    (hp : AtWild pattern) :
    (text ++ pattern).takeWhile (fun b => !isWildcard b) = text ∧
      (text ++ pattern).dropWhile (fun b => !isWildcard b) = pattern := by
  induction text with
  | nil =>
    cases pattern with
    | nil => exact ⟨rfl, rfl⟩
    | cons b pattern => simp [hp b rfl]
  | cons b text ih =>
    obtain ⟨htake, hdrop⟩ := ih fun c hc => htext c (mem_cons_of_mem _ hc)
    simp [htext b mem_cons_self, htake, hdrop]

theorem atWild_dropWhile (pattern : Bytes) : AtWild (pattern.dropWhile fun b => !isWildcard b) := by
  intro b hb
  have h := List.head?_dropWhile_not (fun b => !isWildcard b) pattern
  rw [hb] at h
  simpa using h

theorem matchFrom_text {wildcard : UInt8} {text pattern : Bytes} (hw : isWildcard wildcard = true)
    (hne : text ≠ []) (htext : ∀ b ∈ text, isWildcard b = false) (hp : AtWild pattern) (name : Bytes) :
    matchFrom (wildcard :: (text ++ pattern)) name =
      match search text pattern.isEmpty 0 name with
      | .exhausted => false
      | .matched => true
      | .found rest => matchFrom pattern rest := by
  obtain ⟨htake, hdrop⟩ := split_text htext hp
  rw [matchFrom.eq_def]
  simp only [if_pos hw]
  simp only [htake, hdrop]
  simp [hne]

theorem matchFrom_wild {wildcard : UInt8} {pattern : Bytes} (hw : isWildcard wildcard = true)
    (hp : AtWild pattern) (name : Bytes) :
    matchFrom (wildcard :: pattern) name = true ↔ wildcard = 42 ∨ 47 ∉ name := by
  obtain ⟨htake, -⟩ := @split_text [] _ (by simp) hp
  rw [nil_append] at htake
  rw [matchFrom.eq_def]
  simp only [if_pos hw, htake]
  have hany : (name.any fun b => decide (b = 47)) = true ↔ 47 ∈ name := by simp
  simp [Bool.or_eq_true, ← Bool.not_eq_true, hany]

theorem matchFrom_byte {ch : UInt8} (hch : isWildcard ch = false) (pattern name : Bytes) :
    matchFrom (ch :: pattern) name = true ↔
      ∃ rest, name = ch :: rest ∧ matchFrom pattern rest = true := by
  have hnot : ¬ isWildcard ch = true := by simp [hch]
  rw [matchFrom.eq_def]
  simp only [if_neg hnot]
  cases name with
  | nil => simp
  | cons mch name =>
    by_cases hm : mch = ch
    · simp [hm]
    · simp [hm]

theorem takes_of_matchFrom (pattern name : Bytes) (h : matchFrom pattern name = true) :
    ∃ slip, Takes slip pattern name := by
  match pattern with
  | [] =>
    rw [matchFrom, List.isEmpty_iff] at h
    exact ⟨false, h ▸ .nil⟩
  | ch :: pattern =>
    by_cases hw : isWildcard ch = true
    · -- The text after the wildcard, and the rest of the pattern.
      obtain ⟨text, rest, htext, hrest, rfl⟩ : ∃ text rest, (∀ b ∈ text, isWildcard b = false) ∧
          AtWild rest ∧ pattern = text ++ rest :=
        ⟨_, _, fun b hb => by simpa using all_eq_true.mp all_takeWhile b hb, atWild_dropWhile pattern,
          (takeWhile_append_dropWhile).symm⟩
      by_cases hne : text = []
      · rw [hne, nil_append] at h ⊢
        rw [matchFrom_wild hw hrest] at h
        simp only [isWildcard, Bool.or_eq_true, decide_eq_true_eq] at hw
        rcases hw with rfl | rfl
        · exact ⟨_, .percent hrest (h.resolve_left (by decide))⟩
        · exact ⟨_, .star hrest⟩
      · rw [matchFrom_text hw hne htext hrest] at h
        obtain ⟨hfound, hmatched⟩ := search_spec rest.isEmpty name 0 (length_pos_iff.mpr hne)
        cases hs : search text rest.isEmpty 0 name with
        | exhausted =>
          rw [hs] at h
          cases h
        | matched =>
          obtain ⟨hlast, skip, hskip, rfl⟩ := hmatched hs
          rw [List.isEmpty_iff.mp hlast, List.append_nil]
          exact ⟨_, .findLast hw hne htext hskip⟩
        | found name' =>
          rw [hs] at h
          obtain ⟨hlast, skip, hskip, rfl⟩ := hfound name' hs
          obtain ⟨slip, htakes⟩ := takes_of_matchFrom rest name' h
          have hne' : rest ≠ [] := by
            rintro rfl
            cases hlast
          exact ⟨_, .find hw hne htext hne' hrest hskip htakes⟩
    · have hch : isWildcard ch = false := by simpa using hw
      obtain ⟨rest, rfl, hrest⟩ := (matchFrom_byte hch pattern name).mp h
      obtain ⟨slip, htakes⟩ := takes_of_matchFrom pattern rest hrest
      exact ⟨slip, .byte hch htakes⟩
termination_by pattern.length

theorem matchFrom_of_takes {slip : Bool} {pattern name : Bytes} (h : Takes slip pattern name) :
    matchFrom pattern name = true := by
  induction h with
  | nil => rw [matchFrom, isEmpty_nil]
  | byte hch _ ih => exact (matchFrom_byte hch _ _).mpr ⟨_, rfl, ih⟩
  | star hp => exact (matchFrom_wild (by decide) hp _).mpr (Or.inl rfl)
  | percent hp hname => exact (matchFrom_wild (by decide) hp _).mpr (Or.inr hname)
  | find hw hne htext hne' hp hskip _ ih =>
    have hempty : List.isEmpty _ = false := isEmpty_eq_false_iff.mpr hne'
    rw [matchFrom_text hw hne htext hp, hempty, search_found hne hskip]
    exact ih
  | @findLast wildcard text skip hw hne htext hskip =>
    have hcut := @matchFrom_text wildcard text [] hw hne htext (by simp [AtWild]) (skip ++ text)
    rw [List.append_nil, isEmpty_nil, search_matched hne hskip] at hcut
    exact hcut

theorem matchFrom_iff (pattern name : Bytes) :
    matchFrom pattern name = true ↔ ∃ slip, Takes slip pattern name :=
  ⟨takes_of_matchFrom pattern name, fun ⟨_, h⟩ => matchFrom_of_takes h⟩

theorem Matches.text {pattern name : Bytes} (h : Matches pattern name) (text : Bytes)
    (htext : ∀ b ∈ text, isWildcard b = false) : Matches (text ++ pattern) (text ++ name) := by
  induction text with
  | nil => exact h
  | cons b text ih =>
    exact .byte (htext b mem_cons_self) (ih fun c hc => htext c (mem_cons_of_mem _ hc))

theorem Matches.wild {wildcard : UInt8} {skip pattern name : Bytes} (h : Matches pattern name)
    (hw : isWildcard wildcard = true) (hskip : passes wildcard skip = false) :
    Matches (wildcard :: pattern) (skip ++ name) := by
  simp only [isWildcard, Bool.or_eq_true, decide_eq_true_eq] at hw
  rcases hw with rfl | rfl
  · exact .percent (by simpa [passes] using hskip) h
  · exact .star skip h

theorem Takes.matches {slip : Bool} {pattern name : Bytes} (h : Takes slip pattern name)
    (hs : slip = false) : Matches pattern name := by
  induction h with
  | nil => exact .nil
  | byte hch _ ih => exact .byte hch (ih hs)
  | @star pattern name _ =>
    have hnil : pattern = [] := by simpa using hs
    rw [hnil]
    have hstar := Matches.star name .nil
    rwa [List.append_nil] at hstar
  | @percent pattern name _ hname =>
    have hnil : pattern = [] := by simpa using hs
    rw [hnil]
    have hpercent := Matches.percent hname .nil
    rwa [List.append_nil] at hpercent
  | @find _ _ text _ _ _ hw _ htext _ _ _ _ ih =>
    obtain ⟨hslip, hpass⟩ := Bool.or_eq_false_iff.mp hs
    exact ((ih hslip).text text htext).wild hw hpass
  | @findLast _ text _ hw _ htext _ =>
    have htext' := Matches.nil.text text htext
    rw [List.append_nil] at htext'
    exact htext'.wild hw hs

/-! ## A list of patterns -/

section

variable (patterns : List String) (mailboxName : String)

def SomeMatches : Prop := ∃ pattern ∈ patterns, Matches (utf8 pattern) (utf8 mailboxName)

/-- A pattern takes the name through a slip, and none matches it. -/
def Strays : Prop :=
  (∃ pattern ∈ patterns, Takes true (utf8 pattern) (utf8 mailboxName)) ∧
    ¬ SomeMatches patterns mailboxName

/-- A pattern matches the name, but none can be read: the text after a wildcard is
not where the search looks for it. -/
def Misses : Prop :=
  SomeMatches patterns mailboxName ∧
    ∀ pattern ∈ patterns, ∀ slip, ¬ Takes slip (utf8 pattern) (utf8 mailboxName)

theorem matchesPattern_takes : matchesPattern patterns mailboxName = true ↔
      patterns = [] ∨ ∃ pattern ∈ patterns, ∃ slip, Takes slip (utf8 pattern) (utf8 mailboxName) := by
  unfold matchesPattern
  split
  · rename_i hempty
    simp [List.isEmpty_iff.mp hempty]
  · rename_i hne
    have hne' : patterns ≠ [] := fun hnil => hne (by rw [hnil]; rfl)
    simp [matchFrom_iff, hne']

end

end Bearmail.Imap
