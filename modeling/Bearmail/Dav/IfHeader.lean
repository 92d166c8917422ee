import Bearmail.Dav.Lock
import Bearmail.Imap.Token

/-!
# The If headers

`parse_if` and `parse_if_match` of `dav-proto/src/parser/header.rs`: If, If-Match and If-None-Match
headers become alternatives of one list. A list of an If header is in parentheses; before it may
stand the resource that it is about. The parser forgets the resource at the end of a list, so the
other lists of a tagged production are about the resource of the request.
-/

namespace Bearmail.Dav.Lock

open List

/-! ## Parsing -/

def isAsciiWhitespace (ch : Char) : Bool :=
  ch = ' ' || ch = '\t' || ch = '\n' || ch = '\x0c' || ch = '\r'

def splitAt (stop : Char) : Text → Option (Text × Text)
  | [] => none
  | ch :: rest =>
    if ch = stop then some ([], rest)
    else (splitAt stop rest).map fun (before, behind) => (ch :: before, behind)

variable {text : Text} {list : List Condition}

theorem length_of_splitAt {stop : Char} {before behind : Text}
    (h : splitAt stop text = some (before, behind)) : behind.length < text.length := by
  induction text generalizing before with
  | nil => cases h
  | cons ch rest ih =>
    rw [splitAt] at h
    split at h
    · cases h
      exact Nat.lt_succ_self _
    · obtain ⟨⟨start, tail⟩, htail, heq⟩ := Option.map_eq_some_iff.mp h
      cases heq
      exact Nat.lt_succ_of_lt (ih htail)

def splitNot : Text → Option Text
  | 'o' :: 't' :: rest => some rest
  | _ => none

theorem length_of_splitNot {behind : Text} (h : splitNot text = some behind) :
    behind.length < text.length := by
  unfold splitNot at h
  split at h
  · cases h
    simp only [length_cons]
    omega
  · cases h

/-- The conditions of a list, up to its closing parenthesis, and what stands behind. -/
def parseList (isNot : Bool) (conditions : List Condition) : Text → Option (List Condition × Text)
  | [] => none
  | ch :: rest =>
    if ch = 'N' then
      match _ : splitNot rest with
      | some behind => parseList true conditions behind
      | none => none
    else if ch = '<' then
      match _ : splitAt '>' rest with
      | some (token, behind) =>
        parseList false (conditions ++ [.stateToken isNot token]) behind
      | none => none
    else if ch = '[' then
      match _ : splitAt ']' rest with
      | some (tag, behind) => parseList false (conditions ++ [.eTag isNot tag]) behind
      | none => none
    else if ch = ')' then some (conditions, rest)
    else if isAsciiWhitespace ch then parseList isNot conditions rest
    else none
termination_by text => text.length
decreasing_by
  · exact Nat.lt_succ_of_lt (length_of_splitNot ‹_›)
  · exact Nat.lt_succ_of_lt (length_of_splitAt ‹_›)
  · exact Nat.lt_succ_of_lt (length_of_splitAt ‹_›)
  · exact Nat.lt_succ_self _

theorem length_of_parseList {isNot : Bool} {conditions : List Condition} {behind : Text}
    (h : parseList isNot conditions text = some (list, behind)) : behind.length < text.length := by
  fun_induction parseList isNot conditions text with
  | case1 => cases h
  | case2 conditions rest isNot behind' hsplit ih =>
    exact ((ih h).trans (length_of_splitNot hsplit)).trans (Nat.lt_succ_self _)
  | case3 => cases h
  | case4 isNot conditions rest token behind' hsplit hn ih =>
    exact ((ih h).trans (length_of_splitAt hsplit)).trans (Nat.lt_succ_self _)
  | case5 => cases h
  | case6 isNot conditions rest tag behind' hsplit hn ht ih =>
    exact ((ih h).trans (length_of_splitAt hsplit)).trans (Nat.lt_succ_self _)
  | case7 => cases h
  | case8 =>
    cases h
    exact Nat.lt_succ_self _
  | case9 isNot conditions ch rest hn ht he hc hw ih => exact (ih h).trans (Nat.lt_succ_self _)
  | case10 => cases h

def parseIf (resource : Option Text) : Text → List If
  | [] => []
  | ch :: rest =>
    if ch = '<' ∧ resource = none then
      match _ : splitAt '>' rest with
      | some (uri, behind) => parseIf (some uri) behind
      | none => []
    else if ch = '(' then
      match _ : parseList false [] rest with
      | some (list, behind) => ⟨resource, list⟩ :: parseIf none behind
      | none => []
    else if isAsciiWhitespace ch then parseIf resource rest
    else []
termination_by text => text.length
decreasing_by
  · exact Nat.lt_succ_of_lt (length_of_splitAt ‹_›)
  · exact Nat.lt_succ_of_lt (length_of_parseList ‹_›)
  · exact Nat.lt_succ_self _

def trim (text : Text) : Text :=
  ((text.dropWhile Imap.isWhitespace).reverse.dropWhile Imap.isWhitespace).reverse

def listedTags (value : Text) : List Text := (value.splitOn ',').map trim

def parseIfMatch (value : Text) (isNot : Bool) : List If :=
  if value = ['*'] then [⟨none, [.existence isNot]⟩]
  else if isNot then [⟨none, (listedTags value).map (.eTag isNot)⟩]
  else (listedTags value).map fun tag => ⟨none, [.eTag isNot tag]⟩

inductive IfField where
  | if_ (value : Text)
  | ifMatch (value : Text)
  | ifNoneMatch (value : Text)

def IfField.alternatives : IfField → List If
  | .if_ value => parseIf none value
  | .ifMatch value => parseIfMatch value false
  | .ifNoneMatch value => parseIfMatch value true

/-! ## The grammar of the If header -/

def Blank (text : Text) : Prop := ∀ ch ∈ text, isAsciiWhitespace ch = true

/-- A condition that is not negated: a token in angle brackets, or an entity tag in square ones. -/
inductive RendersPlain : (Bool → Condition) → Text → Prop where
  | token {token : Text} (h : '>' ∉ token) :
    RendersPlain (fun isNot => .stateToken isNot token) ('<' :: token ++ ['>'])
  | tag {tag : Text} (h : ']' ∉ tag) : RendersPlain (fun isNot => .eTag isNot tag) ('[' :: tag ++ [']'])

inductive RendersList : List Condition → Text → Prop where
  | close {gap : Text} (hgap : Blank gap) : RendersList [] (gap ++ [')'])
  | plain {gap text more : Text} {condition : Bool → Condition} {list : List Condition}
    (hgap : Blank gap) (hplain : RendersPlain condition text) (hmore : RendersList list more) :
    RendersList (condition false :: list) (gap ++ text ++ more)
  | not {gap gap' text more : Text} {condition : Bool → Condition} {list : List Condition}
    (hgap : Blank gap) (hgap' : Blank gap') (hplain : RendersPlain condition text)
    (hmore : RendersList list more) :
    RendersList (condition true :: list) (gap ++ ['N', 'o', 't'] ++ gap' ++ text ++ more)

/-- Lists with a tag before the first of them, or with none. -/
structure Production where
  tag : Option Text
  first : List Condition
  others : List (List Condition)

def Production.tagged (production : Production) : List If :=
  (production.first :: production.others).map fun list => ⟨production.tag, list⟩

def Production.parsed (production : Production) : List If :=
  ⟨production.tag, production.first⟩ :: production.others.map fun list => ⟨none, list⟩

inductive RendersTag : Option Text → Text → Prop where
  | none : RendersTag none []
  | some {tag gap : Text} (hgap : Blank gap) (htag : '>' ∉ tag) :
    RendersTag (some tag) (gap ++ '<' :: tag ++ ['>'])

inductive RendersLists : List (List Condition) → Text → Prop where
  | nil : RendersLists [] []
  | cons {gap text more : Text} {list : List Condition} {lists : List (List Condition)}
    (hgap : Blank gap) (hlist : RendersList list text) (hmore : RendersLists lists more) :
    RendersLists (list :: lists) (gap ++ '(' :: text ++ more)

inductive RendersIf : List Production → Text → Prop where
  | nil {gap : Text} (hgap : Blank gap) : RendersIf [] gap
  | cons {tag text more : Text} {production : Production} {productions : List Production}
    (htag : RendersTag production.tag tag)
    (hlists : RendersLists (production.first :: production.others) text)
    (hmore : RendersIf productions more) :
    RendersIf (production :: productions) (tag ++ text ++ more)

/-! ## What is parsed -/

theorem splitAt_append {stop : Char} (h : stop ∉ text) (rest : Text) :
    splitAt stop (text ++ stop :: rest) = some (text, rest) := by
  induction text with
  | nil => simp [splitAt]
  | cons ch text ih =>
    rw [mem_cons, not_or] at h
    rw [cons_append, splitAt, if_neg (Ne.symm h.1), ih h.2]
    rfl

theorem ne_of_isAsciiWhitespace {ch : Char} (h : isAsciiWhitespace ch = true) :
    ch ≠ 'N' ∧ ch ≠ '<' ∧ ch ≠ '[' ∧ ch ≠ ')' ∧ ch ≠ '(' := by
  refine ⟨?_, ?_, ?_, ?_, ?_⟩ <;>
  · rintro rfl
    exact absurd h (by decide)

theorem parseList_blank {gap : Text} (hgap : Blank gap) (isNot : Bool)
    (conditions : List Condition) (rest : Text) :
    parseList isNot conditions (gap ++ rest) = parseList isNot conditions rest := by
  induction gap with
  | nil => rfl
  | cons ch gap ih =>
    have hch := hgap ch mem_cons_self
    obtain ⟨hn, ht, he, hc, -⟩ := ne_of_isAsciiWhitespace hch
    rw [cons_append, parseList, if_neg hn, if_neg ht, if_neg he, if_neg hc, if_pos hch]
    exact ih fun c hc => hgap c (mem_cons_of_mem _ hc)

theorem parseList_plain {condition : Bool → Condition} (h : RendersPlain condition text)
    (isNot : Bool) (conditions : List Condition) (rest : Text) :
    parseList isNot conditions (text ++ rest) =
      parseList false (conditions ++ [condition isNot]) rest := by
  cases h with
  | @token token h =>
    have hsplit := splitAt_append h rest
    rw [show ('<' :: token ++ ['>']) ++ rest = '<' :: (token ++ '>' :: rest) by simp, parseList,
      if_neg (by decide), if_pos rfl]
    split
    · rename_i heq
      cases hsplit.symm.trans heq
      rfl
    · rename_i heq
      cases hsplit.symm.trans heq
  | @tag tag h =>
    have hsplit := splitAt_append h rest
    rw [show ('[' :: tag ++ [']']) ++ rest = '[' :: (tag ++ ']' :: rest) by simp, parseList,
      if_neg (by decide), if_neg (by decide), if_pos rfl]
    split
    · rename_i heq
      cases hsplit.symm.trans heq
      rfl
    · rename_i heq
      cases hsplit.symm.trans heq

theorem parseList_not (isNot : Bool) (conditions : List Condition) (rest : Text) :
    parseList isNot conditions (['N', 'o', 't'] ++ rest) = parseList true conditions rest := by
  rw [show ['N', 'o', 't'] ++ rest = 'N' :: 'o' :: 't' :: rest from rfl, parseList]
  rfl

theorem parseList_rendered (h : RendersList list text) (conditions : List Condition) (rest : Text) :
    parseList false conditions (text ++ rest) = some (conditions ++ list, rest) := by
  induction h generalizing conditions with
  | close hgap =>
    rw [append_assoc, parseList_blank hgap, singleton_append, parseList]
    simp
  | plain hgap hplain hmore ih =>
    rw [append_assoc, append_assoc, parseList_blank hgap, parseList_plain hplain, ih]
    simp
  | not hgap hgap' hplain hmore ih =>
    rw [append_assoc, append_assoc, append_assoc, append_assoc,
      parseList_blank hgap, parseList_not, parseList_blank hgap', parseList_plain hplain, ih]
    simp

theorem parseIf_blank {gap : Text} (hgap : Blank gap) (resource : Option Text) (rest : Text) :
    parseIf resource (gap ++ rest) = parseIf resource rest := by
  induction gap with
  | nil => rfl
  | cons ch gap ih =>
    have hch := hgap ch mem_cons_self
    obtain ⟨-, ht, -, -, hp⟩ := ne_of_isAsciiWhitespace hch
    rw [cons_append, parseIf, if_neg (fun h => ht h.1), if_neg hp, if_pos hch]
    exact ih fun c hc => hgap c (mem_cons_of_mem _ hc)

theorem parseIf_list (h : RendersList list text) (resource : Option Text) (rest : Text) :
    parseIf resource ('(' :: (text ++ rest)) = ⟨resource, list⟩ :: parseIf none rest := by
  have hlist := parseList_rendered h [] rest
  rw [parseIf, if_neg (by simp), if_pos rfl]
  split
  · rename_i heq
    cases hlist.symm.trans heq
    rfl
  · rename_i heq
    cases hlist.symm.trans heq

theorem parseIf_lists {lists : List (List Condition)} (h : RendersLists (list :: lists) text)
    (resource : Option Text) (rest : Text) :
    parseIf resource (text ++ rest) =
      ⟨resource, list⟩ :: lists.map (fun list => ⟨none, list⟩) ++ parseIf none rest := by
  generalize hall : list :: lists = all at h
  induction h generalizing resource list lists with
  | nil => cases hall
  | @cons gap text more list' lists' hgap hlist hmore ih =>
    cases hall
    rw [show gap ++ '(' :: text ++ more ++ rest = gap ++ '(' :: (text ++ (more ++ rest)) by simp,
      parseIf_blank hgap, parseIf_list hlist]
    cases hmore with
    | nil => rfl
    | cons hgap' hlist' hmore' =>
      rw [ih none rfl]
      rfl

theorem parseIf_tag {tag : Option Text} (h : RendersTag tag text) (rest : Text) :
    parseIf none (text ++ rest) = parseIf tag rest := by
  cases h with
  | none => rfl
  | @some tag gap hgap htag =>
    have hsplit := splitAt_append htag rest
    rw [show gap ++ '<' :: tag ++ ['>'] ++ rest = gap ++ '<' :: (tag ++ '>' :: rest) by simp,
      parseIf_blank hgap, parseIf, if_pos ⟨rfl, rfl⟩]
    split
    · rename_i heq
      cases hsplit.symm.trans heq
      rfl
    · rename_i heq
      cases hsplit.symm.trans heq

/-- A header that follows the grammar is parsed to its lists; a tag is kept for the first list
behind it. -/
theorem parseIf_rendered {productions : List Production} (h : RendersIf productions text) :
    parseIf none text = productions.flatMap Production.parsed := by
  induction h with
  | @nil gap hgap =>
    have hblank := parseIf_blank hgap none []
    rw [List.append_nil] at hblank
    rw [hblank, parseIf]
    rfl
  | cons htag hlists hmore ih =>
    rw [append_assoc, parseIf_tag htag, parseIf_lists hlists, ih]
    rfl

end Bearmail.Dav.Lock
