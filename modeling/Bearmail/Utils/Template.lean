import Bearmail.Imap.Token
import Bearmail.Lib.Fallible

/-!
# Templates

`Template::parse` and `Template::eval` of `utils/src/template.rs`: blocks become a flat list of items with the
place where they end. A hash map is what it has for a name. The size, which only reserves memory, is left out.
-/

namespace Bearmail.Utils.Template

open List
open Imap (isWhitespace)

variable {T : Type}

inductive TemplateItem (T : Type) where
  | static (s : List Char)
  | var (name : T) (escape : Bool)
  | block (isEach : Bool) (name : T) (blockEnd : Nat)

inductive Variable (T : Type) where
  | single (value : List Char)
  | block (entries : List (T → Option (List Char)))

/-! ## Parsing -/

def splitOnce (ch : Char) : List Char → Option (List Char × List Char)
  | a :: b :: rest =>
    if a = ch ∧ b = ch then some ([], rest)
    else (splitOnce ch (b :: rest)).map fun (start, rest) => (a :: start, rest)
  | _ => none

def trim (s : List Char) : List Char := ((s.dropWhile isWhitespace).reverse.dropWhile isWhitespace).reverse

inductive Tag (T : Type) where
  | start (isEach : Bool) (varName : List Char) (name : T)
  | stop (isEach : Bool) (varName : List Char)
  | var (name : T) (escape : Bool)

def blockName (message : String) (varName : List Char) : Except String (Bool × List Char) :=
  match varName.dropPrefix? ['e', 'a', 'c', 'h', ' '] with
  | some each => .ok (true, each)
  | none =>
    match varName.dropPrefix? ['i', 'f', ' '] with
    | some ifCond => .ok (false, ifCond)
    | none => .error (message ++ .ofList varName)

def varFromStr (fromStr : List Char → Option T) (varName : List Char) : Except String T :=
  (fromStr varName).elim (.error ("Invalid variable: " ++ .ofList varName)) .ok

def readTag (fromStr : List Char → Option T) (var : List Char) : Except String (Tag T) :=
  match var.dropPrefix? ['#'] with
  | some varName => do
    let (isEach, varName) ← blockName "Invalid block start: " (trim varName)
    .ok (.start isEach varName (← varFromStr fromStr varName))
  | none =>
    match var.dropPrefix? ['/'] with
    | some varName => do
      let (isEach, varName) ← blockName "Invalid block end: " (trim varName)
      .ok (.stop isEach varName)
    | none =>
      match var.dropPrefix? ['!'] with
      | some name => do .ok (.var (← varFromStr fromStr name) false)
      | none => do .ok (.var (← varFromStr fromStr var) true)

structure ParseState (T : Type) where
  items : List (TemplateItem T)
  blockStack : List (List Char × Nat)

namespace ParseState

def pushStatic (st : ParseState T) (s : List Char) : ParseState T :=
  if s = [] then st else { st with items := st.items ++ [.static s] }

def pushTag (st : ParseState T) : Tag T → Except String (ParseState T)
  | .start isEach varName name =>
    .ok ⟨st.items ++ [.block isEach name 0], (varName, st.items.length) :: st.blockStack⟩
  | .stop isEach varName =>
    match st.blockStack with
    | [] => .ok st
    | (expectedName, pos) :: blockStack =>
      if expectedName ≠ varName then
        .error ("Block end does not match start: expected " ++ .ofList expectedName ++ ", got " ++
          .ofList varName)
      else
        match st.items[pos]? with
        | some (.block isEach' name _) =>
          if isEach' = isEach then .ok ⟨st.items.set pos (.block isEach name st.items.length), blockStack⟩
          else .error ("Block end does not match start type for " ++ .ofList varName)
        | _ => .error ("Block end does not match start type for " ++ .ofList varName)
  | .var name escape => .ok { st with items := st.items ++ [.var name escape] }

end ParseState

theorem splitOnce_length {ch : Char} {s start rest : List Char} (h : splitOnce ch s = some (start, rest)) :
    rest.length < s.length := by
  fun_induction splitOnce ch s generalizing start with
  | case1 => grind
  | case2 a b tail _ ih =>
    obtain ⟨⟨start', rest'⟩, hrest, heq⟩ := Option.map_eq_some_iff.mp h
    cases heq
    exact Nat.lt_succ_of_lt (ih hrest)
  | case3 => cases h

def parseLoop (fromStr : List Char → Option T) (template : List Char) (st : ParseState T) :
    Except String (ParseState T) :=
  match h : splitOnce '{' template with
  | none => .ok (st.pushStatic template)
  | some (start, rest) =>
    match h' : splitOnce '}' rest with
    | none => .error "Unmatched \x7b\x7b"
    | some (var, rest') => do
      let tag ← readTag fromStr (trim var)
      let st ← (st.pushStatic start).pushTag tag
      parseLoop fromStr rest' st
termination_by template.length
decreasing_by exact Nat.lt_trans (splitOnce_length h') (splitOnce_length h)

def parse (fromStr : List Char → Option T) (template : List Char) : Except String (List (TemplateItem T)) := do
  let st ← parseLoop fromStr template ⟨[], []⟩
  match st.blockStack with
  | [] => .ok st.items
  | (name, _) :: _ => .error ("Unmatched \x7b: " ++ .ofList name)

/-! ## Evaluation -/

def htmlEscape (input : List Char) : List Char :=
  input.flatMap fun c =>
    match c with
    | '&' => ['&', 'a', 'm', 'p', ';']
    | '<' => ['&', 'l', 't', ';']
    | '>' => ['&', 'g', 't', ';']
    | '"' => ['&', 'q', 'u', 'o', 't', ';']
    | '\'' => ['&', '#', '3', '9', ';']
    | c => [c]

def expand (escape : Bool) (value : List Char) : List Char := if escape then htmlEscape value else value

section Eval

variable (items : List (TemplateItem T))

/-- The loops of `eval`, for a number of turns: what a variable says, which names there are, and for a list what it
says and where it goes on. A slice that is out of range is `none`. -/
def evalItems (value : T → Bool → List Char) (has : T → Bool) (each : Nat → T → Nat → Option (List Char × Nat))
    (stop : Nat) : Nat → Nat → Option (List Char)
  | 0, _ => none
  | turns + 1, pos =>
    if pos < stop then
      match items[pos]? with
      | none => none
      | some (.static s) => (evalItems value has each stop turns (pos + 1)).map (s ++ ·)
      | some (.var name escape) => (evalItems value has each stop turns (pos + 1)).map (value name escape ++ ·)
      | some (.block false name blockEnd) =>
        if has name then evalItems value has each stop turns (pos + 1)
        else if blockEnd ≤ stop then evalItems value has each stop turns blockEnd
        else none
      | some (.block true name blockEnd) => do
        let (text, next) ← each pos name blockEnd
        (evalItems value has each stop turns next).map (text ++ ·)
    else some []

def entryValue (entry : T → Option (List Char)) (name : T) (escape : Bool) : List Char :=
  (entry name).elim [] (expand escape)

/-- The slice of a `ForEach`, in which another one is skipped. -/
def evalEntry (entry : T → Option (List Char)) (pos blockEnd : Nat) : Option (List Char) :=
  evalItems items (entryValue entry) (fun name => (entry name).isSome)
    (fun pos _ _ => some ([], pos + 1)) blockEnd (items.length + 1) pos

def varValue (vars : T → Option (Variable T)) (name : T) (escape : Bool) : List Char :=
  match vars name with
  | some (.single value) => expand escape value
  | _ => []

def evalEach (vars : T → Option (Variable T)) (pos : Nat) (name : T) (blockEnd : Nat) :
    Option (List Char × Nat) := do
  let texts ←
    match vars name with
    | some (.block entries) =>
      if pos + 1 ≤ blockEnd ∧ blockEnd ≤ items.length then
        entries.mapM fun entry => evalEntry items entry (pos + 1) blockEnd
      else none
    | _ => some []
  if blockEnd ≤ items.length then some (texts.flatten, blockEnd) else none

def eval (vars : T → Option (Variable T)) : Option (List Char) :=
  evalItems items (varValue vars) (fun name => (vars name).isSome) (evalEach items vars) items.length
    (items.length + 1) 0

end Eval

/-! ## Nested blocks -/

inductive Piece (T : Type) where
  | text (s : List Char)
  | tag (tag : Tag T)

def textPiece (s : List Char) : List (Piece T) := if s = [] then [] else [.text s]

inductive Lexes (fromStr : List Char → Option T) : List Char → List (Piece T) → Prop
  | last {template : List Char} (h : splitOnce '{' template = none) : Lexes fromStr template (textPiece template)
  | tag {template start rest var rest' : List Char} {tag : Tag T} {pieces : List (Piece T)}
      (h : splitOnce '{' template = some (start, rest)) (h' : splitOnce '}' rest = some (var, rest'))
      (htag : readTag fromStr (trim var) = .ok tag) (hrest : Lexes fromStr rest' pieces) :
      Lexes fromStr template (textPiece start ++ .tag tag :: pieces)

/-- What a template says: texts, variables, blocks with their bodies, and ends of no block. -/
inductive Nodes (T : Type) where
  | nil
  | text (s : List Char) (rest : Nodes T)
  | var (name : T) (escape : Bool) (rest : Nodes T)
  | block (isEach : Bool) (varName : List Char) (name : T) (body rest : Nodes T)
  | stray (isEach : Bool) (varName : List Char) (rest : Nodes T)

namespace Nodes

def pieces : Nodes T → List (Piece T)
  | nil => []
  | text s rest => .text s :: rest.pieces
  | var name escape rest => .tag (.var name escape) :: rest.pieces
  | block isEach varName name body rest =>
    .tag (.start isEach varName name) :: (body.pieces ++ .tag (.stop isEach varName) :: rest.pieces)
  | stray isEach varName rest => .tag (.stop isEach varName) :: rest.pieces

def Proper (inside : Bool) : Nodes T → Prop
  | nil => True
  | text _ rest | var _ _ rest => rest.Proper inside
  | block _ _ _ body rest => body.Proper true ∧ rest.Proper inside
  | stray _ _ rest => inside = false ∧ rest.Proper inside

def items (pos : Nat) : Nodes T → List (TemplateItem T)
  | nil => []
  | text s rest => .static s :: rest.items (pos + 1)
  | var name escape rest => .var name escape :: rest.items (pos + 1)
  | block isEach _ name body rest =>
    let inner := body.items (pos + 1)
    .block isEach name (pos + 1 + inner.length) :: (inner ++ rest.items (pos + 1 + inner.length))
  | stray _ _ rest => rest.items pos

def append : Nodes T → Nodes T → Nodes T
  | nil, more => more
  | text s rest, more => text s (rest.append more)
  | var name escape rest, more => var name escape (rest.append more)
  | block isEach varName name body rest, more => block isEach varName name body (rest.append more)
  | stray isEach varName rest, more => stray isEach varName (rest.append more)

attribute [local simp] pieces Proper items append

theorem pieces_append (nodes more : Nodes T) : (nodes.append more).pieces = nodes.pieces ++ more.pieces := by
  induction nodes <;> simp [append, pieces, *]

theorem items_append (nodes more : Nodes T) (pos : Nat) :
    (nodes.append more).items pos = nodes.items pos ++ more.items (pos + (nodes.items pos).length) := by
  induction nodes generalizing pos <;> simp [append, items, *, Nat.add_assoc, Nat.add_comm 1]

theorem proper_append {inside : Bool} {nodes more : Nodes T} (h : nodes.Proper inside)
    (hmore : more.Proper inside) : (nodes.append more).Proper inside := by
  induction nodes <;> grind [append, Proper]

section Denote

variable (value : T → Bool → List Char) (has : T → Bool) (each : T → Nodes T → List Char → List Char)

def denoteWith : Nodes T → List Char
  | nil => []
  | text s rest => s ++ rest.denoteWith
  | var name escape rest => value name escape ++ rest.denoteWith
  | block isEach _ name body rest =>
    (if isEach then each name body body.denoteWith else if has name then body.denoteWith else []) ++
      rest.denoteWith
  | stray _ _ rest => rest.denoteWith

end Denote

/-- What the nodes of a loop say for an entry, which has no lists. A loop among them says what its body says when
`once` holds, as the code has it, and else nothing. -/
def forEntry (once : Bool) (entry : T → Option (List Char)) : Nodes T → List Char :=
  denoteWith (entryValue entry) (fun name => (entry name).isSome) fun _ _ inner => if once then inner else []

def denote (once : Bool) (vars : T → Option (Variable T)) : Nodes T → List Char :=
  denoteWith (varValue vars) (fun name => (vars name).isSome) fun name body _ =>
    match vars name with
    | some (.block entries) => entries.flatMap (body.forEntry once)
    | _ => []

end Nodes

structure Frame (T : Type) where
  isEach : Bool
  varName : List Char
  name : T
  before : Nodes T

def outerItems : List (Frame T) → List (TemplateItem T)
  | [] => []
  | f :: frames => outerItems frames ++ f.before.items (outerItems frames).length ++ [.block f.isEach f.name 0]

def outerPieces : List (Frame T) → List (Piece T)
  | [] => []
  | f :: frames => outerPieces frames ++ f.before.pieces ++ [.tag (.start f.isEach f.varName f.name)]

def outerProper : List (Frame T) → Prop
  | [] => True
  | f :: frames => f.before.Proper (!frames.isEmpty) ∧ outerProper frames

def stackOf : List (Frame T) → List (List Char × Nat)
  | [] => []
  | f :: frames =>
    (f.varName, (outerItems frames ++ f.before.items (outerItems frames).length).length) :: stackOf frames

variable {fromStr : List Char → Option T} {template : List Char} {pieces : List (Piece T)}
  {nodes other : Nodes T}

/-- The state behind some pieces: the open blocks, and what has been read in the innermost one. -/
def At (st : ParseState T) (pieces : List (Piece T)) : Prop :=
  ∃ (frames : List (Frame T)) (nodes : Nodes T),
    st.items = outerItems frames ++ nodes.items (outerItems frames).length ∧
    st.blockStack = stackOf frames ∧ pieces = outerPieces frames ++ nodes.pieces ∧
    nodes.Proper (!frames.isEmpty) ∧ outerProper frames

theorem At.pushStatic {st : ParseState T} (h : At st pieces) (s : List Char) :
    At (st.pushStatic s) (pieces ++ textPiece s) := by
  obtain ⟨frames, nodes, hitems, hstack, rfl, hproper, houter⟩ := h
  by_cases hs : s = []
  · simpa [textPiece, hs, ParseState.pushStatic] using ⟨frames, nodes, hitems, hstack, rfl, hproper, houter⟩
  · refine ⟨frames, nodes.append (.text s .nil), ?_, ?_, ?_, Nodes.proper_append hproper trivial, houter⟩
    · simp [ParseState.pushStatic, hs, hitems, Nodes.items_append, Nodes.items]
    · simp [ParseState.pushStatic, hs, hstack]
    · simp [textPiece, hs, Nodes.pieces_append, Nodes.pieces]

theorem At.pushTag {st st' : ParseState T} {tag : Tag T} (h : At st pieces) (hpush : st.pushTag tag = .ok st') :
    At st' (pieces ++ [.tag tag]) := by
  obtain ⟨frames, nodes, hitems, hstack, rfl, hproper, houter⟩ := h
  cases tag with
  | start isEach varName name =>
    cases hpush
    refine ⟨⟨isEach, varName, name, nodes⟩ :: frames, .nil, ?_, ?_, ?_, trivial, hproper, houter⟩
    · simp [outerItems, hitems, Nodes.items]
    · simp [stackOf, hitems, hstack]
    · simp [outerPieces, Nodes.pieces]
  | var name escape =>
    cases hpush
    refine ⟨frames, nodes.append (.var name escape .nil), ?_, hstack, ?_,
      Nodes.proper_append hproper trivial, houter⟩
    · simp [hitems, Nodes.items_append, Nodes.items]
    · simp [Nodes.pieces_append, Nodes.pieces]
  | stop isEach varName =>
    cases frames with
    | nil =>
      rw [ParseState.pushTag, hstack] at hpush
      cases hpush
      refine ⟨[], nodes.append (.stray isEach varName .nil), ?_, hstack, ?_,
        Nodes.proper_append hproper ⟨rfl, trivial⟩, trivial⟩
      · simp [hitems, Nodes.items_append, Nodes.items]
      · simp [Nodes.pieces_append, Nodes.pieces]
    | cons f frames =>
      obtain ⟨hbefore, houter⟩ := houter
      obtain ⟨front, hfront⟩ : ∃ front, outerItems frames ++ f.before.items (outerItems frames).length = front :=
        ⟨_, rfl⟩
      simp only [outerItems, hfront] at hitems
      rw [stackOf, hfront] at hstack
      have hget : st.items[front.length]? = some (.block f.isEach f.name 0) := by simp [hitems]
      simp only [ParseState.pushTag, hstack, hget] at hpush
      split at hpush
      · cases hpush
      rename_i hname
      split at hpush
      · rename_i heach
        subst heach
        cases hpush
        obtain rfl : f.varName = varName := not_not.mp hname
        refine ⟨frames, f.before.append (.block f.isEach f.varName f.name nodes .nil), ?_, rfl, ?_,
          Nodes.proper_append hbefore ⟨hproper, trivial⟩, houter⟩
        · have hlength := congrArg length hfront
          rw [length_append] at hlength
          rw [Nodes.items_append, ← append_assoc, hfront, hlength]
          simp [Nodes.items, hitems]
          omega
        · simp [outerPieces, Nodes.pieces_append, Nodes.pieces]
      · cases hpush

theorem At.parseLoop {st st' : ParseState T} (h : At st pieces)
    (hparse : parseLoop fromStr template st = .ok st') :
    ∃ more, Lexes fromStr template more ∧ At st' (pieces ++ more) := by
  fun_induction Template.parseLoop fromStr template st generalizing pieces with
  | case1 template st hopen =>
    cases hparse
    exact ⟨_, .last hopen, h.pushStatic template⟩
  | case2 => cases hparse
  | case3 template st start rest hopen var rest' hclose ih =>
    obtain ⟨tag, htag, hparse⟩ := Fallible.bind_eq_ok.mp hparse
    obtain ⟨next, hpush, hparse⟩ := Fallible.bind_eq_ok.mp hparse
    obtain ⟨more, hlexes, hat⟩ := ih next ((h.pushStatic start).pushTag hpush) hparse
    exact ⟨_, .tag hopen hclose htag hlexes, by simpa using hat⟩

theorem exists_nodes {items : List (TemplateItem T)} (h : parse fromStr template = .ok items) :
    ∃ nodes : Nodes T, Lexes fromStr template nodes.pieces ∧ nodes.Proper false ∧ items = nodes.items 0 := by
  obtain ⟨st, hparse, hst⟩ := Fallible.bind_eq_ok.mp h
  have hstart : At (⟨[], []⟩ : ParseState T) [] := ⟨[], .nil, rfl, rfl, rfl, trivial, trivial⟩
  obtain ⟨pieces, hlexes, frames, nodes, hitems, hstack, rfl, hproper, -⟩ := hstart.parseLoop hparse
  cases frames with
  | nil =>
    rw [hstack] at hst
    cases hst
    exact ⟨nodes, hlexes, hproper, hitems⟩
  | cons f frames =>
    rw [hstack] at hst
    cases hst

/-! ## Jumps -/

section

variable {L : List (TemplateItem T)} {value : T → Bool → List Char} {has : T → Bool}
  {each : Nat → T → Nat → Option (List Char × Nat)} {shown : T → Nodes T → List Char → List Char} {stop : Nat}

attribute [local simp] evalItems Nodes.denoteWith

theorem next_item {item : TemplateItem T} {more : List (TemplateItem T)} {pos : Nat}
    (h : L.drop pos = item :: more) : L[pos]? = some item ∧ L.drop (pos + 1) = more :=
  ⟨by rw [← head?_drop, h, head?_cons], by rw [← tail_drop, h, tail_cons]⟩

/-- A list goes on in its body, or behind it. -/
def Follows (L : List (TemplateItem T)) (each : Nat → T → Nat → Option (List Char × Nat))
    (shown : T → Nodes T → List Char → List Char) (stop : Nat) : Prop :=
  ∀ {pos blockEnd : Nat} {body : Nodes T} {tail : List (TemplateItem T)} (name : T),
    L.drop (pos + 1) = body.items (pos + 1) ++ tail → pos + 1 + (body.items (pos + 1)).length = blockEnd →
    blockEnd ≤ stop → (each pos name blockEnd = some ([], pos + 1) ∧ ∀ inner, shown name body inner = inner) ∨
      ∃ text, each pos name blockEnd = some (text, blockEnd) ∧ ∀ inner, shown name body inner = text

theorem evalItems_items (heach : Follows L each shown stop) (nodes : Nodes T) {tail : List (TemplateItem T)}
    {pos last more turns : Nat} {out : List Char} (h : L.drop pos = nodes.items pos ++ tail)
    (hlast : pos + (nodes.items pos).length = last) (hstop : last ≤ stop) (hturns : last - pos + more ≤ turns)
    (hrest : ∀ left, more ≤ left → evalItems L value has each stop left last = some out) :
    evalItems L value has each stop turns pos = some (nodes.denoteWith value has shown ++ out) := by
  induction nodes generalizing pos turns tail last more out with
  | nil =>
    subst hlast
    exact hrest turns (by omega)
  | stray _ _ rest ih => exact ih h hlast hstop hturns hrest
  | text s rest ih | var name escape rest ih =>
    obtain ⟨hget, hdrop⟩ := next_item h
    rw [Nodes.items, length_cons] at hlast
    obtain ⟨turns, rfl⟩ : ∃ t, turns = t + 1 := ⟨turns - 1, by omega⟩
    have hnext := ih hdrop (by omega) hstop (show last - (pos + 1) + more ≤ turns by omega) hrest
    simp [evalItems, hget, hnext, Nodes.denoteWith, show pos < stop by omega]
  | block isEach varName name body rest ihbody ih =>
    obtain ⟨hget, hdrop⟩ := next_item h
    simp only [Nodes.items, length_cons, length_append] at hlast
    obtain ⟨turns, rfl⟩ : ∃ t, turns = t + 1 := ⟨turns - 1, by omega⟩
    obtain ⟨mid, hmid⟩ : ∃ mid, pos + 1 + (body.items (pos + 1)).length = mid := ⟨_, rfl⟩
    simp only [hmid, append_eq, append_assoc] at hget hdrop hlast
    have hafter : L.drop mid = rest.items mid ++ tail := by
      rw [← hmid, ← drop_drop, hdrop, hmid, drop_left]
    have hskip (left : Nat) (hleft : last - mid + more ≤ left) := ih hafter (by omega) hstop hleft hrest
    have hleft : mid - (pos + 1) + (last - mid + more) ≤ turns := by omega
    have hinner := ihbody hdrop hmid (by omega) hleft hskip
    have hpos : pos < stop := by omega
    cases isEach with
    | true =>
      obtain ⟨hnext, hsays⟩ | ⟨text, hnext, hsays⟩ := heach name hdrop hmid (by omega)
      · simp [evalItems, hget, hnext, hinner, Nodes.denoteWith, hpos, hsays]
      · simp [evalItems, hget, hnext, hskip turns (by omega), Nodes.denoteWith, hpos, hsays]
    | false =>
      by_cases hhas : has name
      · simp [evalItems, hget, hinner, Nodes.denoteWith, hpos, hhas]
      · have hle : mid ≤ stop := by omega
        simp [evalItems, hget, hskip turns (by omega), Nodes.denoteWith, hpos, hhas, hle]

theorem evalItems_stop {pos last : Nat} (heach : Follows L each shown last) (nodes : Nodes T)
    {tail : List (TemplateItem T)} (h : L.drop pos = nodes.items pos ++ tail)
    (hlast : pos + (nodes.items pos).length = last) (hle : last ≤ L.length) :
    evalItems L value has each last (L.length + 1) pos = some (nodes.denoteWith value has shown) := by
  rw [← append_nil (nodes.denoteWith value has shown)]
  have hturns : last - pos + 1 ≤ L.length + 1 := by omega
  refine evalItems_items heach nodes h hlast (Nat.le_refl last) hturns fun left hleft => ?_
  obtain ⟨left, rfl⟩ : ∃ l, left = l + 1 := ⟨left - 1, by omega⟩
  simp [evalItems]

end

theorem follows_entry {L : List (TemplateItem T)} {stop : Nat} :
    Follows L (fun pos _ _ => some ([], pos + 1)) (fun _ _ inner => if true then inner else []) stop :=
  fun _ _ _ _ => .inl ⟨rfl, fun _ => rfl⟩

theorem eval_items (nodes : Nodes T) (vars : T → Option (Variable T)) :
    eval (nodes.items 0) vars = some (nodes.denote true vars) := by
  refine evalItems_stop ?_ nodes (append_nil _).symm (Nat.zero_add _) (Nat.le_refl _)
  intro pos blockEnd body tail name hdrop hend hle
  have hentry (entry : T → Option (List Char)) :
      evalEntry (nodes.items 0) entry (pos + 1) blockEnd = some (body.forEntry true entry) :=
    evalItems_stop follows_entry body hdrop hend hle
  have hpos : pos + 1 ≤ blockEnd := by omega
  refine .inr ⟨_, ?_, fun _ => rfl⟩
  cases hvar : vars name with
  | none => simp [evalEach, hvar, hle]
  | some value =>
    cases value with
    | single value => simp [evalEach, hvar, hle]
    | block entries =>
      have htexts : (entries.mapM fun entry => evalEntry (nodes.items 0) entry (pos + 1) blockEnd) =
          some (entries.map (body.forEntry true)) := by
        rw [funext hentry]
        exact mapM_pure
      simp [evalEach, hvar, hle, hpos, htexts, flatMap]

/-! ## Loops in loops -/

theorem append_eq_append_iff {a b c d : List Char} (hab : b.length ≤ a.length) (hcd : d.length ≤ c.length) :
    a ++ c = b ++ d ↔ a = b ∧ c = d := by
  constructor
  · intro h
    have hlength := congrArg length h
    rw [length_append, length_append] at hlength
    exact append_inj h (by omega)
  · rintro ⟨rfl, rfl⟩
    rfl

theorem expand_eq_nil {escape : Bool} {value : List Char} : expand escape value = [] ↔ value = [] := by
  cases value with
  | nil => simp [expand, htmlEscape]
  | cons c value =>
    cases escape with
    | false => simp [expand]
    | true =>
      simp only [expand, htmlEscape, flatMap_cons, if_true]
      split <;> simp

namespace Nodes

variable {entry : T → Option (List Char)}

def Silent (entry : T → Option (List Char)) : Nodes T → Prop
  | nil => True
  | text s rest => s = [] ∧ rest.Silent entry
  | var name _ rest => (entry name).getD [] = [] ∧ rest.Silent entry
  | block isEach _ name body rest => (isEach ∨ (entry name).isSome → body.Silent entry) ∧ rest.Silent entry
  | stray _ _ rest => rest.Silent entry

def QuietWith (has : T → Bool) (quiet : T → Nodes T → Prop) : Nodes T → Prop
  | nil => True
  | text _ rest | var _ _ rest | stray _ _ rest => rest.QuietWith has quiet
  | block isEach _ name body rest =>
    (if isEach then quiet name body else has name → body.QuietWith has quiet) ∧ rest.QuietWith has quiet

/-- The loops among the nodes of a loop say nothing for an entry. -/
def Quiet (entry : T → Option (List Char)) : Nodes T → Prop :=
  QuietWith (fun name => (entry name).isSome) fun _ body => body.Silent entry

def QuietLoops (vars : T → Option (Variable T)) : Nodes T → Prop :=
  QuietWith (fun name => (vars name).isSome) fun name body =>
    ∀ entries, vars name = some (.block entries) → ∀ entry ∈ entries, body.Quiet entry

theorem forEntry_eq_nil (nodes : Nodes T) : nodes.forEntry true entry = [] ↔ nodes.Silent entry := by
  simp only [forEntry, if_true]
  induction nodes with
  | nil => simp [denoteWith, Silent]
  | text s rest ih => simp [denoteWith, Silent, ih]
  | stray _ _ rest ih => exact ih
  | var name escape rest ih =>
    cases hvalue : entry name <;> simp [denoteWith, Silent, ih, entryValue, hvalue, expand_eq_nil]
  | block isEach varName name body rest ihbody ih =>
    cases isEach <;> simp_all [denoteWith, Silent]

theorem denoteWith_eq {value : T → Bool → List Char} {has : T → Bool}
    {each each' : T → Nodes T → List Char → List Char} {quiet : T → Nodes T → Prop} (nodes : Nodes T)
    (hle : ∀ name body, (each' name body (body.denoteWith value has each')).length ≤
      (each name body (body.denoteWith value has each)).length)
    (heq : ∀ name body, each name body (body.denoteWith value has each) =
      each' name body (body.denoteWith value has each') ↔ quiet name body) :
    (nodes.denoteWith value has each').length ≤ (nodes.denoteWith value has each).length ∧
      (nodes.denoteWith value has each = nodes.denoteWith value has each' ↔ nodes.QuietWith has quiet) := by
  induction nodes with
  | nil => simp [denoteWith, QuietWith]
  | text s rest ih | var name escape rest ih => simpa [denoteWith, QuietWith] using ih
  | stray _ _ rest ih => exact ih
  | block isEach varName name body rest ihbody ih =>
    cases isEach with
    | true =>
      have hlength := hle name body
      constructor
      · simp [denoteWith]
        omega
      · simp [denoteWith, QuietWith, append_eq_append_iff hlength ih.1, heq, ih.2]
    | false =>
      by_cases hhas : has name
      · constructor
        · simp [denoteWith, hhas]
          omega
        · simp [denoteWith, QuietWith, hhas, append_eq_append_iff ihbody.1 ih.1, ihbody.2, ih.2]
      · simpa [denoteWith, QuietWith, hhas] using ih

theorem forEntry_eq (nodes : Nodes T) :
    (nodes.forEntry false entry).length ≤ (nodes.forEntry true entry).length ∧
      (nodes.forEntry true entry = nodes.forEntry false entry ↔ nodes.Quiet entry) :=
  denoteWith_eq nodes (fun _ _ => Nat.zero_le _) fun _ body => forEntry_eq_nil body

theorem flatMap_forEntry (nodes : Nodes T) (entries : List (T → Option (List Char))) :
    (entries.flatMap (nodes.forEntry false)).length ≤ (entries.flatMap (nodes.forEntry true)).length ∧
      (entries.flatMap (nodes.forEntry true) = entries.flatMap (nodes.forEntry false) ↔
        ∀ entry ∈ entries, nodes.Quiet entry) := by
  induction entries with
  | nil => simp
  | cons entry entries ih =>
    obtain ⟨hle, heq⟩ := @forEntry_eq T entry nodes
    constructor
    · simp only [flatMap_cons, length_append]
      omega
    · simp [append_eq_append_iff hle ih.1, heq, ih.2]

theorem denote_eq (nodes : Nodes T) (vars : T → Option (Variable T)) :
    nodes.denote true vars = nodes.denote false vars ↔ nodes.QuietLoops vars := by
  refine (denoteWith_eq nodes ?_ ?_).2
  · intro name body
    split
    · exact (flatMap_forEntry body _).1
    · exact Nat.le_refl _
  · intro name body
    cases hvar : vars name with
    | none => simp
    | some value => cases value <;> simp [flatMap_forEntry]

end Nodes

def entities : List (List Char) :=
  [['&', 'a', 'm', 'p', ';'], ['&', 'l', 't', ';'], ['&', 'g', 't', ';'], ['&', 'q', 'u', 'o', 't', ';'],
    ['&', '#', '3', '9', ';']]

/-- Entities and other characters than those that need one. -/
inductive Escaped : List Char → Prop
  | nil : Escaped []
  | entity {text rest : List Char} (h : text ∈ entities) (hrest : Escaped rest) : Escaped (text ++ rest)
  | char {c : Char} {rest : List Char} (h : c ∉ ['<', '>', '"', '\'', '&']) (hrest : Escaped rest) :
    Escaped (c :: rest)

theorem escaped_htmlEscape (input : List Char) : Escaped (htmlEscape input) := by
  induction input with
  | nil => exact .nil
  | cons c input ih =>
    rw [htmlEscape, flatMap_cons]
    split
    case h_6 => exact .char (by simp_all) ih
    all_goals exact .entity (by simp [entities]) ih

theorem Lexes.unique {pieces' : List (Piece T)} (h : Lexes fromStr template pieces)
    (h' : Lexes fromStr template pieces') : pieces = pieces' := by
  induction h generalizing pieces' with
  | last hnone =>
    cases h' with
    | last => rfl
    | tag hopen => simp [hnone] at hopen
  | tag hopen hclose htag _ ih =>
    cases h' with
    | last hnone => simp [hopen] at hnone
    | tag hopen' hclose' htag' hrest =>
      cases hopen.symm.trans hopen'
      cases hclose.symm.trans hclose'
      cases htag.symm.trans htag'
      rw [ih hrest]

def Ends : Bool → List (Piece T) → Prop
  | true, .tag (.stop _ _) :: _ => True
  | false, [] => True
  | _, _ => False

theorem Nodes.pieces_inj {inside : Bool} {after after' : List (Piece T)}
    (heq : nodes.pieces ++ after = other.pieces ++ after') (h : nodes.Proper inside) (hother : other.Proper inside)
    (hafter : Ends inside after) (hafter' : Ends inside after') : nodes = other ∧ after = after' := by
  induction nodes generalizing other inside after after' with
  | nil | text | var | stray => cases other <;> grind [pieces, Ends, Proper]
  | block isEach varName name body rest ihbody ih =>
    cases other with
    | block isEach' varName' name' body' rest' =>
      simp only [pieces, cons_append, append_assoc, cons.injEq, Piece.tag.injEq, Tag.start.injEq] at heq
      obtain ⟨⟨rfl, rfl, rfl⟩, heq⟩ := heq
      obtain ⟨rfl, hrest⟩ := ihbody heq h.1 hother.1 trivial trivial
      obtain ⟨rfl, rfl⟩ := ih (cons.inj hrest).2 h.2 hother.2 hafter hafter'
      exact ⟨rfl, rfl⟩
    | _ => grind [pieces, Ends, Proper]

theorem nodes_unique (h : Lexes fromStr template nodes.pieces) (hproper : nodes.Proper false)
    (hother : Lexes fromStr template other.pieces) (hproper' : other.Proper false) : other = nodes :=
  (Nodes.pieces_inj (congrArg (· ++ []) (hother.unique h)) hproper' hproper trivial trivial).1

theorem template_exact {fromStr : List Char → Option T} {template : List Char} {items : List (TemplateItem T)}
    (h : parse fromStr template = .ok items) :
    ∃ nodes : Nodes T,
      (∀ other : Nodes T, Lexes fromStr template other.pieces ∧ other.Proper false ↔ other = nodes) ∧
      (∀ vars, (eval items vars).isSome ∧
        (eval items vars = some (nodes.denote false vars) ↔ nodes.QuietLoops vars)) ∧
      ∀ value, Escaped (expand true value) := by
  obtain ⟨nodes, hlexes, hproper, rfl⟩ := exists_nodes h
  refine ⟨nodes, fun other => ⟨?_, ?_⟩, fun vars => ?_, escaped_htmlEscape⟩
  · rintro ⟨hother, hproper'⟩
    exact nodes_unique hlexes hproper hother hproper'
  · rintro rfl
    exact ⟨hlexes, hproper⟩
  · rw [eval_items, Option.some_inj, Nodes.denote_eq]
    exact ⟨rfl, Iff.rfl⟩

/-! ## A loop in a loop -/

def nested : List Char :=
  "\x7b\x7b#each a\x7d\x7d\x7b\x7b#each b\x7d\x7dx\x7b\x7b/each b\x7d\x7d\x7b\x7b/each a\x7d\x7d".toList

def nestedNodes : Nodes (List Char) :=
  .block true ['a'] ['a'] (.block true ['b'] ['b'] (.text ['x'] .nil) .nil) .nil

theorem parseLoop_last {st : ParseState T} (h : splitOnce '{' template = none) :
    parseLoop fromStr template st = .ok (st.pushStatic template) := by
  rw [parseLoop]
  split
  · rfl
  · simp_all

theorem parseLoop_tag {start rest var rest' : List Char} {tag : Tag T} {st next : ParseState T}
    (h : splitOnce '{' template = some (start, rest)) (h' : splitOnce '}' rest = some (var, rest'))
    (htag : readTag fromStr (trim var) = .ok tag) (hpush : (st.pushStatic start).pushTag tag = .ok next) :
    parseLoop fromStr template st = parseLoop fromStr rest' next := by
  rw [parseLoop]
  split
  · simp_all
  · rename_i hopen
    cases h.symm.trans hopen
    split
    · simp_all
    · rename_i hclose
      cases h'.symm.trans hclose
      simp [htag, hpush, bind, Except.bind]

theorem parse_nested : parse some nested = .ok (nestedNodes.items 0) := by
  have hrun : parseLoop some nested ⟨[], []⟩ = .ok ⟨nestedNodes.items 0, []⟩ :=
    (parseLoop_tag rfl rfl rfl rfl).trans <| (parseLoop_tag rfl rfl rfl rfl).trans <|
      (parseLoop_tag rfl rfl rfl rfl).trans <| (parseLoop_tag rfl rfl rfl rfl).trans <| parseLoop_last rfl
  rw [parse, hrun]
  rfl

theorem template_exact_nested : ∃ nodes : Nodes (List Char),
    (∀ other : Nodes (List Char), Lexes some nested other.pieces ∧ other.Proper false ↔ other = nodes) ∧
      (∀ vars, (eval (nestedNodes.items 0) vars).isSome ∧
        (eval (nestedNodes.items 0) vars = some (nodes.denote false vars) ↔ nodes.QuietLoops vars)) ∧
      ∀ value, Escaped (expand true value) :=
  template_exact parse_nested

def nestedVars (name : List Char) : Option (Variable (List Char)) :=
  if name = ['a'] then some (.block [fun _ => none]) else none

/-- The loop inside of the loop has nothing to run over, and its text is there. -/
theorem not_template_exact : ∃ items, parse some nested = .ok items ∧ eval items nestedVars = some ['x'] ∧
    ∀ nodes : Nodes (List Char), Lexes some nested nodes.pieces → nodes.Proper false →
      eval items nestedVars ≠ some (nodes.denote false nestedVars) := by
  refine ⟨nestedNodes.items 0, parse_nested, rfl, fun nodes hnodes hproper => ?_⟩
  obtain ⟨pieces, hlexes, hpieces⟩ : ∃ pieces, Lexes some nested pieces ∧ pieces = nestedNodes.pieces :=
    ⟨_, .tag rfl rfl rfl (.tag rfl rfl rfl (.tag rfl rfl rfl (.tag rfl rfl rfl (.last rfl)))), rfl⟩
  rw [hpieces] at hlexes
  obtain rfl := nodes_unique hlexes ⟨⟨trivial, trivial⟩, trivial⟩ hnodes hproper
  decide

/-! ## What is accepted -/

def ParseState.pushAll (st : ParseState T) : List (Piece T) → Except String (ParseState T)
  | [] => .ok st
  | .text s :: pieces => (st.pushStatic s).pushAll pieces
  | .tag tag :: pieces => do
    let st ← st.pushTag tag
    st.pushAll pieces

theorem pushAll_textPiece (st : ParseState T) (s : List Char) (pieces : List (Piece T)) :
    st.pushAll (textPiece s ++ pieces) = (st.pushStatic s).pushAll pieces := by
  by_cases hs : s = [] <;> simp [textPiece, hs, ParseState.pushAll, ParseState.pushStatic]

theorem parseLoop_of_lexes {st st' : ParseState T} (h : Lexes fromStr template pieces)
    (hpush : st.pushAll pieces = .ok st') : parseLoop fromStr template st = .ok st' := by
  induction h generalizing st with
  | last hnone =>
    rw [parseLoop_last hnone, ← hpush]
    simpa [ParseState.pushAll] using (pushAll_textPiece st _ []).symm
  | tag hopen hclose htag _ ih =>
    rw [pushAll_textPiece] at hpush
    obtain ⟨next, hnext, hrest⟩ := Fallible.bind_eq_ok.mp hpush
    rw [parseLoop_tag hopen hclose htag hnext]
    exact ih hrest

theorem Lexes.text_ne_nil (h : Lexes fromStr template pieces) : .text [] ∉ pieces := by
  induction h with
  | last => grind [textPiece]
  | tag => grind [textPiece]

/-- The nodes inside of the blocks of the stack are read, and then what follows them. -/
theorem pushAll_nodes (nodes : Nodes T) {items : List (TemplateItem T)} {blockStack : List (List Char × Nat)}
    (h : nodes.Proper (!blockStack.isEmpty)) (htext : .text [] ∉ nodes.pieces) (more : List (Piece T)) :
    ParseState.pushAll ⟨items, blockStack⟩ (nodes.pieces ++ more) =
      ParseState.pushAll ⟨items ++ nodes.items items.length, blockStack⟩ more := by
  induction nodes generalizing items blockStack more with
  | nil => simp [Nodes.pieces, Nodes.items]
  | text s rest ih =>
    simp only [Nodes.pieces, mem_cons, not_or, Piece.text.injEq] at htext
    have hs : s ≠ [] := fun hs => htext.1 hs.symm
    simp [Nodes.pieces, Nodes.items, ParseState.pushAll, ParseState.pushStatic, hs, ih h htext.2]
  | var name escape rest ih =>
    have htext : .text [] ∉ rest.pieces := fun hmem => htext (mem_cons_of_mem _ hmem)
    simp [Nodes.pieces, Nodes.items, ParseState.pushAll, ParseState.pushTag, bind, Except.bind, ih h htext]
  | stray isEach varName rest ih =>
    have htext : .text [] ∉ rest.pieces := fun hmem => htext (mem_cons_of_mem _ hmem)
    obtain rfl : blockStack = [] := by simpa using h.1
    simp [Nodes.pieces, Nodes.items, ParseState.pushAll, ParseState.pushTag, bind, Except.bind, ih h.2 htext]
  | block isEach varName name body rest ihbody ih =>
    simp only [Nodes.pieces, mem_cons, mem_append, not_or] at htext
    obtain ⟨-, hbody, -, hrest⟩ := htext
    have hinner := @ihbody (items ++ [.block isEach name 0]) ((varName, items.length) :: blockStack) h.1 hbody
    have hafter := @ih (items ++ Nodes.items items.length (.block isEach varName name body .nil)) blockStack h.2
      hrest more
    simpa [Nodes.pieces, Nodes.items, ParseState.pushAll, ParseState.pushTag, bind, Except.bind, hinner,
      Nat.add_assoc, Nat.add_comm 1] using hafter

/-- A template is accepted exactly when it is well nested: each block has its end, an end is of the innermost
block, or of none. -/
theorem parse_eq_ok_iff {items : List (TemplateItem T)} : parse fromStr template = .ok items ↔
    ∃ nodes : Nodes T, Lexes fromStr template nodes.pieces ∧ nodes.Proper false ∧ items = nodes.items 0 := by
  refine ⟨exists_nodes, ?_⟩
  rintro ⟨nodes, hlexes, hproper, rfl⟩
  have hpush := @pushAll_nodes T nodes [] [] hproper hlexes.text_ne_nil []
  rw [append_nil] at hpush
  rw [parse, parseLoop_of_lexes hlexes hpush]
  rfl

end Bearmail.Utils.Template
