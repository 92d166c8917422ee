import Bearmail.Imap.SearchTree

/-!
# Incomplete searches

Which groups are open after some items is told by `opened`: a key completes the OR
and NOT groups that were waiting for it, and a closing parenthesis closes the
innermost open group, whatever it is, as the parser does.
-/

namespace Bearmail.Imap

open Nested (Op Forest)
open List

/-- A group still open. An OR may have its first operand. -/
inductive OpenGroup where
  | list
  | or (half : Bool)
  | not
  deriving DecidableEq

def received : List OpenGroup → List OpenGroup
  | .or false :: stack => .or true :: stack
  | .or true :: stack => received stack
  | .not :: stack => received stack
  | .list :: stack => .list :: stack
  | [] => []

def opened (stack : List OpenGroup) : Item Criterion → List OpenGroup
  | .leaf _ => received stack
  | .or => .or false :: stack
  | .not => .not :: stack
  | .parenthesisOpen => .list :: stack
  | .parenthesisClose => received stack.tail

/-- What the parser checks: no parenthesis is closed when nothing is open, and no group is
opened inside eleven others. -/
def RefusedAt (stack : List OpenGroup) : Item Criterion → Prop
  | .leaf _ => False
  | .parenthesisClose => stack = []
  | _ => 10 < stack.length

def Refused : List OpenGroup → List (Item Criterion) → Prop
  | _, [] => False
  | stack, item :: items => RefusedAt stack item ∨ Refused (opened stack item) items

def OrderlyAt (stack : List OpenGroup) (afterOpen : Bool) : Item Criterion → Prop
  | .parenthesisClose => stack.head? = some .list ∧ afterOpen = false
  | _ => True

def isOpening : Item Criterion → Bool
  | .parenthesisOpen => true
  | _ => false

/-- Every parenthesis closes such a list, and nothing is open at the end. -/
def Orderly : List OpenGroup → Bool → List (Item Criterion) → Prop
  | stack, _, [] => stack = []
  | stack, afterOpen, item :: items =>
    OrderlyAt stack afterOpen item ∧ Orderly (opened stack item) (isOpening item) items

/-! ## The parser keeps the open groups -/

def OpenGroup.Fits (g : Group) : OpenGroup → Prop
  | .list => g.operator = .and
  | .or false => g.operator = .or ∧ g.filtersLen = 0
  | .or true => g.operator = .or ∧ g.filtersLen = 1
  | .not => g.operator = .not ∧ g.filtersLen = 0

/-- The groups of the parser are those of the stack, and a last one for the whole search. -/
def Keeps : List OpenGroup → Group → List Group → Prop
  | [], g, stack => g.operator = .and ∧ stack = []
  | o :: os, g, stack => o.Fits g ∧ ∃ prev rest, stack = prev :: rest ∧ Keeps os prev rest

variable {os : List OpenGroup} {g : Group} {stack : List Group}

theorem Keeps.length (h : Keeps os g stack) : stack.length = os.length := by
  induction os generalizing g stack with
  | nil => rw [h.2]; rfl
  | cons o os ih =>
    obtain ⟨-, prev, rest, rfl, hrest⟩ := h
    simp [ih hrest]

theorem Keeps.waiting (h : Keeps os g stack) : g.Waiting := by
  cases os with
  | nil => exact Or.inl h.1
  | cons o os =>
    have hfit := h.1
    cases o with
    | list => exact Or.inl hfit
    | or half =>
      cases half with
      | false | true => exact Or.inr (Or.inl ⟨hfit.1, by rw [hfit.2]; omega⟩)
    | not => exact Or.inr (Or.inr hfit)

theorem Keeps.after_key {g' : Group} (h : Keeps os g stack) (hop : g'.operator = g.operator)
    (hlen : g.operator = .or → g'.filtersLen = g.filtersLen + 1) :
    Keeps (received os) (Parser.received g' stack).group (Parser.received g' stack).filtersStack := by
  induction os generalizing g g' stack with
  | nil =>
    obtain ⟨hand, rfl⟩ := h
    rw [Parser.received_open (Or.inl (hop.trans hand))]
    exact ⟨hop.trans hand, rfl⟩
  | cons o os ih =>
    obtain ⟨hfit, prev, rest, rfl, hrest⟩ := h
    have hinto : ∀ op, op ≠ .and → g'.operator = op →
        (g'.into prev).operator = prev.operator ∧ (g'.into prev).filtersLen = prev.filtersLen + 1 := by
      intro op hne heq
      have hno : ¬ (g'.operator = .and ∧ (prev.operator ≠ .or ∨ g'.filtersLen = 1)) := by
        rw [heq]
        exact fun hc => hne hc.1
      rw [Group.into, if_neg hno]
      exact ⟨rfl, rfl⟩
    cases o with
    | list =>
      rw [Parser.received_open (Or.inl (hop.trans hfit))]
      exact ⟨hop.trans hfit, prev, rest, rfl, hrest⟩
    | or half =>
      have hor : g'.operator = .or := by cases half <;> exact hop.trans hfit.1
      cases half with
      | false =>
        have hone : g'.filtersLen = 1 := by rw [hlen hfit.1, hfit.2]
        rw [Parser.received_open (Or.inr ⟨hor, by omega⟩)]
        exact ⟨⟨hor, hone⟩, prev, rest, rfl, hrest⟩
      | true =>
        have htwo : g'.filtersLen = 2 := by rw [hlen hfit.1, hfit.2]
        have hfull : ¬ (g'.operator = .and ∨ (g'.operator = .or ∧ g'.filtersLen < 2)) := by
          rw [hor, htwo]
          simp
        obtain ⟨hop', hlen'⟩ := hinto .or (by decide) hor
        rw [Parser.received_full hfull]
        exact ih hrest hop' fun _ => hlen'
    | not =>
      have hnot : g'.operator = .not := hop.trans hfit.1
      have hfull : ¬ (g'.operator = .and ∨ (g'.operator = .or ∧ g'.filtersLen < 2)) := by
        rw [hnot]
        simp
      obtain ⟨hop', hlen'⟩ := hinto .not (by decide) hnot
      rw [Parser.received_full hfull]
      exact ih hrest hop' fun _ => hlen'

theorem Keeps.push (h : Keeps os g stack) {o : OpenGroup} {op : Op} (hfit : o.Fits (.new op))
    (hroom : ¬ 10 < os.length) :
    ∃ s', Parser.push ⟨g, stack⟩ op = .ok s' ∧ Keeps (o :: os) s'.group s'.filtersStack := by
  have hlen := h.length
  exact ⟨_, Parser.push_ok g (by omega) op, hfit, g, stack, rfl, h⟩

theorem Keeps.close {o : OpenGroup} (h : Keeps (o :: os) g stack) :
    Keeps (received os) (Parser.settle ⟨g, stack⟩ true).group
      (Parser.settle ⟨g, stack⟩ true).filtersStack := by
  obtain ⟨-, prev, rest, rfl, hrest⟩ := h
  refine Keeps.after_key hrest ?_ ?_
  · unfold Group.into
    split <;> rfl
  · intro hor
    unfold Group.into
    split
    · rename_i hand
      have hone : g.filtersLen = 1 := by
        rcases hand.2 with hne | hone
        · exact absurd hor hne
        · exact hone
      simp only [hone]
      omega
    · rfl

theorem step_cases (h : Keeps os g stack) (item : Item Criterion) :
    (RefusedAt os item ∧ ∃ e, Parser.step ⟨g, stack⟩ item = .error e) ∨
      (¬ RefusedAt os item ∧ ∃ s', Parser.step ⟨g, stack⟩ item = .ok s' ∧
        Keeps (opened os item) s'.group s'.filtersStack) := by
  have hpush : ∀ (o : OpenGroup) (op : Op), o.Fits (.new op) →
      (10 < os.length ∧ ∃ e, Parser.push ⟨g, stack⟩ op = .error e) ∨
        (¬ 10 < os.length ∧ ∃ s', Parser.push ⟨g, stack⟩ op = .ok s' ∧
          Keeps (o :: os) s'.group s'.filtersStack) := by
    intro o op hfit
    by_cases hdeep : 10 < os.length
    · have hlen : stack.length > 10 := by
        rw [h.length]
        exact hdeep
      exact Or.inl ⟨hdeep, _, if_pos hlen⟩
    · exact Or.inr ⟨hdeep, h.push hfit hdeep⟩
  cases item with
  | leaf c =>
    refine Or.inr ⟨id, _, rfl, ?_⟩
    rw [Parser.settle_add h.waiting]
    exact Keeps.after_key h rfl fun _ => rfl
  | or => exact hpush (.or false) .or ⟨rfl, rfl⟩
  | not => exact hpush .not .not ⟨rfl, rfl⟩
  | parenthesisOpen => exact hpush .list .and rfl
  | parenthesisClose =>
    cases os with
    | nil =>
      obtain ⟨-, rfl⟩ := h
      exact Or.inl ⟨rfl, [.text "Unexpected parenthesis."], rfl⟩
    | cons o os =>
      have hne : stack ≠ [] := by
        obtain ⟨-, prev, rest, rfl, -⟩ := h
        simp
      exact Or.inr ⟨by simp [RefusedAt], _, if_neg hne, h.close⟩

theorem run_ok_iff (h : Keeps os g stack) (items : List (Item Criterion)) :
    (∃ s', Parser.run ⟨g, stack⟩ items = .ok s') ↔ ¬ Refused os items := by
  induction items generalizing os g stack with
  | nil => exact ⟨fun _ => id, fun _ => ⟨_, rfl⟩⟩
  | cons item items ih =>
    rcases step_cases h item with ⟨href, e, hstep⟩ | ⟨hno, s₁, hstep, hkeeps⟩
    · constructor
      · rintro ⟨s', hrun⟩
        simp [Parser.run, hstep, bind, Except.bind] at hrun
      · intro hno
        exact absurd (Or.inl href) hno
    · have hrun : Parser.run ⟨g, stack⟩ (item :: items) = s₁.run items := by
        simp [Parser.run, hstep, bind, Except.bind]
      rw [hrun, ih hkeeps]
      simp [Refused, hno]

/-! ## Complete searches -/

def CompleteItems (items : List (Item Criterion)) : Prop := ∃ keys : Keys, items = keys.items

mutual

theorem Key.orderly (key : Key) (os : List OpenGroup) {items : List (Item Criterion)} (b : Bool)
    (h : Orderly (received os) false items) : Orderly os b (key.items ++ items) := by
  cases key with
  | criterion c => exact ⟨trivial, h⟩
  | list first rest =>
    have hclose : Orderly (.list :: os) false (.parenthesisClose :: items) := ⟨⟨rfl, rfl⟩, h⟩
    have hinner := Key.orderly first (.list :: os) true (Keys.orderly rest rfl hclose)
    simp only [Key.items, cons_append, append_assoc, nil_append]
    exact ⟨trivial, hinner⟩
  | or left right =>
    have hright := Key.orderly right (.or true :: os) false h
    have hleft := Key.orderly left (.or false :: os) false hright
    simp only [Key.items, cons_append, append_assoc]
    exact ⟨trivial, hleft⟩
  | not key =>
    have hkey := Key.orderly key (.not :: os) false h
    exact ⟨trivial, hkey⟩

theorem Keys.orderly (keys : Keys) {os : List OpenGroup} {items : List (Item Criterion)}
    (hos : received os = os) (h : Orderly os false items) :
    Orderly os false (keys.items ++ items) := by
  cases keys with
  | nil => exact h
  | cons key rest =>
    have hrest := Keys.orderly rest hos h
    rw [Keys.items, append_assoc]
    exact Key.orderly key os false (by rwa [hos])

end

inductive Built : List OpenGroup → List (Item Criterion) → Prop
  | nil (keys : Keys) : Built [] keys.items
  | list {os : List OpenGroup} {items : List (Item Criterion)} (h : Built os items) (keys : Keys) :
      Built (.list :: os) (items ++ .parenthesisOpen :: keys.items)
  | or {os : List OpenGroup} {items : List (Item Criterion)} (h : Built os items) :
      Built (.or false :: os) (items ++ [.or])
  | half {os : List OpenGroup} {items : List (Item Criterion)} (h : Built os items) (left : Key) :
      Built (.or true :: os) (items ++ .or :: left.items)
  | not {os : List OpenGroup} {items : List (Item Criterion)} (h : Built os items) :
      Built (.not :: os) (items ++ [.not])

def Keys.append : Keys → Key → Keys
  | .nil, key => .cons key .nil
  | .cons first rest, key => .cons first (rest.append key)

theorem Keys.items_append (keys : Keys) (key : Key) :
    (keys.append key).items = keys.items ++ key.items := by
  cases keys with
  | nil => simp [append, items]
  | cons first rest => simp [append, items, items_append rest key]

theorem Built.key {items : List (Item Criterion)} (h : Built os items) (key : Key) :
    Built (received os) (items ++ key.items) := by
  induction h generalizing key with
  | nil keys =>
    rw [← Keys.items_append]
    exact .nil _
  | list h keys _ =>
    rw [append_assoc, cons_append, ← Keys.items_append]
    exact .list h _
  | or h _ =>
    rw [append_assoc]
    exact .half h key
  | half h left ih =>
    rw [append_assoc]
    exact ih (.or left key)
  | not h ih =>
    rw [append_assoc]
    exact ih (.not key)

theorem Built.orderly_step {before : List (Item Criterion)} (h : Built os before)
    (item : Item Criterion) {b : Bool} (hb : before.getLast? = some .parenthesisOpen → b = true)
    (hfine : OrderlyAt os b item) : Built (opened os item) (before ++ [item]) := by
  cases item with
  | leaf c => exact h.key (.criterion c)
  | or => exact .or h
  | not => exact .not h
  | parenthesisOpen => exact .list h .nil
  | parenthesisClose =>
    obtain ⟨hhead, hfalse⟩ := hfine
    cases h with
    | nil keys | or h | half h left | not h => cases hhead
    | list h keys =>
      cases keys with
      | nil =>
        rw [hb (by simp [Keys.items])] at hfalse
        cases hfalse
      | cons first rest =>
        have hkey := h.key (.list first rest)
        simpa [Keys.items, Key.items, opened] using hkey

theorem Built.orderly {before : List (Item Criterion)} (h : Built os before)
    (items : List (Item Criterion)) {b : Bool}
    (hb : before.getLast? = some .parenthesisOpen → b = true) (hord : Orderly os b items) :
    CompleteItems (before ++ items) := by
  induction items generalizing os before b with
  | nil =>
    obtain rfl : os = [] := hord
    cases h with
    | nil keys => exact ⟨keys, List.append_nil _⟩
  | cons item items ih =>
    have hstep := h.orderly_step item hb hord.1
    have hrest := ih hstep (fun hlast => ?_) hord.2
    · rwa [append_assoc, singleton_append] at hrest
    · rw [List.getLast?_append, List.getLast?_singleton, Option.some_or, Option.some.injEq] at hlast
      rw [hlast]
      rfl

theorem complete_iff_orderly (items : List (Item Criterion)) :
    CompleteItems items ↔ Orderly [] false items := by
  constructor
  · rintro ⟨keys, rfl⟩
    have hend : Orderly [] false [] := rfl
    have h := Keys.orderly keys rfl hend
    rwa [List.append_nil] at h
  · intro h
    exact Built.orderly (.nil .nil) items (by simp [Keys.items]) h

/-! ## The criteria of a complete search -/

theorem mem_leaves_append {α : Type} {a : α} (f h : Forest α) :
    a ∈ (f.append h).leaves ↔ a ∈ f.leaves ∨ a ∈ h.leaves := by
  induction f with
  | nil => simp [Forest.append, Forest.leaves]
  | leaf b rest ih | group op members rest _ ih => simp [Forest.append, Forest.leaves, ih, or_assoc]

theorem mem_forestFilters {c : Criterion} {f : Forest Criterion} (h : c ∈ f.leaves) :
    Filter.criterion c ∈ forestFilters f := by
  induction f with
  | nil => cases h
  | leaf b rest ih =>
    rcases mem_cons.mp h with rfl | h
    · exact mem_cons_self
    · exact mem_cons_of_mem _ (ih h)
  | group op members rest ihm ih =>
    refine mem_cons_of_mem _ ?_
    rcases mem_append.mp h with h | h
    · exact mem_append_left _ (ihm h)
    · exact mem_append_right _ (mem_cons_of_mem _ (ih h))

theorem Key.leaves_operand (key : Key) : key.operand.leaves = key.members.leaves := by
  cases key with
  | criterion c => rfl
  | list first rest =>
    simp only [operand, members]
    split
    · rfl
    · simp [Forest.leaves]
  | or left right | not key => rfl

mutual

theorem Key.mem_leaves {c : Criterion} (key : Key) (h : .leaf c ∈ key.items) :
    c ∈ key.members.leaves := by
  cases key with
  | criterion b =>
    simp only [Key.items, mem_singleton, Item.leaf.injEq] at h
    simp [Key.members, Forest.leaves, h]
  | list first rest =>
    simp only [Key.items, mem_cons, reduceCtorEq, mem_append, not_mem_nil, or_false, false_or] at h
    rw [Key.members, mem_leaves_append]
    rcases h with h | h
    · exact Or.inl (Key.mem_leaves first h)
    · exact Or.inr (Keys.mem_leaves rest h)
  | or left right =>
    simp only [Key.items, mem_cons, reduceCtorEq, mem_append, false_or] at h
    simp only [Key.members, Forest.leaves, List.append_nil, mem_leaves_append, Key.leaves_operand]
    rcases h with h | h
    · exact Or.inl (Key.mem_leaves left h)
    · exact Or.inr (Key.mem_leaves right h)
  | not key =>
    simp only [Key.items, mem_cons, reduceCtorEq, false_or] at h
    simp only [Key.members, Forest.leaves, List.append_nil]
    exact Key.mem_leaves key h

theorem Keys.mem_leaves {c : Criterion} (keys : Keys) (h : .leaf c ∈ keys.items) :
    c ∈ keys.members.leaves := by
  cases keys with
  | nil => cases h
  | cons key rest =>
    rw [Keys.members, mem_leaves_append]
    rcases mem_append.mp h with h | h
    · exact Or.inl (Key.mem_leaves key h)
    · exact Or.inr (Keys.mem_leaves rest h)

end

/-! ## What the parser accepts -/

/-- The tokens are a sequence of complete search keys. -/
def Complete (codec : Codec) (tokens : List Token) : Prop :=
  ∃ items, Reads codec tokens items ∧ CompleteItems items

def Occurs (codec : Codec) (c : Criterion) (tokens : List Token) : Prop :=
  ∃ items, Reads codec tokens items ∧ .leaf c ∈ items

mutual

theorem Key.depth_le (key : Key) (os : List OpenGroup) {items : List (Item Criterion)}
    (hos : os.length ≤ 11) (h : ¬ Refused os (key.items ++ items)) :
    os.length + key.depth ≤ 11 ∧ ¬ Refused (received os) items := by
  cases key with
  | criterion c => exact ⟨hos, fun href => h (Or.inr href)⟩
  | list first rest =>
    simp only [Key.items, cons_append, append_assoc, nil_append, Refused, not_or] at h
    have hroom : os.length ≤ 10 := Nat.le_of_not_lt h.1
    have hin : (OpenGroup.list :: os).length = os.length + 1 := rfl
    obtain ⟨hfirst, hno⟩ := Key.depth_le first (.list :: os) (by omega) h.2
    obtain ⟨hrest, hno⟩ := Keys.depth_le rest (.list :: os) rfl (by omega) hno
    rw [Key.depth]
    exact ⟨by omega, fun href => hno (Or.inr href)⟩
  | or left right =>
    simp only [Key.items, cons_append, append_assoc, Refused, not_or] at h
    have hroom : os.length ≤ 10 := Nat.le_of_not_lt h.1
    have hleftLen : (OpenGroup.or false :: os).length = os.length + 1 := rfl
    have hrightLen : (OpenGroup.or true :: os).length = os.length + 1 := rfl
    obtain ⟨hleft, hno⟩ := Key.depth_le left (.or false :: os) (by omega) h.2
    obtain ⟨hright, hno⟩ := Key.depth_le right (.or true :: os) (by omega) hno
    rw [Key.depth]
    exact ⟨by omega, hno⟩
  | not key =>
    simp only [Key.items, cons_append, Refused, not_or] at h
    have hroom : os.length ≤ 10 := Nat.le_of_not_lt h.1
    have hin : (OpenGroup.not :: os).length = os.length + 1 := rfl
    obtain ⟨hkey, hno⟩ := Key.depth_le key (.not :: os) (by omega) h.2
    rw [Key.depth]
    exact ⟨by omega, hno⟩

theorem Keys.depth_le (keys : Keys) (os : List OpenGroup) {items : List (Item Criterion)}
    (hsame : received os = os) (hos : os.length ≤ 11) (h : ¬ Refused os (keys.items ++ items)) :
    os.length + keys.depth ≤ 11 ∧ ¬ Refused os items := by
  cases keys with
  | nil => exact ⟨hos, h⟩
  | cons key rest =>
    rw [Keys.items, append_assoc] at h
    obtain ⟨hkey, hno⟩ := Key.depth_le key os hos h
    rw [hsame] at hno
    obtain ⟨hrest, hno⟩ := Keys.depth_le rest os hsame hos hno
    rw [Keys.depth]
    exact ⟨by omega, hno⟩

end

theorem keeps_initial : Keeps [] Parser.initial.group Parser.initial.filtersStack := ⟨rfl, rfl⟩

theorem run_complete {keys : Keys} {s' : Parser} (h : Parser.initial.run keys.items = .ok s') :
    s'.group.filters = forestFilters keys.members := by
  have hno : ¬ Refused [] (keys.items ++ []) := by
    rw [List.append_nil]
    exact (run_ok_iff keeps_initial _).mp ⟨s', h⟩
  obtain ⟨hdepth, -⟩ := Keys.depth_le keys [] rfl (Nat.zero_le _) hno
  have hrun : Parser.initial.run keys.items = .ok ⟨(Group.new .and).extend keys.members, []⟩ :=
    Keys.run_items keys (.new .and) [] rfl hdepth
  rw [hrun] at h
  cases h
  simp [Group.extend, Group.new]

/-- The parser answers a search with an error, or finds complete keys and keeps all their
criteria, exactly when the search cannot be read, is refused or is orderly. -/
theorem parseFilters_complete_iff (codec : Codec) (tokens : List Token) :
    (∀ filters, parseFilters codec tokens = .ok filters →
        Complete codec tokens ∧ ∀ c, Occurs codec c tokens → Filter.criterion c ∈ filters) ↔
      ∀ items, Reads codec tokens items → Refused [] items ∨ Orderly [] false items := by
  constructor
  · intro h items hreads
    by_cases href : Refused [] items
    · exact Or.inl href
    · obtain ⟨s', hrun⟩ := (run_ok_iff keeps_initial items).mpr href
      obtain ⟨⟨items', hreads', hcomplete⟩, -⟩ :=
        h _ ((parseFilters_ok_iff codec tokens _).mpr ⟨items, s', hreads, hrun, rfl⟩)
      rw [hreads'.unique hreads, complete_iff_orderly] at hcomplete
      exact Or.inr hcomplete
  · intro h filters hok
    obtain ⟨items, s', hreads, hrun, rfl⟩ := (parseFilters_ok_iff codec tokens filters).mp hok
    have hno : ¬ Refused [] items := (run_ok_iff keeps_initial items).mp ⟨s', hrun⟩
    have hcomplete : CompleteItems items :=
      (complete_iff_orderly items).mpr ((h items hreads).resolve_left hno)
    refine ⟨⟨items, hreads, hcomplete⟩, ?_⟩
    rintro c ⟨items', hreads', hc⟩
    obtain ⟨keys, rfl⟩ := hcomplete
    rw [hreads'.unique hreads] at hc
    rw [run_complete hrun]
    exact mem_forestFilters (Keys.mem_leaves keys hc)

def openOr : List Token := [word "SEEN", word "OR", word "FLAGGED"]

theorem reads_openOr (codec : Codec) :
    Reads codec openOr [.leaf (.plain .seen), .or, .leaf (.plain .flagged)] := by
  have hor : searchKey? (utf8 "OR") = some .or := by decide
  exact .cons (readItem_word codec (searchKey_plain .seen) _) (.cons (readItem_word codec hor _)
      (.cons (readItem_word codec (searchKey_plain .flagged) _) .nil))

/-- No charset was named. The search has no dates. -/
def undecoded : Codec := ⟨none, ⟨fun _ => none⟩⟩

/-- The OR has one operand, and still the search is accepted, as `FLAGGED` alone. -/
theorem open_or_drops_seen :
    parseFilters undecoded openOr = .ok [.criterion (.plain .flagged)] ∧
      ¬ Complete undecoded openOr ∧ Occurs undecoded (.plain .seen) openOr ∧
      Filter.criterion (.plain .seen) ∉ [Filter.criterion (.plain .flagged)] := by
  have hreads := reads_openOr undecoded
  refine ⟨(parseFilters_ok_iff _ _ _).mpr ⟨_, _, hreads, rfl, rfl⟩, ?_, ⟨_, hreads, by simp⟩, by simp⟩
  rintro ⟨items, hreads', hcomplete⟩
  rw [hreads'.unique hreads, complete_iff_orderly] at hcomplete
  have hopen : received [.or false] = [] := hcomplete.2.2.2
  cases hopen

end Bearmail.Imap
