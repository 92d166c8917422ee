import Bearmail.Imap.SearchKey
import Bearmail.Lib.Nested

/-!
# The search parser

The loop of `parse_filters` (`imap-proto/src/parser/search.rs`): a group being
filled, a stack of the groups around it, and counters of their operands.
-/

namespace Bearmail.Imap

open Nested (Op Forest)

/-- `Filter`: a criterion, or one of the logical operators. -/
inductive Filter where
  | criterion (c : Criterion)
  | operator (op : Op)
  | close

/-- The filters of a group, its operator and the number of its operands. -/
structure Group where
  filters : List Filter
  operator : Op
  filtersLen : Nat

/-- The state of the loop; the innermost of the waiting groups comes first. -/
structure Parser where
  group : Group
  filtersStack : List Group

def Group.new (op : Op) : Group := ⟨[], op, 0⟩

def Parser.initial : Parser := ⟨.new .and, []⟩

def Group.into (g prev : Group) : Group :=
  if g.operator = .and ∧ (prev.operator ≠ .or ∨ g.filtersLen = 1) then
    ⟨prev.filters ++ g.filters, prev.operator, g.filtersLen + prev.filtersLen⟩
  else
    ⟨prev.filters ++ .operator g.operator :: (g.filters ++ [.close]), prev.operator, prev.filtersLen + 1⟩

/-- The groups that a finished group finishes in turn. -/
def popGroups : Group → List Group → Parser
  | g, [] => ⟨g, []⟩
  | g, prev :: stack =>
    let g := g.into prev
    if g.operator = .and ∨ (g.operator = .or ∧ g.filtersLen < 2) then ⟨g, stack⟩
    else popGroups g stack

def Parser.settle (s : Parser) (foundParenthesis : Bool) : Parser :=
  if s.filtersStack ≠ [] ∧ (foundParenthesis = true ∨ (s.group.operator = .or ∧ s.group.filtersLen = 2) ∨
      (s.group.operator = .not ∧ s.group.filtersLen = 1)) then
    popGroups s.group s.filtersStack
  else s

def Parser.push (s : Parser) (op : Op) : Result Parser :=
  if s.filtersStack.length > 10 then fail "Too many nested filters"
  else .ok ⟨.new op, s.group :: s.filtersStack⟩

def Group.add (g : Group) (c : Criterion) : Group :=
  ⟨g.filters ++ [.criterion c], g.operator, g.filtersLen + 1⟩

def Parser.step (s : Parser) : Item Criterion → Result Parser
  | .leaf c => .ok (Parser.settle ⟨s.group.add c, s.filtersStack⟩ false)
  | .or => s.push .or
  | .not => s.push .not
  | .parenthesisOpen => s.push .and
  | .parenthesisClose =>
    if s.filtersStack = [] then fail "Unexpected parenthesis." else .ok (s.settle true)

/-- Every pass takes at least one token, so the number of tokens bounds the passes. At the end
the waiting groups are dropped. -/
def parseLoop (codec : Codec) : Nat → Parser → List Token → Result (List Filter)
  | _, s, [] => .ok s.group.filters
  | 0, _, _ :: _ => .error []
  | passes + 1, s, token :: tokens => do
    let (item, tokens) ← readItem codec token tokens
    let s ← s.step item
    parseLoop codec passes s tokens

def parseFilters (codec : Codec) (tokens : List Token) : Result (List Filter) :=
  parseLoop codec tokens.length .initial tokens

/-! ## Items

What the tokens stand for can be read ahead of the loop. -/

def Parser.run (s : Parser) : List (Item Criterion) → Result Parser
  | [] => .ok s
  | item :: items => do
    let s ← s.step item
    s.run items

inductive Reads (codec : Codec) : List Token → List (Item Criterion) → Prop
  | nil : Reads codec [] []
  | cons {token : Token} {tokens rest : List Token} {item : Item Criterion}
      {items : List (Item Criterion)} (h : readItem codec token tokens = .ok (item, rest))
      (hrest : Reads codec rest items) : Reads codec (token :: tokens) (item :: items)

theorem Reads.unique {codec : Codec} {tokens : List Token} {items items' : List (Item Criterion)}
    (h : Reads codec tokens items) (h' : Reads codec tokens items') : items = items' := by
  induction h generalizing items' with
  | nil => cases h'; rfl
  | cons hitem _ ih =>
    cases h' with
    | cons hitem' hrest' =>
      rw [hitem] at hitem'
      cases hitem'
      rw [ih hrest']

theorem Parser.run_append (s : Parser) (items more : List (Item Criterion)) :
    s.run (items ++ more) = s.run items >>= fun s' => s'.run more := by
  induction items generalizing s with
  | nil => rfl
  | cons item items ih =>
    simp only [List.cons_append, run, bind, Except.bind]
    cases s.step item with
    | error e => rfl
    | ok s' => exact ih s'

theorem parseLoop_ok_iff (codec : Codec) {passes : Nat} {tokens : List Token}
    (h : tokens.length ≤ passes) (s : Parser) (filters : List Filter) :
    parseLoop codec passes s tokens = .ok filters ↔
      ∃ items s', Reads codec tokens items ∧ s.run items = .ok s' ∧ s'.group.filters = filters := by
  induction passes generalizing tokens s with
  | zero =>
    obtain rfl : tokens = [] := List.length_eq_zero_iff.mp (Nat.le_zero.mp h)
    constructor
    · intro heq
      cases heq
      exact ⟨[], s, .nil, rfl, rfl⟩
    · rintro ⟨items, s', hreads, hrun, rfl⟩
      cases hreads
      cases hrun
      rfl
  | succ passes ih =>
    cases tokens with
    | nil =>
      constructor
      · intro heq
        cases heq
        exact ⟨[], s, .nil, rfl, rfl⟩
      · rintro ⟨items, s', hreads, hrun, rfl⟩
        cases hreads
        cases hrun
        rfl
    | cons token tokens =>
      have hlen : tokens.length ≤ passes := Nat.le_of_succ_le_succ h
      constructor
      · intro heq
        obtain ⟨⟨item, rest⟩, hitem, heq⟩ := ok_of_bind heq
        obtain ⟨s₁, hstep, heq⟩ := ok_of_bind heq
        have hrest := shrinks_readItem codec token tokens item rest hitem
        obtain ⟨items, s', hreads, hrun, hs'⟩ := (ih (Nat.le_trans hrest hlen) s₁).mp heq
        exact ⟨item :: items, s', .cons hitem hreads, by simp [Parser.run, hstep, bind, Except.bind, hrun], hs'⟩
      · rintro ⟨items, s', hreads, hrun, hs'⟩
        cases hreads with
        | cons hitem hreads =>
          obtain ⟨s₁, hstep, hrun⟩ := ok_of_bind hrun
          have hrest := shrinks_readItem codec token tokens _ _ hitem
          have heq := (ih (Nat.le_trans hrest hlen) s₁).mpr ⟨_, s', hreads, hrun, hs'⟩
          simp only [parseLoop, hitem, bind, Except.bind, hstep]
          exact heq

/-- The parser accepts a list of tokens when it reads as items that the loop accepts. -/
theorem parseFilters_ok_iff (codec : Codec) (tokens : List Token) (filters : List Filter) :
    parseFilters codec tokens = .ok filters ↔
      ∃ items s', Reads codec tokens items ∧ Parser.initial.run items = .ok s' ∧
        s'.group.filters = filters :=
  parseLoop_ok_iff codec (Nat.le_refl _) _ _

end Bearmail.Imap
