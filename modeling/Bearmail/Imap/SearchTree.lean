import Bearmail.Imap.SearchParser

/-!
# Trees of search keys and what the parser makes of them

`Key` is the grammar of a search key: a criterion, a parenthesised list of keys, an
OR of two keys, a NOT of one. `Key.tokens` writes a key as a client does.
-/

namespace Bearmail.Imap

open Nested (Op Forest)
open List

mutual

inductive Key where
  | criterion (c : Criterion)
  /-- A parenthesised list has at least one key. -/
  | list (first : Key) (rest : Keys)
  | or (left right : Key)
  | not (key : Key)

inductive Keys where
  | nil
  | cons (key : Key) (rest : Keys)

end

mutual

def Key.items : Key → List (Item Criterion)
  | .criterion c => [.leaf c]
  | .list first rest =>
    .parenthesisOpen :: (first.items ++ (rest.items ++ [.parenthesisClose]))
  | .or left right => .or :: (left.items ++ right.items)
  | .not key => .not :: key.items

def Keys.items : Keys → List (Item Criterion)
  | .nil => []
  | .cons key rest => key.items ++ rest.items

end

mutual

/-- The number of groups around the innermost key. -/
def Key.depth : Key → Nat
  | .criterion _ => 0
  | .list first rest => max first.depth rest.depth + 1
  | .or left right => max left.depth right.depth + 1
  | .not key => key.depth + 1

def Keys.depth : Keys → Nat
  | .nil => 0
  | .cons key rest => max key.depth rest.depth

end

mutual

def Key.members : Key → Forest Criterion
  | .criterion c => .leaf c .nil
  | .list first rest => first.members.append rest.members
  | .or left right => .group .or (left.operand.append right.operand) .nil
  | .not key => .group .not key.members .nil

def Key.operand : Key → Forest Criterion
  | .criterion c => .leaf c .nil
  | .list first rest =>
    let list := first.members.append rest.members
    if list.members = 1 then list else .group .and list .nil
  | .or left right => .group .or (left.operand.append right.operand) .nil
  | .not key => .group .not key.members .nil

def Keys.members : Keys → Forest Criterion
  | .nil => .nil
  | .cons key rest => key.members.append rest.members

end

def Key.placed (key : Key) (op : Op) : Forest Criterion :=
  if op = .or then key.operand else key.members

def forestFilters (f : Forest Criterion) : List Filter :=
  f.render .criterion .operator .close

def Group.extend (g : Group) (f : Forest Criterion) : Group :=
  ⟨g.filters ++ forestFilters f, g.operator, g.filtersLen + f.members⟩

def Group.Waiting (g : Group) : Prop :=
  g.operator = .and ∨ (g.operator = .or ∧ g.filtersLen < 2) ∨ (g.operator = .not ∧ g.filtersLen = 0)

/-- What happens to a group that has just got a member. -/
def Parser.received (g : Group) (stack : List Group) : Parser :=
  if g.operator = .and ∨ (g.operator = .or ∧ g.filtersLen < 2) then ⟨g, stack⟩
  else popGroups g stack

theorem popGroups_cons (g prev : Group) (stack : List Group) :
    popGroups g (prev :: stack) = Parser.received (g.into prev) stack := rfl

theorem Group.extend_append (g : Group) (f h : Forest Criterion) :
    (g.extend f).extend h = g.extend (f.append h) := by
  simp [extend, forestFilters, Forest.render_append, Forest.members_append, Nat.add_assoc]

theorem Key.members_operand (key : Key) : key.operand.members = 1 := by
  cases key with
  | criterion c => simp [operand, Forest.members]
  | list first rest =>
    simp only [operand]
    split
    · assumption
    · simp [Forest.members]
  | or left right | not key => simp [operand, Forest.members]

theorem Group.into_operator (prev : Group) {op : Op} (f : Forest Criterion) (h : op ≠ .and) :
    ((Group.new op).extend f).into prev = prev.extend (.group op f .nil) := by
  simp [Group.into, extend, Group.new, h, forestFilters, Forest.render, Forest.members]

theorem Group.into_list (prev : Group) (first : Key) (rest : Keys) :
    ((Group.new .and).extend (first.members.append rest.members)).into prev =
      prev.extend ((Key.list first rest).placed prev.operator) := by
  by_cases hor : prev.operator = .or
  · by_cases hone : (first.members.append rest.members).members = 1
    · simp [Group.into, extend, Group.new, hor, Key.placed, Key.operand, hone, Nat.add_comm]
    · simp [Group.into, extend, Group.new, hor, Key.placed, Key.operand, hone, forestFilters,
        Forest.render, Forest.members]
  · simp [Group.into, extend, Group.new, hor, Key.placed, Key.members, Nat.add_comm]

theorem Parser.settle_add {g : Group} (hw : g.Waiting) (c : Criterion) (stack : List Group) :
    Parser.settle ⟨g.add c, stack⟩ false = Parser.received (g.extend (.leaf c .nil)) stack := by
  have hadd : g.add c = g.extend (.leaf c .nil) := by
    simp [Group.add, Group.extend, forestFilters, Forest.render, Forest.members]
  have hlen : (g.extend (.leaf c .nil)).filtersLen = g.filtersLen + 1 := rfl
  have hop : (g.extend (.leaf c .nil)).operator = g.operator := rfl
  rw [hadd]
  unfold settle received
  simp only [hlen, hop]
  cases stack with
  | nil => simp [popGroups]
  | cons prev stack =>
    rcases hw with hand | ⟨hor, hlt⟩ | ⟨hnot, hzero⟩
    · simp [hand]
    · have htwo : g.filtersLen + 1 = 2 ↔ ¬ g.filtersLen + 1 < 2 := by omega
      by_cases hfull : g.filtersLen + 1 < 2
      all_goals simp [hor, hfull, htwo]
    · simp [hnot, hzero]

theorem Parser.push_ok (g : Group) {stack : List Group} (h : stack.length ≤ 10) (op : Op) :
    Parser.push ⟨g, stack⟩ op = .ok ⟨.new op, g :: stack⟩ := by
  have hno : ¬ stack.length > 10 := by omega
  simp [push, if_neg hno]

theorem Parser.received_open {g : Group}
    (h : g.operator = .and ∨ (g.operator = .or ∧ g.filtersLen < 2)) (stack : List Group) :
    Parser.received g stack = ⟨g, stack⟩ := if_pos h

theorem Parser.received_full {g prev : Group} {stack : List Group}
    (h : ¬ (g.operator = .and ∨ (g.operator = .or ∧ g.filtersLen < 2))) :
    Parser.received g (prev :: stack) = Parser.received (g.into prev) stack := by
  rw [received, if_neg h, popGroups_cons]

theorem Key.placed_and (key : Key) : key.placed .and = key.members := rfl

theorem Key.placed_of_operand_eq {key : Key} (h : key.operand = key.members) (op : Op) :
    key.placed op = key.members := by
  unfold placed
  split
  · exact h
  · rfl

mutual

theorem Key.run_items (key : Key) (g : Group) (stack : List Group) (hw : g.Waiting)
    (hd : stack.length + key.depth ≤ 11) :
    Parser.run ⟨g, stack⟩ key.items =
      .ok (Parser.received (g.extend (key.placed g.operator)) stack) := by
  cases key with
  | criterion c =>
    rw [Key.placed_of_operand_eq rfl]
    simp only [Key.items, Parser.run, Parser.step, bind, Except.bind, Parser.settle_add hw]
    rfl
  | list first rest =>
    simp only [Key.depth] at hd
    have hin : (g :: stack).length = stack.length + 1 := rfl
    have hpush := Parser.push_ok g (show stack.length ≤ 10 by omega) .and
    have hfirst := Key.run_items first (.new .and) (g :: stack) (Or.inl rfl) (by omega)
    have hrest := Keys.run_items rest ((Group.new .and).extend first.members) (g :: stack) rfl (by omega)
    rw [show (Group.new .and).operator = Op.and from rfl, Key.placed_and,
      Parser.received_open (Or.inl rfl)] at hfirst
    rw [Group.extend_append] at hrest
    simp only [Key.items, Parser.run, Parser.step, hpush, bind, Except.bind, Parser.run_append,
      hfirst, hrest]
    simp [cons_ne_nil, Parser.settle, popGroups_cons, Group.into_list]
  | or left right =>
    simp only [Key.depth] at hd
    have hin : (g :: stack).length = stack.length + 1 := rfl
    have hpush := Parser.push_ok g (show stack.length ≤ 10 by omega) .or
    have hone : ((Group.new .or).extend left.operand).filtersLen = 1 := by
      simp [Group.extend, Group.new, Key.members_operand]
    have htwo : ((Group.new .or).extend (left.operand.append right.operand)).filtersLen = 2 := by
      simp [Group.extend, Group.new, Forest.members_append, Key.members_operand]
    have hroom : ((Group.new .or).extend left.operand).operator = .or ∧
        ((Group.new .or).extend left.operand).filtersLen < 2 := ⟨rfl, by omega⟩
    have hfull : ¬ (((Group.new .or).extend (left.operand.append right.operand)).operator = .and ∨
        (((Group.new .or).extend (left.operand.append right.operand)).operator = .or ∧
          ((Group.new .or).extend (left.operand.append right.operand)).filtersLen < 2)) := by
      rintro (hand | ⟨-, hlt⟩)
      · cases hand
      · omega
    have hleft := Key.run_items left (.new .or) (g :: stack)
      (Or.inr (Or.inl ⟨rfl, Nat.zero_lt_two⟩)) (by omega)
    have hright := Key.run_items right ((Group.new .or).extend left.operand) (g :: stack)
      (Or.inr (Or.inl hroom)) (by omega)
    rw [show left.placed (Group.new .or).operator = left.operand from rfl,
      Parser.received_open (Or.inr hroom)] at hleft
    rw [show right.placed ((Group.new .or).extend left.operand).operator = right.operand from rfl,
      Group.extend_append, Parser.received_full hfull, Group.into_operator _ _ (by decide)] at hright
    rw [Key.placed_of_operand_eq rfl]
    simp [Key.items, Parser.run, Parser.step, hpush, bind, Except.bind, Parser.run_append, hleft,
      hright, Key.members]
  | not key =>
    simp only [Key.depth] at hd
    have hin : (g :: stack).length = stack.length + 1 := rfl
    have hpush := Parser.push_ok g (show stack.length ≤ 10 by omega) .not
    have hkey := Key.run_items key (.new .not) (g :: stack) (Or.inr (Or.inr ⟨rfl, rfl⟩)) (by omega)
    have hfull : ¬ (((Group.new .not).extend key.members).operator = .and ∨
        (((Group.new .not).extend key.members).operator = .or ∧
          ((Group.new .not).extend key.members).filtersLen < 2)) := by
      rintro (hand | ⟨hor, -⟩)
      · cases hand
      · cases hor
    rw [show key.placed (Group.new .not).operator = key.members from rfl,
      Parser.received_full hfull, Group.into_operator _ _ (by decide)] at hkey
    rw [Key.placed_of_operand_eq rfl]
    simp [Key.items, Parser.run, Parser.step, hpush, bind, Except.bind, hkey, Key.members]

theorem Keys.run_items (keys : Keys) (g : Group) (stack : List Group) (hand : g.operator = .and)
    (hd : stack.length + keys.depth ≤ 11) :
    Parser.run ⟨g, stack⟩ keys.items = .ok ⟨g.extend keys.members, stack⟩ := by
  cases keys with
  | nil =>
    simp [Keys.items, Keys.members, Parser.run, Group.extend, forestFilters, Forest.render,
      Forest.members]
  | cons key rest =>
    simp only [Keys.depth] at hd
    have hkey := Key.run_items key g stack (Or.inl hand) (by omega)
    have hrest := Keys.run_items rest (g.extend key.members) stack hand (by omega)
    rw [hand, Key.placed_and, Parser.received_open (g := g.extend key.members) (Or.inl hand)] at hkey
    rw [Group.extend_append] at hrest
    simp [Keys.items, Parser.run_append, hkey, bind, Except.bind, hrest, Keys.members]

end

/-! ## The tokens of a tree -/

mutual

def Key.tokens (client : Client) : Key → List Token
  | .criterion c => c.tokens client
  | .list first rest =>
    .parenthesisOpen :: (first.tokens client ++ (rest.tokens client ++ [.parenthesisClose]))
  | .or left right => word "OR" :: (left.tokens client ++ right.tokens client)
  | .not key => word "NOT" :: key.tokens client

def Keys.tokens (client : Client) : Keys → List Token
  | .nil => []
  | .cons key rest => key.tokens client ++ rest.tokens client

end

mutual

def Key.Writable (codec : Codec) (client : Client) : Key → Prop
  | .criterion c => c.Writable codec client
  | .list first rest => first.Writable codec client ∧ rest.Writable codec client
  | .or left right => left.Writable codec client ∧ right.Writable codec client
  | .not key => key.Writable codec client

def Keys.Writable (codec : Codec) (client : Client) : Keys → Prop
  | .nil => True
  | .cons key rest => key.Writable codec client ∧ rest.Writable codec client

end

section Reading

variable {codec : Codec} {client : Client}

mutual

theorem Key.reads_tokens (key : Key) (h : key.Writable codec client) {tokens : List Token}
    {items : List (Item Criterion)} (hrest : Reads codec tokens items) :
    Reads codec (key.tokens client ++ tokens) (key.items ++ items) := by
  cases key with
  | criterion c =>
    obtain ⟨token, more, htokens, hread⟩ := readItem_tokens (show c.Writable codec client from h)
    simp only [Key.tokens, Key.items, htokens, cons_append, nil_append]
    exact .cons (hread tokens) hrest
  | list first rest =>
    have hclose : Reads codec (.parenthesisClose :: tokens) (.parenthesisClose :: items) :=
      .cons rfl hrest
    have hinner := Key.reads_tokens first h.1 (Keys.reads_tokens rest h.2 hclose)
    simp only [Key.tokens, Key.items, cons_append, append_assoc, nil_append]
    exact .cons rfl hinner
  | or left right =>
    have hinner := Key.reads_tokens left h.1 (Key.reads_tokens right h.2 hrest)
    simp only [Key.tokens, Key.items, cons_append, append_assoc]
    exact .cons (readItem_word codec (show searchKey? (utf8 "OR") = some .or by decide) _) hinner
  | not key =>
    have hinner := Key.reads_tokens key h hrest
    exact .cons (readItem_word codec (show searchKey? (utf8 "NOT") = some .not by decide) _) hinner

theorem Keys.reads_tokens (keys : Keys) (h : keys.Writable codec client) {tokens : List Token}
    {items : List (Item Criterion)} (hrest : Reads codec tokens items) :
    Reads codec (keys.tokens client ++ tokens) (keys.items ++ items) := by
  cases keys with
  | nil => exact hrest
  | cons key rest =>
    have hinner := Key.reads_tokens key h.1 (Keys.reads_tokens rest h.2 hrest)
    simpa only [Keys.tokens, Keys.items, append_assoc] using hinner

end

/-- Within the nesting limit the tokens of a sequence of keys are accepted, and become the
members of the keys. -/
theorem parseFilters_tokens (keys : Keys) (h : keys.Writable codec client) (hd : keys.depth ≤ 11) :
    parseFilters codec (keys.tokens client) = .ok (forestFilters keys.members) := by
  have hreads := Keys.reads_tokens keys h Reads.nil
  rw [List.append_nil, List.append_nil] at hreads
  have hrun := Keys.run_items keys (.new .and) [] rfl (by simpa using hd)
  exact (parseFilters_ok_iff _ _ _).mpr ⟨_, _, hreads, hrun, by simp [Group.extend, Group.new]⟩

end Reading

end Bearmail.Imap
