import Bearmail.Imap.SearchTree

/-!
# The messages a search stands for

`messages` is the set of messages a tree of search keys stands for, and `standsFor`
the set a flat list of filters stands for under the rules of the search engine: all,
any, or none of the members of a group.
-/

namespace Bearmail.Imap

open Nested (Op Forest)
open List

mutual

/-- The keys of a list, with the lists among them opened. -/
def Key.conjuncts : Key → List Key
  | .list first rest => first.conjuncts ++ rest.conjuncts
  | .criterion c => [.criterion c]
  | .or left right => [.or left right]
  | .not key => [.not key]

def Keys.conjuncts : Keys → List Key
  | .nil => []
  | .cons key rest => key.conjuncts ++ rest.conjuncts

end

mutual

def Key.subkeys : Key → List Key
  | .criterion c => [.criterion c]
  | .list first rest => .list first rest :: (first.subkeys ++ rest.subkeys)
  | .or left right => .or left right :: (left.subkeys ++ right.subkeys)
  | .not key => .not key :: key.subkeys

def Keys.subkeys : Keys → List Key
  | .nil => []
  | .cons key rest => key.subkeys ++ rest.subkeys

end

def Filter.token : Filter → Nested.Token Criterion
  | .criterion c => .leaf c
  | .operator op => .opening op
  | .close => .closing

variable {key : Key}

section Meaning

variable {D : Type} [DecidableEq D] (M : Finset D) (v : Criterion → Finset D)

mutual

/-- The messages of the mailbox `M` a key stands for, where `v` tells those of a criterion. -/
def Key.messages : Key → Finset D
  | .criterion c => v c
  | .list first rest => first.messages ∩ rest.messages
  | .or left right => left.messages ∪ right.messages
  | .not key => M \ key.messages

def Keys.messages : Keys → Finset D
  | .nil => M
  | .cons key rest => key.messages ∩ rest.messages

end

def forestMessages (f : Forest Criterion) : Finset D :=
  Op.and.combine M (f.values M fun c => some (v c))

/-- What a flat list of filters stands for, its groups read as all, any and none of their
members; nothing for a list that is not well nested. -/
def standsFor (filters : List Filter) : Option (Finset D) :=
  (Forest.read (filters.map Filter.token)).map (forestMessages M v)

theorem standsFor_forestFilters (f : Forest Criterion) :
    standsFor M v (forestFilters f) = some (forestMessages M v f) := by
  have hmap : (forestFilters f).map Filter.token = f.tokens :=
    Forest.map_render Filter.token _ _ _ f
  rw [standsFor, hmap, Forest.read_tokens]
  rfl

theorem mem_forestMessages {d : D} (hd : d ∈ M) (f : Forest Criterion) :
    d ∈ forestMessages M v f ↔ ∀ x ∈ f.values M fun c => some (v c), d ∈ x :=
  Nested.mem_combine hd .and _

theorem forestMessages_subset (f : Forest Criterion) : forestMessages M v f ⊆ M := by
  unfold forestMessages Op.combine
  induction f.values M fun c => some (v c) with
  | nil => exact Finset.Subset.refl M
  | cons x xs ih => exact Finset.Subset.trans Finset.inter_subset_right ih

theorem length_values (f : Forest Criterion) : (f.values M fun c => some (v c)).length = f.members := by
  induction f with
  | nil => rfl
  | leaf c rest ih =>
    simp only [Forest.values, Forest.members, Option.toList_some, length_append, ih, length_singleton]
    omega
  | group op members rest _ ih => simp [Forest.values, Forest.members, ih]

theorem forall₂_conjuncts_single {d : D} (hd : d ∈ M) (key : Key) (x : Finset D)
    (hx : key.members.values M (fun c => some (v c)) = [x]) :
    List.Forall₂ (fun c x => d ∈ x ↔ d ∈ forestMessages M v c.members) [key]
      (key.members.values M fun c => some (v c)) := by
  rw [hx]
  refine .cons ?_ .nil
  rw [mem_forestMessages M v hd, hx]
  simp

mutual

theorem Key.forall₂_conjuncts {d : D} (hd : d ∈ M) (key : Key) :
    List.Forall₂ (fun c x => d ∈ x ↔ d ∈ forestMessages M v c.members) key.conjuncts
      (key.members.values M fun c => some (v c)) := by
  cases key with
  | criterion c => exact forall₂_conjuncts_single M v hd (.criterion c) (v c) rfl
  | list first rest =>
    rw [Key.members, Forest.values_append]
    exact rel_append (Key.forall₂_conjuncts hd first) (Keys.forall₂_conjuncts hd rest)
  | or left right => exact forall₂_conjuncts_single M v hd (.or left right) _ rfl
  | not key => exact forall₂_conjuncts_single M v hd (.not key) _ rfl

theorem Keys.forall₂_conjuncts {d : D} (hd : d ∈ M) (keys : Keys) :
    List.Forall₂ (fun c x => d ∈ x ↔ d ∈ forestMessages M v c.members) keys.conjuncts
      (keys.members.values M fun c => some (v c)) := by
  cases keys with
  | nil => exact .nil
  | cons key rest =>
    rw [Keys.members, Forest.values_append]
    exact rel_append (Key.forall₂_conjuncts hd key) (Keys.forall₂_conjuncts hd rest)

end

theorem forall_mem_iff {α β : Type} {p : β → Prop} {q : α → Prop} {as : List α} {bs : List β}
    (h : List.Forall₂ (fun a b => p b ↔ q a) as bs) : (∀ b ∈ bs, p b) ↔ ∀ a ∈ as, q a := by
  induction h with
  | nil => simp
  | cons hab _ ih => simp [hab, ih]

variable {M v} {d : D}

theorem mem_members_not (hd : d ∈ M) (key : Key) : d ∈ forestMessages M v (Key.not key).members ↔
      ∀ c ∈ key.conjuncts, d ∉ forestMessages M v c.members := by
  have hpair := (Key.forall₂_conjuncts M v hd key).imp fun _ _ h => not_congr h
  rw [mem_forestMessages M v hd]
  simp only [Key.members, Forest.values, mem_singleton, forall_eq, Nested.mem_combine hd]
  exact forall_mem_iff hpair

theorem holds_operand (hd : d ∈ M) (key : Key) :
    Op.or.Holds d (key.operand.values M fun c => some (v c)) ↔ d ∈ forestMessages M v key.members := by
  have hsame : key.operand = key.members → (Op.or.Holds d (key.operand.values M fun c => some (v c)) ↔
      d ∈ forestMessages M v key.members) := by
    intro heq
    have hlen : (key.members.values M fun c => some (v c)).length = 1 := by
      rw [length_values, ← heq, Key.members_operand]
    obtain ⟨x, hx⟩ := length_eq_one_iff.mp hlen
    rw [heq, mem_forestMessages M v hd, hx]
    simp [Op.Holds]
  cases key with
  | criterion c => exact hsame rfl
  | list first rest =>
    by_cases hone : (first.members.append rest.members).members = 1
    · exact hsame (by simp [Key.operand, Key.members, hone])
    · simp [Key.operand, Key.members, hone, Forest.values, Op.Holds, forestMessages]
  | or left right | not key => exact hsame rfl

theorem mem_members_or (hd : d ∈ M) (left right : Key) :
    d ∈ forestMessages M v (Key.or left right).members ↔
      d ∈ forestMessages M v left.members ∨ d ∈ forestMessages M v right.members := by
  rw [mem_forestMessages M v hd]
  simp only [Key.members, Forest.values, mem_singleton, forall_eq, Nested.mem_combine hd,
    Forest.values_append, Nested.holds_append]
  exact or_congr (holds_operand hd left) (holds_operand hd right)

/-! ## When they are the same -/

mutual

theorem Key.mem_messages (hd : d ∈ M) (key : Key) :
    d ∈ key.messages M v ↔ ∀ c ∈ key.conjuncts, d ∈ c.messages M v := by
  cases key with
  | criterion c => simp [Key.conjuncts]
  | list first rest =>
    rw [Key.messages, Finset.mem_inter, Key.mem_messages hd first, Keys.mem_messages hd rest]
    simp [Key.conjuncts, or_imp, forall_and]
  | or left right | not key => simp [Key.conjuncts]

theorem Keys.mem_messages (hd : d ∈ M) (keys : Keys) :
    d ∈ keys.messages M v ↔ ∀ c ∈ keys.conjuncts, d ∈ c.messages M v := by
  cases keys with
  | nil => simp [Keys.messages, Keys.conjuncts, hd]
  | cons key rest =>
    rw [Keys.messages, Finset.mem_inter, Key.mem_messages hd key, Keys.mem_messages hd rest]
    simp [Keys.conjuncts, or_imp, forall_and]

end

theorem Keys.messages_subset (keys : Keys) : keys.messages M v ⊆ M := by
  cases keys with
  | nil => exact Finset.Subset.refl M
  | cons key rest =>
    exact Finset.Subset.trans Finset.inter_subset_right (Keys.messages_subset rest)

theorem Key.conjuncts_ne_nil (key : Key) : key.conjuncts ≠ [] := by
  cases key with
  | criterion c => simp [conjuncts]
  | list first rest =>
    have hfirst := conjuncts_ne_nil first
    simp [conjuncts, hfirst]
  | or left right | not key => simp [conjuncts]

theorem Key.mem_subkeys_self (key : Key) : key ∈ key.subkeys := by
  cases key <;> simp [subkeys]

mutual

theorem Key.conjuncts_subset (key : Key) : key.conjuncts ⊆ key.subkeys := by
  cases key with
  | criterion c => exact List.Subset.refl _
  | list first rest =>
    refine subset_cons_of_subset _ (append_subset.mpr ⟨?_, ?_⟩)
    · exact subset_append_of_subset_left _ (Key.conjuncts_subset first)
    · exact subset_append_of_subset_right _ (Keys.conjuncts_subset rest)
  | or left right | not key => simp [Key.conjuncts, Key.subkeys]

theorem Keys.conjuncts_subset (keys : Keys) : keys.conjuncts ⊆ keys.subkeys := by
  cases keys with
  | nil => exact List.Subset.refl _
  | cons key rest =>
    refine append_subset.mpr ⟨?_, ?_⟩
    · exact subset_append_of_subset_left _ (Key.conjuncts_subset key)
    · exact subset_append_of_subset_right _ (Keys.conjuncts_subset rest)

end

mutual

theorem Key.subkeys_trans {part : Key} (key : Key) (h : part ∈ key.subkeys) :
    part.subkeys ⊆ key.subkeys := by
  cases key with
  | criterion c =>
    rw [Key.subkeys, mem_singleton] at h
    rw [h]
    exact List.Subset.refl _
  | list first rest =>
    rcases mem_cons.mp h with rfl | h
    · exact List.Subset.refl _
    · refine subset_cons_of_subset _ ?_
      rcases mem_append.mp h with h | h
      · exact subset_append_of_subset_left _ (Key.subkeys_trans first h)
      · exact subset_append_of_subset_right _ (Keys.subkeys_trans rest h)
  | or left right =>
    rcases mem_cons.mp h with rfl | h
    · exact List.Subset.refl _
    · refine subset_cons_of_subset _ ?_
      rcases mem_append.mp h with h | h
      · exact subset_append_of_subset_left _ (Key.subkeys_trans left h)
      · exact subset_append_of_subset_right _ (Key.subkeys_trans right h)
  | not key =>
    rcases mem_cons.mp h with rfl | h
    · exact List.Subset.refl _
    · exact subset_cons_of_subset _ (Key.subkeys_trans key h)

theorem Keys.subkeys_trans {part : Key} (keys : Keys) (h : part ∈ keys.subkeys) :
    part.subkeys ⊆ keys.subkeys := by
  cases keys with
  | nil => cases h
  | cons key rest =>
    rcases mem_append.mp h with h | h
    · exact subset_append_of_subset_left _ (Key.subkeys_trans key h)
    · exact subset_append_of_subset_right _ (Keys.subkeys_trans rest h)

end

variable (M v) in
/-- The conjuncts of the key after each NOT stand for the same messages. -/
def NotsAgree (keys : List Key) : Prop :=
  ∀ key, Key.not key ∈ keys → ∀ a ∈ key.conjuncts, ∀ b ∈ key.conjuncts,
    M ∩ a.messages M v = M ∩ b.messages M v

variable (M v) in
/-- What the parser makes of a key stands for the messages of the key. -/
def Faithful (key : Key) : Prop :=
  ∀ d ∈ M, d ∈ forestMessages M v key.members ↔ d ∈ key.messages M v

theorem NotsAgree.mono {keys more : List Key} (h : NotsAgree M v more) (hsub : keys ⊆ more) :
    NotsAgree M v keys :=
  fun key hkey => h key (hsub hkey)

theorem notsAgree_of_single {keys : List Key}
    (h : ∀ key, Key.not key ∈ keys → key.conjuncts.length = 1) : NotsAgree M v keys := by
  intro key hkey a ha b hb
  obtain ⟨c, hc⟩ := length_eq_one_iff.mp (h key hkey)
  rw [hc, mem_singleton] at ha hb
  rw [ha, hb]

theorem mem_iff_of_agree {a b : Finset D} (h : M ∩ a = M ∩ b) (hd : d ∈ M) : d ∈ a ↔ d ∈ b := by
  have hmem := Finset.ext_iff.mp h d
  simpa [hd] using hmem

theorem faithful_list (hparts : ∀ c ∈ key.conjuncts, Faithful M v c) : Faithful M v key := by
  intro d hd
  rw [mem_forestMessages M v hd, forall_mem_iff (Key.forall₂_conjuncts M v hd key), Key.mem_messages hd]
  exact forall₂_congr fun c hc => hparts c hc d hd

theorem faithful_keys {keys : Keys} (hparts : ∀ c ∈ keys.conjuncts, Faithful M v c) :
    forestMessages M v keys.members = keys.messages M v := by
  ext d
  by_cases hd : d ∈ M
  · rw [mem_forestMessages M v hd, forall_mem_iff (Keys.forall₂_conjuncts M v hd keys),
      Keys.mem_messages hd]
    exact forall₂_congr fun c hc => hparts c hc d hd
  · constructor
    · intro hmem
      exact absurd (forestMessages_subset M v _ hmem) hd
    · intro hmem
      exact absurd (Keys.messages_subset keys hmem) hd

theorem faithful_not (hparts : ∀ c ∈ key.conjuncts, Faithful M v c)
    (hagree : ∀ a ∈ key.conjuncts, ∀ b ∈ key.conjuncts, M ∩ a.messages M v = M ∩ b.messages M v) :
    Faithful M v (.not key) := by
  intro d hd
  obtain ⟨one, hone⟩ := exists_mem_of_ne_nil _ key.conjuncts_ne_nil
  rw [mem_members_not hd, Key.messages, Finset.mem_sdiff, Key.mem_messages hd]
  constructor
  · intro hnone
    exact ⟨hd, fun hall => hnone one hone ((hparts one hone d hd).mpr (hall one hone))⟩
  · rintro ⟨-, hnot⟩ c hc hmem
    apply hnot
    intro b hb
    exact (mem_iff_of_agree (hagree c hc b hb) hd).mp ((hparts c hc d hd).mp hmem)

mutual

theorem Key.faithful_subkeys (key : Key) (h : NotsAgree M v key.subkeys) :
    ∀ part ∈ key.subkeys, Faithful M v part := by
  cases key with
  | criterion c =>
    intro part hpart d hd
    obtain rfl := mem_singleton.mp hpart
    rw [mem_forestMessages M v hd]
    simp [Key.members, Forest.values, Key.messages]
  | list first rest =>
    have hfirst := Key.faithful_subkeys first (h.mono (by simp [Key.subkeys]))
    have hrest := Keys.faithful_subkeys rest (h.mono (by simp [Key.subkeys]))
    intro part hpart
    rcases mem_cons.mp hpart with rfl | hpart
    · refine faithful_list fun c hc => ?_
      rcases mem_append.mp hc with hc | hc
      · exact hfirst c (first.conjuncts_subset hc)
      · exact hrest c (rest.conjuncts_subset hc)
    · rcases mem_append.mp hpart with hpart | hpart
      · exact hfirst part hpart
      · exact hrest part hpart
  | or left right =>
    have hleft := Key.faithful_subkeys left (h.mono (by simp [Key.subkeys]))
    have hright := Key.faithful_subkeys right (h.mono (by simp [Key.subkeys]))
    intro part hpart
    rcases mem_cons.mp hpart with rfl | hpart
    · intro d hd
      rw [mem_members_or hd, Key.messages, Finset.mem_union,
        hleft left left.mem_subkeys_self d hd, hright right right.mem_subkeys_self d hd]
    · rcases mem_append.mp hpart with hpart | hpart
      · exact hleft part hpart
      · exact hright part hpart
  | not key =>
    have hkey := Key.faithful_subkeys key (h.mono (by simp [Key.subkeys]))
    intro part hpart
    rcases mem_cons.mp hpart with rfl | hpart
    · exact faithful_not (fun c hc => hkey c (key.conjuncts_subset hc)) (h key (by simp [Key.subkeys]))
    · exact hkey part hpart

theorem Keys.faithful_subkeys (keys : Keys) (h : NotsAgree M v keys.subkeys) :
    ∀ part ∈ keys.subkeys, Faithful M v part := by
  cases keys with
  | nil =>
    intro part hpart
    cases hpart
  | cons key rest =>
    have hkey := Key.faithful_subkeys key (h.mono (by simp [Keys.subkeys]))
    have hrest := Keys.faithful_subkeys rest (h.mono (by simp [Keys.subkeys]))
    intro part hpart
    rcases mem_append.mp hpart with hpart | hpart
    · exact hkey part hpart
    · exact hrest part hpart

end

theorem agree_of_faithful (hnot : Faithful M v (.not key))
    (hparts : ∀ c ∈ key.conjuncts, Faithful M v c) {a b : Key} (ha : a ∈ key.conjuncts)
    (hb : b ∈ key.conjuncts) : M ∩ a.messages M v = M ∩ b.messages M v := by
  have himp : ∀ a ∈ key.conjuncts, ∀ b ∈ key.conjuncts, ∀ d ∈ M,
      d ∈ a.messages M v → d ∈ b.messages M v := by
    intro a ha b hb d hd hda
    -- The NOT of the parser does not hold of `d`, so the one of the tree does not either.
    have hno : d ∉ (Key.not key).messages M v := by
      rw [← hnot d hd, mem_members_not hd]
      intro hnone
      exact hnone a ha ((hparts a ha d hd).mpr hda)
    rw [Key.messages, Finset.mem_sdiff, not_and, not_not] at hno
    exact (Key.mem_messages hd key).mp (hno hd) b hb
  ext d
  simp only [Finset.mem_inter]
  constructor
  · rintro ⟨hd, hda⟩
    exact ⟨hd, himp a ha b hb d hd hda⟩
  · rintro ⟨hd, hdb⟩
    exact ⟨hd, himp b hb a ha d hd hdb⟩

theorem faithful_iff_notsAgree (keys : Keys) :
    (∀ key ∈ keys.subkeys, Faithful M v key) ↔ NotsAgree M v keys.subkeys := by
  constructor
  · intro h key hkey a ha b hb
    refine agree_of_faithful (h _ hkey) (fun c hc => h c ?_) ha hb
    have hinner : key ∈ keys.subkeys :=
      Keys.subkeys_trans keys hkey (by simp [Key.subkeys, key.mem_subkeys_self])
    exact Keys.subkeys_trans keys hinner (key.conjuncts_subset hc)
  · exact fun h => Keys.faithful_subkeys keys h

end Meaning

/-! ## The parser on the tokens of a tree -/

section Parser

variable {codec : Codec} {client : Client}

mutual

theorem Key.writable_subkeys {part : Key} (key : Key) (h : key.Writable codec client)
    (hpart : part ∈ key.subkeys) : part.Writable codec client ∧ part.depth ≤ key.depth := by
  cases key with
  | criterion c =>
    obtain rfl := mem_singleton.mp hpart
    exact ⟨h, Nat.le_refl _⟩
  | list first rest =>
    rcases mem_cons.mp hpart with rfl | hpart
    · exact ⟨h, Nat.le_refl _⟩
    · rw [Key.depth]
      rcases mem_append.mp hpart with hpart | hpart
      · have hin := Key.writable_subkeys first h.1 hpart
        exact ⟨hin.1, by omega⟩
      · have hin := Keys.writable_subkeys rest h.2 hpart
        exact ⟨hin.1, by omega⟩
  | or left right =>
    rcases mem_cons.mp hpart with rfl | hpart
    · exact ⟨h, Nat.le_refl _⟩
    · rw [Key.depth]
      rcases mem_append.mp hpart with hpart | hpart
      · have hin := Key.writable_subkeys left h.1 hpart
        exact ⟨hin.1, by omega⟩
      · have hin := Key.writable_subkeys right h.2 hpart
        exact ⟨hin.1, by omega⟩
  | not key =>
    rcases mem_cons.mp hpart with rfl | hpart
    · exact ⟨h, Nat.le_refl _⟩
    · have hin := Key.writable_subkeys key h hpart
      rw [Key.depth]
      exact ⟨hin.1, by omega⟩

theorem Keys.writable_subkeys {part : Key} (keys : Keys) (h : keys.Writable codec client)
    (hpart : part ∈ keys.subkeys) : part.Writable codec client ∧ part.depth ≤ keys.depth := by
  cases keys with
  | nil => cases hpart
  | cons key rest =>
    rw [Keys.depth]
    rcases mem_append.mp hpart with hpart | hpart
    · have hin := Key.writable_subkeys key h.1 hpart
      exact ⟨hin.1, by omega⟩
    · have hin := Keys.writable_subkeys rest h.2 hpart
      exact ⟨hin.1, by omega⟩

end

theorem parseFilters_key (h : key.Writable codec client) (hd : key.depth ≤ 11) :
    parseFilters codec (key.tokens client) = .ok (forestFilters key.members) := by
  have hone := parseFilters_tokens (.cons key .nil) (show (Keys.cons key .nil).Writable codec client
    from ⟨h, trivial⟩) (by simpa [Keys.depth] using hd)
  simpa [Keys.tokens, Keys.members, Forest.append_nil] using hone

variable {D : Type} [DecidableEq D]

/-- The parser accepts the tokens, with filters that stand for the messages `set`. -/
def Means (codec : Codec) (M : Finset D) (v : Criterion → Finset D) (tokens : List Token)
    (set : Finset D) : Prop :=
  ∃ filters, parseFilters codec tokens = .ok filters ∧ standsFor M v filters = some set

theorem means_key_iff {M : Finset D} {v : Criterion → Finset D} (h : key.Writable codec client)
    (hd : key.depth ≤ 11) :
    Means codec M v (key.tokens client) (M ∩ key.messages M v) ↔ Faithful M v key := by
  have hparse := parseFilters_key h hd
  have hsub := forestMessages_subset M v key.members
  constructor
  · rintro ⟨filters, hok, hden⟩ d hdM
    rw [hparse] at hok
    cases hok
    rw [standsFor_forestFilters, Option.some.injEq] at hden
    rw [hden]
    simp [hdM]
  · intro hf
    refine ⟨_, hparse, ?_⟩
    rw [standsFor_forestFilters, Option.some.injEq]
    ext d
    rw [Finset.mem_inter]
    constructor
    · exact fun hmem => ⟨hsub hmem, (hf d (hsub hmem)).mp hmem⟩
    · exact fun hmem => (hf d hmem.1).mpr hmem.2

/-- The tokens of every sequence of search keys within the nesting limit are accepted. The
filters stand for the messages of the keys when the conjuncts after every NOT agree, and the
parser keeps every part of the keys only then. -/
theorem parseFilters_means (keys : Keys) (hw : keys.Writable codec client) (hd : keys.depth ≤ 11)
    (M : Finset D) (v : Criterion → Finset D) :
    (∃ filters, parseFilters codec (keys.tokens client) = .ok filters) ∧
      (NotsAgree M v keys.subkeys → Means codec M v (keys.tokens client) (keys.messages M v)) ∧
      ((∀ key ∈ keys.subkeys, Means codec M v (key.tokens client) (M ∩ key.messages M v)) ↔
        NotsAgree M v keys.subkeys) := by
  have hparse := parseFilters_tokens keys hw hd
  refine ⟨⟨_, hparse⟩, ?_, ?_⟩
  · intro hagree
    have hall := (faithful_iff_notsAgree keys).mpr hagree
    refine ⟨_, hparse, ?_⟩
    rw [standsFor_forestFilters, faithful_keys fun c hc => hall c (keys.conjuncts_subset hc)]
  · rw [← faithful_iff_notsAgree]
    refine forall₂_congr fun key hkey => ?_
    obtain ⟨hwkey, hdkey⟩ := Keys.writable_subkeys keys hw hkey
    exact means_key_iff hwkey (Nat.le_trans hdkey hd)

end Parser

/-! ## Two searches -/

def plainClient : Client where
  encode := utf8
  day := fun _ => utf8 "1-Feb-1994"

def plainCodec : Codec where
  decoder := none
  calendar := ⟨fun s => if s = "1-Feb-1994" then some 760060800 else none⟩

def twoMessages : Criterion → Finset Nat
  | .plain .seen => {1}
  | .plain .flagged => {2}
  | _ => {1, 2}

def notFromSmith : Keys :=
  .cons (.criterion (.date .since 760060800))
    (.cons (.not (.list (.criterion (.string .from_ "Smith")) .nil)) .nil)

theorem writable_notFromSmith : notFromSmith.Writable plainCodec plainClient := by
  have htext : decodeBytes plainCodec (utf8 "Smith") = .ok "Smith" := by
    simp [decodeBytes, plainCodec, fromUtf8_utf8]
  exact ⟨show parseDate plainCodec.calendar (utf8 "1-Feb-1994") = .ok 760060800 from rfl,
    ⟨htext, trivial⟩, trivial⟩

theorem parseFilters_means_notFromSmith :
    Means plainCodec {1, 2} twoMessages (notFromSmith.tokens plainClient) ∅ := by
  have hdepth : notFromSmith.depth ≤ 11 := by decide
  have hagree : NotsAgree {1, 2} twoMessages notFromSmith.subkeys := by
    refine notsAgree_of_single fun key hkey => ?_
    simp only [notFromSmith, Keys.subkeys, Key.subkeys, List.append_nil, mem_append,
      mem_cons, not_mem_nil, or_false, reduceCtorEq, false_or, Key.not.injEq] at hkey
    rw [hkey]
    rfl
  have hmeans := (parseFilters_means notFromSmith writable_notFromSmith hdepth {1, 2} twoMessages).2.1 hagree
  have hnone : notFromSmith.messages {1, 2} twoMessages = ∅ := by decide
  rwa [hnone] at hmeans

def notBoth : Key :=
  .not (.list (.criterion (.plain .seen)) (.cons (.criterion (.plain .flagged)) .nil))

/-- No message is both seen and flagged, yet the filters of the parser leave out every one that
is either. -/
theorem not_list_becomes_neither :
    notBoth.messages {1, 2} twoMessages = {1, 2} ∧
      Means plainCodec {1, 2} twoMessages (notBoth.tokens plainClient) ∅ ∧
      ¬ Means plainCodec {1, 2} twoMessages (notBoth.tokens plainClient)
        (notBoth.messages {1, 2} twoMessages) := by
  have hparse : parseFilters plainCodec (notBoth.tokens plainClient) =
      .ok (forestFilters notBoth.members) :=
    parseFilters_key (show notBoth.Writable plainCodec plainClient from ⟨trivial, trivial, trivial⟩)
      (by decide)
  have hboth : notBoth.messages {1, 2} twoMessages = {1, 2} := by decide
  have hden : standsFor {1, 2} twoMessages (forestFilters notBoth.members) = some ∅ := by
    decide
  refine ⟨hboth, ⟨_, hparse, hden⟩, ?_⟩
  rintro ⟨filters, hok, hset⟩
  rw [hparse] at hok
  cases hok
  exact absurd (Option.some.inj hset) (by decide)

end Bearmail.Imap
