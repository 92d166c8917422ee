import Bearmail.Sync.Entry

/-!
# The net effect of a range of commits

What a client is told of a container or an item should be the net effect of all that was done to it. A
commit keeps marks for it, from which the entry is written, and an entry is folded into what is told.

A container of which only properties were changed, and which a later commit destroys, is told as both: the
loop over the deletes does not take back the change of the property.
-/

namespace Bearmail.Sync

open Bearmail.Store (LogCall SyncCollection ChangeLogBuilder)
open List Bool

/-! ## What is done to an object -/

inductive Action where
  | create
  | update
  | property
  | delete
  deriving DecidableEq

def Action.permitted (alive : Bool) : Action → Bool
  | .create => !alive
  | _ => alive

def Action.leaves (alive : Bool) : Action → Bool
  | .create => true
  | .delete => false
  | _ => alive

/-- Nothing is done to an object that is not there, and it is created only when it is not. -/
def permitted (alive : Bool) : List Action → Bool
  | [] => true
  | action :: rest => action.permitted alive && permitted (action.leaves alive) rest

def leaves (alive : Bool) (actions : List Action) : Bool := actions.foldl Action.leaves alive

inductive Standing where
  | absent
  | present
  | destroyed
  deriving DecidableEq

def Standing.ofBool (existed : Bool) : Standing := if existed then .present else .absent

/-- An object that a commit has destroyed is not created again by a later one. -/
def Standing.permits (standing : Standing) (commit : List Action) : Bool :=
  match standing with
  | .absent => permitted false commit
  | .present => permitted true commit
  | .destroyed => decide (commit = [])

def Standing.after (standing : Standing) (commit : List Action) : Standing :=
  if commit = [] then standing
  else if leaves (decide (standing = .present)) commit then .present else .destroyed

def lives : Standing → List (List Action) → Bool
  | _, [] => true
  | standing, commit :: rest => standing.permits commit && lives (standing.after commit) rest

def netEffect (existed : Bool) (actions : List Action) : Option ChangeKind :=
  match existed, leaves existed actions with
  | false, false => none
  | false, true => some .insert
  | true, false => some .delete
  | true, true =>
    if .update ∈ actions ∨ .create ∈ actions then some .update
    else if .property ∈ actions then some .updateProperty
    else none

/-- A commit destroys an object of which the commits before it have only changed properties. -/
def Stranded (history : List (List Action)) : Prop :=
  ∃ before commit after, history = before ++ commit :: after ∧ before.flatten ≠ [] ∧
    (∀ action ∈ before.flatten, action = .property) ∧ leaves true commit = false

/-! ## Marks -/

structure Marks where
  inserted : Bool
  updated : Bool
  property : Bool
  deleted : Bool
  deriving DecidableEq

def Marks.none : Marks := ⟨false, false, false, false⟩

def Marks.act (marks : Marks) : Action → Marks
  | .create =>
    if marks.deleted then { marks with deleted := false, updated := true }
    else { marks with inserted := true }
  | .update => { marks with updated := true }
  | .property => { marks with property := true }
  | .delete => { marks with updated := false, property := false, deleted := true }

def Marks.of (commit : List Action) : Marks := commit.foldl Marks.act .none

/-- What is told of an object behind one more entry. -/
def Marks.fold (marks : Marks) (kinds : List ChangeKind) : List ChangeKind :=
  let inserted := if marks.inserted then insertKinds kinds else kinds
  let updated := if marks.updated then updateKinds false inserted else inserted
  let touched := if marks.property then updateKinds true updated else updated
  if marks.deleted then deleteKinds touched else touched

variable {commit : List Action} {kinds : List ChangeKind}

section Commit

theorem permitted_append_singleton (alive : Bool) (commit : List Action) (action : Action) :
    permitted alive (commit ++ [action]) =
      (permitted alive commit && action.permitted (leaves alive commit)) := by
  induction commit generalizing alive with
  | nil => simp [permitted, leaves]
  | cons first rest ih =>
    rw [cons_append, permitted, ih, permitted, Bool.and_assoc]
    rfl

theorem leaves_append_singleton (alive : Bool) (commit : List Action) (action : Action) :
    leaves alive (commit ++ [action]) = action.leaves (leaves alive commit) := by
  rw [leaves, foldl_append]
  rfl

theorem Marks.of_append_singleton (commit : List Action) (action : Action) :
    Marks.of (commit ++ [action]) = (Marks.of commit).act action := by
  rw [Marks.of, foldl_append]
  rfl

structure Marks.Kept (commit : List Action) (marks : Marks) : Prop where
  inserted : marks.inserted = false
  deleted : marks.deleted = !leaves true commit
  cleared : marks.deleted = true → marks.updated = false ∧ marks.property = false
  updated : marks.deleted = false → (marks.updated = true ↔ .update ∈ commit ∨ .create ∈ commit)
  property : marks.deleted = false → marks.updated = false → (marks.property = true ↔ .property ∈ commit)

theorem Marks.kept_of (h : permitted true commit = true) : Marks.Kept commit (.of commit) := by
  induction commit using List.reverseRecOn with
  | nil => exact ⟨rfl, rfl, fun _ => ⟨rfl, rfl⟩, by simp [Marks.of, Marks.none], by simp [Marks.of, Marks.none]⟩
  | append_singleton commit action ih =>
    rw [permitted_append_singleton, and_eq_true] at h
    obtain ⟨hinserted, hdeleted, hcleared, hupdated, hproperty⟩ := ih h.1
    have hpermitted := h.2
    have hleaves := leaves_append_singleton true commit action
    rw [Marks.of_append_singleton]
    cases action with
    | create =>
      have halive : leaves true commit = false := by simpa [Action.permitted] using hpermitted
      rw [halive] at hdeleted
      have hact : (Marks.of commit).act .create =
          { Marks.of commit with deleted := false, updated := true } := by
        simp [Marks.act, hdeleted]
      rw [hact]
      exact ⟨hinserted, by rw [hleaves]; rfl, nofun, by simp, nofun⟩
    | update =>
      have halive : leaves true commit = true := hpermitted
      rw [halive] at hdeleted
      exact ⟨hinserted, by rw [hleaves, halive]; exact hdeleted,
        fun h => absurd (h.symm.trans hdeleted) nofun, by simp [Marks.act], nofun⟩
    | property =>
      have halive : leaves true commit = true := hpermitted
      rw [halive] at hdeleted
      refine ⟨hinserted, by rw [hleaves, halive]; exact hdeleted,
        fun h => absurd (h.symm.trans hdeleted) nofun, ?_, by simp [Marks.act]⟩
      simpa [Marks.act] using hupdated
    | delete =>
      exact ⟨hinserted, by rw [hleaves]; rfl, fun _ => ⟨rfl, rfl⟩, nofun, nofun⟩

structure Marks.New (commit : List Action) (marks : Marks) : Prop where
  created : .create ∈ commit
  inserted : marks.inserted = true
  deleted : marks.deleted = !leaves false commit
  cleared : marks.deleted = true → marks.updated = false ∧ marks.property = false

theorem Marks.new_of (h : permitted false commit = true) (hne : commit ≠ []) :
    Marks.New commit (.of commit) := by
  induction commit using List.reverseRecOn with
  | nil => exact absurd rfl hne
  | append_singleton commit action ih =>
    rw [permitted_append_singleton, and_eq_true] at h
    have hpermitted := h.2
    have hleaves := leaves_append_singleton false commit action
    rw [Marks.of_append_singleton]
    by_cases hnil : commit = []
    · subst hnil
      cases action with
      | create => exact ⟨mem_cons_self, rfl, rfl, nofun⟩
      | update | property | delete => cases hpermitted
    · obtain ⟨hcreated, hinserted, hdeleted, hcleared⟩ := ih h.1 hnil
      have hmem := mem_append_left [action] hcreated
      cases action with
      | create =>
        have halive : leaves false commit = false := by simpa [Action.permitted] using hpermitted
        rw [halive] at hdeleted
        have hact : (Marks.of commit).act .create =
            { Marks.of commit with deleted := false, updated := true } := by
          simp [Marks.act, hdeleted]
        rw [hact]
        exact ⟨hmem, hinserted, by rw [hleaves]; rfl, nofun⟩
      | update | property =>
        have halive : leaves false commit = true := hpermitted
        rw [halive] at hdeleted
        exact ⟨hmem, hinserted, by rw [hleaves, halive]; exact hdeleted,
          fun h => absurd (h.symm.trans hdeleted) nofun⟩
      | delete =>
        exact ⟨hmem, hinserted, by rw [hleaves]; rfl, fun _ => ⟨rfl, rfl⟩⟩

end Commit

/-! ## What is told of one object -/

section History

variable {existed : Bool} {history : List (List Action)}

/-- What is told of an object behind each of its commits. -/
def told (history : List (List Action)) : List ChangeKind :=
  history.foldl (fun kinds commit => (Marks.of commit).fold kinds) []

def standing (existed : Bool) (history : List (List Action)) : Standing :=
  history.foldl Standing.after (.ofBool existed)

theorem told_append_singleton (history : List (List Action)) (commit : List Action) :
    told (history ++ [commit]) = (Marks.of commit).fold (told history) := by
  rw [told, foldl_append]
  rfl

theorem standing_append_singleton (history : List (List Action)) (commit : List Action) :
    standing existed (history ++ [commit]) = (standing existed history).after commit := by
  rw [standing, foldl_append]
  rfl

theorem lives_append_singleton (start : Standing) (history : List (List Action)) (commit : List Action) :
    lives start (history ++ [commit]) =
      (lives start history && (history.foldl Standing.after start).permits commit) := by
  induction history generalizing start with
  | nil => simp [lives]
  | cons first rest ih =>
    rw [cons_append, lives, ih, lives, Bool.and_assoc]
    rfl

theorem stranded_append_singleton (history : List (List Action)) (commit : List Action) :
    Stranded (history ++ [commit]) ↔ Stranded history ∨ (history.flatten ≠ [] ∧
      (∀ action ∈ history.flatten, action = .property) ∧ leaves true commit = false) := by
  constructor
  · rintro ⟨before, destroyed, after, hsplit, hbefore⟩
    rcases eq_nil_or_concat after with rfl | ⟨after, last, rfl⟩
    · obtain ⟨rfl, hlast⟩ := append_inj' hsplit rfl
      cases hlast
      exact .inr hbefore
    · left
      have hsplit' : history ++ [commit] = (before ++ destroyed :: after) ++ [last] := by
        rw [hsplit]
        simp
      obtain ⟨rfl, -⟩ := append_inj' hsplit' rfl
      exact ⟨before, destroyed, after, rfl, hbefore⟩
  · rintro (⟨before, destroyed, after, rfl, hbefore⟩ | hlast)
    · exact ⟨before, destroyed, after ++ [commit], by simp, hbefore⟩
    · exact ⟨history, commit, [], rfl, hlast⟩

theorem flatten_append_singleton (history : List (List Action)) (commit : List Action) :
    (history ++ [commit]).flatten = history.flatten ++ commit := by
  simp

/-- What is told of an object, by what has been done to it. -/
inductive Told (existed : Bool) (history : List (List Action)) : Standing → List ChangeKind → Prop
  | absent : existed = false → history.flatten = [] → ¬ Stranded history →
      Told existed history .absent []
  | untouched : existed = true → history.flatten = [] → ¬ Stranded history →
      Told existed history .present []
  | inserted : existed = false → .create ∈ history.flatten → ¬ Stranded history →
      Told existed history .present [.insert]
  | property : existed = true → history.flatten ≠ [] →
      (∀ action ∈ history.flatten, action = .property) → ¬ Stranded history →
      Told existed history .present [.updateProperty]
  | updated : existed = true → .update ∈ history.flatten ∨ .create ∈ history.flatten →
      ¬ Stranded history → Told existed history .present [.update]
  | cancelled : existed = false → .create ∈ history.flatten → ¬ Stranded history →
      Told existed history .destroyed []
  | deleted : existed = true → ¬ Stranded history → Told existed history .destroyed [.delete]
  | stranded : existed = true → Stranded history →
      Told existed history .destroyed [.updateProperty, .delete]

section Fold

variable {marks : Marks}

theorem Marks.fold_created (h : marks.inserted = true) :
    marks.fold [] = if marks.deleted then [] else [.insert] := by
  obtain ⟨inserted, updated, property, deleted⟩ := marks
  cases h
  cases updated <;> cases property <;> cases deleted <;> rfl

variable (h : marks.inserted = false)
include h

theorem Marks.fold_insert : marks.fold [.insert] = if marks.deleted then [] else [.insert] := by
  obtain ⟨inserted, updated, property, deleted⟩ := marks
  cases h
  cases updated <;> cases property <;> cases deleted <;> rfl

theorem Marks.fold_update : marks.fold [.update] = if marks.deleted then [.delete] else [.update] := by
  obtain ⟨inserted, updated, property, deleted⟩ := marks
  cases h
  cases updated <;> cases property <;> cases deleted <;> rfl

theorem Marks.fold_nil (hcleared : marks.deleted = true → marks.updated = false ∧ marks.property = false) :
    marks.fold [] = if marks.deleted then [.delete] else if marks.updated then [.update]
      else if marks.property then [.updateProperty] else [] := by
  obtain ⟨inserted, updated, property, deleted⟩ := marks
  cases h
  cases deleted with
  | false => cases updated <;> cases property <;> rfl
  | true =>
    obtain ⟨rfl, rfl⟩ := hcleared rfl
    rfl

theorem Marks.fold_property
    (hcleared : marks.deleted = true → marks.updated = false ∧ marks.property = false) :
    marks.fold [.updateProperty] = if marks.deleted then [.updateProperty, .delete]
      else if marks.updated then [.update] else [.updateProperty] := by
  obtain ⟨inserted, updated, property, deleted⟩ := marks
  cases h
  cases deleted with
  | false => cases updated <;> cases property <;> rfl
  | true =>
    obtain ⟨rfl, rfl⟩ := hcleared rfl
    rfl

omit h

end Fold

/-- A commit that updates nothing, and does not destroy the object, changes its properties. -/
theorem eq_property (h : leaves true commit = true) (hnot : ¬ (.update ∈ commit ∨ .create ∈ commit)) :
    ∀ action ∈ commit, action = .property := by
  induction commit using List.reverseRecOn with
  | nil => exact nofun
  | append_singleton commit last ih =>
    rw [leaves_append_singleton] at h
    have hrest := fun (hmem : .update ∈ commit ∨ .create ∈ commit) =>
      hnot (hmem.imp (mem_append_left _) (mem_append_left _))
    cases last with
    | create => exact absurd (.inr (by simp)) hnot
    | update => exact absurd (.inl (by simp)) hnot
    | delete => cases h
    | property =>
      intro action hmem
      rcases mem_append.mp hmem with hmem | hmem
      · exact ih h hrest action hmem
      · exact mem_singleton.mp hmem

theorem Told.nil {s : Standing} (h : Told existed history s kinds) :
    Told existed (history ++ [[]]) s kinds := by
  have hflatten : (history ++ [[]]).flatten = history.flatten := by simp
  have hstranded : Stranded (history ++ [[]]) ↔ Stranded history := by
    rw [stranded_append_singleton]
    exact or_iff_left fun h => absurd h.2.2 nofun
  cases h with
  | absent h1 h2 h3 => exact .absent h1 (hflatten ▸ h2) (hstranded.not.mpr h3)
  | untouched h1 h2 h3 => exact .untouched h1 (hflatten ▸ h2) (hstranded.not.mpr h3)
  | inserted h1 h2 h3 => exact .inserted h1 (hflatten ▸ h2) (hstranded.not.mpr h3)
  | property h1 h2 h3 h4 =>
    exact .property h1 (hflatten ▸ h2) (hflatten ▸ h3) (hstranded.not.mpr h4)
  | updated h1 h2 h3 => exact .updated h1 (hflatten ▸ h2) (hstranded.not.mpr h3)
  | cancelled h1 h2 h3 => exact .cancelled h1 (hflatten ▸ h2) (hstranded.not.mpr h3)
  | deleted h1 h2 => exact .deleted h1 (hstranded.not.mpr h2)
  | stranded h1 h2 => exact .stranded h1 (hstranded.mpr h2)

theorem Standing.after_of_ne {s : Standing} (hne : commit ≠ []) : s.after commit =
      if leaves (decide (s = .present)) commit then .present else .destroyed := by
  simp [Standing.after, hne]

theorem not_stranded (h : ¬ Stranded history)
    (hnot : history.flatten = [] ∨ .update ∈ history.flatten ∨ .create ∈ history.flatten) :
    ¬ Stranded (history ++ [commit]) := by
  rw [stranded_append_singleton]
  rintro (hstranded | ⟨hne, hall, -⟩)
  · exact h hstranded
  · rcases hnot with hnil | hmem | hmem
    · exact hne hnil
    · cases hall _ hmem
    · cases hall _ hmem

theorem Told.kept (h : Told existed history .present kinds)
    (hpermitted : permitted true commit = true) (hne : commit ≠ []) :
    Told existed (history ++ [commit]) (Standing.present.after commit)
      ((Marks.of commit).fold kinds) := by
  obtain ⟨hinserted, hdeleted, hcleared, hupdated, hproperty⟩ := Marks.kept_of hpermitted
  have hleft : ∀ {action : Action}, action ∈ history.flatten →
      action ∈ (history ++ [commit]).flatten := fun hmem => by
    rw [flatten_append_singleton]
    exact mem_append_left _ hmem
  have hright : ∀ {action : Action}, action ∈ commit → action ∈ (history ++ [commit]).flatten :=
    fun hmem => by
      rw [flatten_append_singleton]
      exact mem_append_right _ hmem
  -- what a commit that leaves the object does, when it updates nothing
  have honly : leaves true commit = true → (Marks.of commit).updated = false →
      (∀ action ∈ commit, action = .property) ∧ (Marks.of commit).property = true := by
    intro halive hnot
    rw [halive] at hdeleted
    have hall := eq_property halive fun hmem => by
      rw [(hupdated hdeleted).mpr hmem] at hnot
      cases hnot
    obtain ⟨first, rest, rfl⟩ := exists_cons_of_ne_nil hne
    refine ⟨hall, (hproperty hdeleted hnot).mpr ?_⟩
    rw [← hall first mem_cons_self]
    exact mem_cons_self
  rw [Standing.after_of_ne hne, decide_eq_true rfl]
  cases halive : leaves true commit with
  | false =>
    rw [halive] at hdeleted
    cases h with
    | untouched h1 h2 h3 =>
      rw [Marks.fold_nil hinserted hcleared, hdeleted]
      exact .deleted h1 (not_stranded h3 (.inl h2))
    | inserted h1 h2 h3 =>
      rw [Marks.fold_insert hinserted, hdeleted]
      exact .cancelled h1 (hleft h2) (not_stranded h3 (.inr (.inr h2)))
    | property h1 h2 h3 h4 =>
      rw [Marks.fold_property hinserted hcleared, hdeleted]
      exact .stranded h1 ((stranded_append_singleton history commit).mpr (.inr ⟨h2, h3, halive⟩))
    | updated h1 h2 h3 =>
      rw [Marks.fold_update hinserted, hdeleted]
      exact .deleted h1 (not_stranded h3 (.inr h2))
  | true =>
    have honly := honly halive
    rw [halive] at hdeleted
    have hnew : ¬ Stranded history → ¬ Stranded (history ++ [commit]) := by
      intro h hstranded
      rcases (stranded_append_singleton history commit).mp hstranded with hold | ⟨-, -, hgone⟩
      · exact h hold
      · rw [halive] at hgone
        cases hgone
    cases h with
    | untouched h1 h2 h3 =>
      rw [Marks.fold_nil hinserted hcleared, hdeleted]
      cases hmark : (Marks.of commit).updated with
      | true => exact .updated h1 (((hupdated hdeleted).mp hmark).imp hright hright) (hnew h3)
      | false =>
        obtain ⟨hall, hproperty⟩ := honly hmark
        rw [hproperty]
        refine .property h1 ?_ ?_ (hnew h3)
        all_goals rwa [flatten_append_singleton, h2, nil_append]
    | inserted h1 h2 h3 =>
      rw [Marks.fold_insert hinserted, hdeleted]
      exact .inserted h1 (hleft h2) (hnew h3)
    | property h1 h2 h3 h4 =>
      rw [Marks.fold_property hinserted hcleared, hdeleted]
      cases hmark : (Marks.of commit).updated with
      | true => exact .updated h1 (((hupdated hdeleted).mp hmark).imp hright hright) (hnew h4)
      | false =>
        obtain ⟨hall, -⟩ := honly hmark
        refine .property h1 ?_ ?_ (hnew h4)
        · rw [flatten_append_singleton]
          exact append_ne_nil_of_left_ne_nil h2 _
        · rw [flatten_append_singleton]
          exact forall_mem_append.mpr ⟨h3, hall⟩
    | updated h1 h2 h3 =>
      rw [Marks.fold_update hinserted, hdeleted]
      exact .updated h1 (h2.imp hleft hleft) (hnew h3)

theorem Told.new (h : Told existed history .absent kinds)
    (hpermitted : permitted false commit = true) (hne : commit ≠ []) :
    Told existed (history ++ [commit]) (Standing.absent.after commit)
      ((Marks.of commit).fold kinds) := by
  cases h with
  | absent h1 h2 h3 =>
    obtain ⟨hcreated, hinserted, hdeleted, -⟩ := Marks.new_of hpermitted hne
    have hflatten : .create ∈ (history ++ [commit]).flatten := by
      rw [flatten_append_singleton]
      exact mem_append_right _ hcreated
    have hstranded : ¬ Stranded (history ++ [commit]) := not_stranded h3 (.inl h2)
    rw [Standing.after_of_ne hne, Marks.fold_created hinserted, hdeleted]
    show Told existed _ (if leaves false commit then _ else _) _
    cases leaves false commit with
    | false => exact .cancelled h1 hflatten hstranded
    | true => exact .inserted h1 hflatten hstranded

variable (h : lives (.ofBool existed) history = true)
include h

theorem told_of_lives : Told existed history (standing existed history) (told history) := by
  induction history using List.reverseRecOn with
  | nil =>
    have hstranded : ¬ Stranded [] := by
      rintro ⟨before, commit, after, hsplit, -⟩
      simp at hsplit
    cases existed with
    | false => exact .absent rfl rfl hstranded
    | true => exact .untouched rfl rfl hstranded
  | append_singleton history commit ih =>
    rw [lives_append_singleton, and_eq_true] at h
    have ih := ih h.1
    have hpermits : (standing existed history).permits commit = true := h.2
    rw [standing_append_singleton, told_append_singleton]
    by_cases hne : commit = []
    · subst hne
      exact ih.nil
    · cases hstanding : standing existed history with
      | absent =>
        rw [hstanding] at ih hpermits
        exact ih.new hpermits hne
      | present =>
        rw [hstanding] at ih hpermits
        exact ih.kept hpermits hne
      | destroyed =>
        rw [hstanding] at hpermits
        exact absurd (of_decide_eq_true hpermits) hne

theorem leaves_flatten :
    leaves existed history.flatten = decide (standing existed history = .present) := by
  induction history using List.reverseRecOn with
  | nil => cases existed <;> rfl
  | append_singleton history commit ih =>
    rw [lives_append_singleton, and_eq_true] at h
    have ih := ih h.1
    rw [flatten_append_singleton, leaves, foldl_append, standing_append_singleton]
    change leaves (leaves existed history.flatten) commit = _
    rw [ih]
    by_cases hne : commit = []
    · subst hne
      rfl
    · rw [Standing.after_of_ne hne]
      cases leaves (decide (standing existed history = .present)) commit <;> rfl

theorem told_eq_netEffect :
    told history = (netEffect existed history.flatten).toList ↔ ¬ Stranded history := by
  have htold := told_of_lives h
  have hleaves := leaves_flatten h
  revert htold hleaves
  generalize standing existed history = s
  generalize told history = kinds
  intro htold hleaves
  unfold netEffect
  cases htold with
  | absent h1 h2 h3 =>
    subst h1
    simp [hleaves, h3]
  | untouched h1 h2 h3 =>
    subst h1
    rw [hleaves, h2]
    simpa using h3
  | inserted h1 h2 h3 =>
    subst h1
    simp [hleaves, h3]
  | property h1 h2 h3 h4 =>
    subst h1
    have hupdated : ¬ (.update ∈ history.flatten ∨ .create ∈ history.flatten) := by
      rintro (hmem | hmem)
      · cases h3 _ hmem
      · cases h3 _ hmem
    have hproperty : .property ∈ history.flatten := by
      obtain ⟨action, hmem⟩ := exists_mem_of_ne_nil _ h2
      exact h3 action hmem ▸ hmem
    rw [hleaves]
    rw [if_neg hupdated, if_pos hproperty]
    simpa using h4
  | updated h1 h2 h3 =>
    subst h1
    rw [hleaves]
    rw [if_pos h2]
    simpa using h3
  | cancelled h1 h2 h3 =>
    subst h1
    simp [hleaves, h3]
  | deleted h1 h2 | stranded h1 h2 =>
    subst h1
    simp [hleaves, h2]

omit h

end History

end Bearmail.Sync
