import Mathlib.Data.List.Induction

/-!
# Machines that report

A machine reads symbols one by one and now and then gives a report. It may be fed in pieces,
with a reader that leaves the rest of a piece when it meets a report that stops it.
-/

namespace Reports

open List

variable {σ β ρ : Type*} (step : σ → β → σ × Option ρ) (stops : ρ → Bool)

/-- The machine after some symbols, and all its reports. -/
def feed : σ → List β → σ × List ρ
  | s, [] => (s, [])
  | s, b :: bs =>
    let next := step s b
    let rest := feed next.1 bs
    (rest.1, next.2.toList ++ rest.2)

def feedPiece : σ → List β → σ × List ρ
  | s, [] => (s, [])
  | s, b :: bs =>
    match step s b with
    | (s, none) => feedPiece s bs
    | (s, some report) =>
      if stops report then (s, [report])
      else
        let rest := feedPiece s bs
        (rest.1, report :: rest.2)

def feedPieces : σ → List (List β) → σ × List ρ
  | s, [] => (s, [])
  | s, piece :: pieces =>
    let first := feedPiece step stops s piece
    let rest := feedPieces first.1 pieces
    (rest.1, first.2 ++ rest.2)

variable {step stops}

attribute [local simp] feed feedPiece feedPieces

theorem feed_append (s : σ) (xs ys : List β) : feed step s (xs ++ ys) =
      ((feed step (feed step s xs).1 ys).1,
        (feed step s xs).2 ++ (feed step (feed step s xs).1 ys).2) := by
  induction xs generalizing s with
  | nil => rfl
  | cons x xs ih =>
    simp [feed, ih]

variable {s : σ} {xs : List β}

theorem feedPiece_eq_feed (h : ∀ report ∈ (feed step s xs).2, stops report = false) :
    feedPiece step stops s xs = feed step s xs := by
  induction xs generalizing s with
  | nil => rfl
  | cons x xs ih =>
    rw [feedPiece]
    simp only [feed] at h ⊢
    cases hstep : step s x with
    | mk next report =>
      simp only [hstep] at h ⊢
      have hrest : feedPiece step stops next xs = feed step next xs :=
        ih fun r hr => h r (mem_append_right _ hr)
      cases report with
      | none => exact hrest
      | some report =>
        have hgoes : stops report = false := h report (by simp)
        simp only [hgoes, Bool.false_eq_true, if_false, hrest]
        rfl

def StopsAt (step : σ → β → σ × Option ρ) (stops : ρ → Bool) (s : σ) (xs : List β) : Prop :=
  ∃ init last report, xs = init ++ [last] ∧ (∀ r ∈ (feed step s init).2, stops r = false) ∧
    (step (feed step s init).1 last).2 = some report ∧ stops report = true

theorem feedPiece_of_stopsAt (h : StopsAt step stops s xs) (ys : List β) :
    feedPiece step stops s (xs ++ ys) = feed step s xs := by
  obtain ⟨init, last, report, rfl, hinit, hlast, hstop⟩ := h
  induction init generalizing s with
  | nil =>
    simp only [feed] at hlast
    simp only [nil_append, singleton_append, feedPiece, feed]
    cases hstep : step s last with
    | mk next report' =>
      rw [hstep] at hlast
      subst hlast
      simp [hstop]
  | cons x init ih =>
    simp only [feed] at hinit hlast
    simp only [cons_append, feedPiece, feed]
    cases hstep : step s x with
    | mk next report' =>
      simp only [hstep] at hinit hlast ⊢
      have hrest := ih (fun r hr => hinit r (mem_append_right _ hr)) hlast
      cases report' with
      | none => exact hrest
      | some report' =>
        have hgoes : stops report' = false := hinit report' (by simp)
        simp only [hgoes, Bool.false_eq_true, if_false, hrest]
        rfl

theorem stop_cases (step : σ → β → σ × Option ρ) (stops : ρ → Bool) (s : σ) (xs : List β) :
    (∀ report ∈ (feed step s xs).2, stops report = false) ∨
      ∃ front back, xs = front ++ back ∧ StopsAt step stops s front := by
  induction xs using List.reverseRecOn with
  | nil => exact Or.inl fun report h => by cases h
  | append_singleton xs x ih =>
    rcases ih with hgoes | ⟨front, back, rfl, hstop⟩
    · cases hreport : (step (feed step s xs).1 x).2 with
      | none =>
        left
        rw [feed_append]
        simp only [feed, hreport, Option.toList_none, List.append_nil]
        exact hgoes
      | some report =>
        cases hstop : stops report with
        | false =>
          left
          rw [feed_append]
          simp only [feed, hreport, Option.toList_some, List.append_nil, mem_append, mem_singleton]
          rintro r (hr | rfl)
          · exact hgoes r hr
          · exact hstop
        | true =>
          exact Or.inr ⟨xs ++ [x], [], by simp, xs, x, report, rfl, hgoes, hreport, hstop⟩
    · exact Or.inr ⟨front, back ++ [x], by simp, hstop⟩

/-- No rest of the input behind the first stop gives a report, when the machine is fed with it
alone. -/
def QuietAfterStop (step : σ → β → σ × Option ρ) (stops : ρ → Bool) (s : σ) (xs : List β) :
    Prop :=
  ∀ front skipped back, xs = front ++ (skipped ++ back) → StopsAt step stops s front →
    (feed step (feed step s front).1 back).2 = []

theorem feedPieces_eq_feed {pieces : List (List β)}
    (h : ∀ report ∈ (feed step s pieces.flatten).2, stops report = false) :
    feedPieces step stops s pieces = feed step s pieces.flatten := by
  induction pieces generalizing s with
  | nil => rfl
  | cons piece pieces ih =>
    rw [flatten_cons, feed_append] at h
    have hpiece : feedPiece step stops s piece = feed step s piece :=
      feedPiece_eq_feed fun r hr => h r (mem_append_left _ hr)
    rw [flatten_cons, feed_append, feedPieces]
    simp only [hpiece]
    rw [ih fun r hr => h r (mem_append_right _ hr)]

theorem feedPieces_singletons (s : σ) (xs : List β) :
    feedPieces step stops s (xs.map fun x => [x]) = feed step s xs := by
  induction xs generalizing s with
  | nil => rfl
  | cons x xs ih =>
    have hpiece : feedPiece step stops s [x] = ((step s x).1, (step s x).2.toList) := by
      rw [feedPiece]
      cases hstep : step s x with
      | mk next report =>
        cases report with
        | none => rfl
        | some report =>
          simp only [feedPiece]
          split
          · rfl
          · rfl
    rw [map_cons, feedPieces, feed]
    simp only [hpiece, ih]

theorem feedPieces_of_quiet {pieces : List (List β)} (h : QuietAfterStop step stops s pieces.flatten) :
    (feedPieces step stops s pieces).2 = (feed step s pieces.flatten).2 := by
  induction pieces generalizing s with
  | nil => rfl
  | cons piece pieces ih =>
    rw [flatten_cons] at h ⊢
    rw [feedPieces, feed_append]
    rcases stop_cases step stops s piece with hgoes | ⟨front, skipped, rfl, hstop⟩
    · simp only [feedPiece_eq_feed hgoes]
      rw [ih]
      -- a first stop behind this piece is one of the whole input
      intro front skipped back heq hstop
      obtain ⟨init, last, report, rfl, hinit, hlast, htrue⟩ := hstop
      have hstop' : StopsAt step stops s (piece ++ (init ++ [last])) := by
        refine ⟨piece ++ init, last, report, by simp, ?_, ?_, htrue⟩
        · rw [feed_append]
          intro r hr
          rcases mem_append.mp hr with hr | hr
          · exact hgoes r hr
          · exact hinit r hr
        · rw [feed_append]
          exact hlast
      have hquiet := h (piece ++ (init ++ [last])) skipped back (by rw [heq]; simp) hstop'
      rwa [feed_append] at hquiet
    · have hfirst := feedPiece_of_stopsAt hstop skipped
      have hback : (feed step (feed step s front).1 pieces.flatten).2 = [] :=
        h front skipped pieces.flatten (by simp) hstop
      have hall : (feed step (feed step s front).1 (skipped ++ pieces.flatten)).2 = [] :=
        h front [] (skipped ++ pieces.flatten) (by simp) hstop
      have hrest : (feedPieces step stops (feed step s front).1 pieces).2 = [] := by
        rw [feedPieces_eq_feed (by rw [hback]; intro r hr; cases hr), hback]
      have hwhole : (feed step s (front ++ skipped ++ pieces.flatten)).2 = (feed step s front).2 := by
        rw [append_assoc, feed_append, hall, List.append_nil]
      rw [feed_append] at hwhole
      simp only [hfirst, hrest, List.append_nil]
      exact hwhole.symm

theorem feed_eq_nil_of_feedPiece (h : (feedPiece step stops s xs).2 = []) : (feed step s xs).2 = [] := by
  induction xs generalizing s with
  | nil => rfl
  | cons x xs ih =>
    rw [feedPiece] at h
    simp only [feed]
    cases hstep : step s x with
    | mk next report =>
      simp only [hstep] at h ⊢
      cases report with
      | none => exact ih h
      | some report =>
        simp only at h
        split at h
        · simp at h
        · simp at h

/-- The reports, counted in any way that tells no reports from some, are the same for every cut
exactly when the input is quiet behind its first stop. -/
theorem pieces_uniform_iff {γ : Type*} {view : List ρ → γ}
    (hview : ∀ front back, view (front ++ back) = view front → back = []) :
    (∀ pieces : List (List β), pieces.flatten = xs →
      view (feedPieces step stops s pieces).2 = view (feed step s xs).2) ↔
        QuietAfterStop step stops s xs := by
  constructor
  · intro hall front skipped back heq hstop
    have hwhole := hall [xs] (by simp)
    have hcut := hall [front ++ skipped, back] (by rw [heq]; simp)
    rw [heq, feedPieces, feedPieces] at hwhole
    rw [feedPieces, feedPieces, feedPieces] at hcut
    simp only [feedPiece_of_stopsAt hstop, List.append_nil] at hwhole hcut
    rw [heq, ← hwhole] at hcut
    exact feed_eq_nil_of_feedPiece (hview _ _ hcut)
  · rintro hquiet pieces rfl
    rw [feedPieces_of_quiet hquiet]

end Reports
