import Bearmail.Smtp.Session

/-!
# Messages in reads

A reference for sessions that does not see the reads: a message is taken in to its end, and only
then measured. `Session::ingest` measures before it takes in, and adds the length of the whole
read to what it has.
-/

namespace Bearmail.Smtp

open List

variable (mta : Mta)

/-! ## The reference -/

def judged (s : Session mta.Data) : Step mta :=
  if s.message.length ≤ mta.maxMessageSize s.data then queued mta s
  else ({ s with message := [] }, .default, [.write tooBig])

def referenceTurn : Config mta → Turn (Config mta) Event
  | (s, .data receiver, iter) =>
    match mta.data.ingest (receiver, s.message) iter with
    | .more (receiver, message) => .stop ({ s with message }, .data receiver, [])
    | .done message rest => (judged mta { s with message }).on rest
  | x => turn mta 0 x

variable {mta}

theorem judged_rank (s : Session mta.Data) : (judged mta s).2.1.rank = 0 := by
  unfold judged
  split
  · exact queued_rank s
  · rfl

variable {x next last : Config mta} {events : List Event} {s : Session mta.Data} {content : Bytes}
  {receiver : mta.DataReceiver}

theorem referenceTurn_falls (h : referenceTurn mta x = .again next events) :
    rank mta next < rank mta x := by
  unfold referenceTurn at h
  split at h
  · rename_i s receiver iter
    change _ < 3 * iter.length + 2
    split at h
    · cases h
    · rename_i message rest htaken
      have hshort := mta.data.shrinks htaken
      rw [rank_on h, judged_rank]
      omega
  · exact turn_falls h

variable (mta)

def reference : Loop (Config mta) Event where
  turn := referenceTurn mta
  rank := rank mta
  falls := referenceTurn_falls

variable {mta}

/-- Away from messages, the reference does what the session does, whatever the read. -/
theorem referenceTurn_eq (size : Nat) {state : State mta} (h : ∀ receiver, state ≠ .data receiver)
    (iter : Bytes) : referenceTurn mta (s, state, iter) = turn mta size (s, state, iter) := by
  cases state with
  | data receiver => exact absurd rfl (h receiver)
  | request receiver | bdat receiver isLast | sasl token receiver | skipData receiver response
  | requestTooLarge receiver | closed => rfl

/-! ## Reads that go on -/

def extend (more : Bytes) : Turn (Config mta) Event → Turn (Config mta) Event
  | .again (s, state, rest) events => .again (s, state, rest ++ more) events
  | .stop (s, state, _) => referenceTurn mta (s, state, more)

theorem referenceTurn_append (s : Session mta.Data) (state : State mta) (iter more : Bytes) :
    referenceTurn mta (s, state, iter ++ more) = extend more (referenceTurn mta (s, state, iter)) := by
  cases state with
  | request receiver =>
    cases htaken : mta.requests.ingest receiver iter with
    | more r => simp [referenceTurn, turn, mta.requests.more_append more htaken, htaken, extend]
    | done b rest =>
      simp only [referenceTurn, turn, mta.requests.done_append more htaken, htaken]
      rfl
  | data receiver =>
    cases htaken : mta.data.ingest (receiver, s.message) iter with
    | more r => simp [referenceTurn, mta.data.more_append more htaken, htaken, extend]
    | done b rest =>
      simp only [referenceTurn, mta.data.done_append more htaken, htaken]
      rfl
  | bdat receiver isLast =>
    cases htaken : mta.bdat.ingest (receiver, s.message) iter with
    | more r => simp [referenceTurn, turn, mta.bdat.more_append more htaken, htaken, extend]
    | done b rest =>
      simp only [referenceTurn, turn, mta.bdat.done_append more htaken, htaken]
      split <;> rfl
  | sasl token receiver =>
    cases htaken : mta.saslLines.ingest receiver iter with
    | more r =>
      simp [referenceTurn, turn, mta.saslLines.more_append more htaken, htaken, extend]
    | done b rest =>
      simp only [referenceTurn, turn, mta.saslLines.done_append more htaken, htaken]
      split <;> rfl
  | skipData receiver response =>
    cases htaken : mta.dummyData.ingest receiver iter with
    | more r =>
      simp [referenceTurn, turn, mta.dummyData.more_append more htaken, htaken, extend]
    | done b rest =>
      simp only [referenceTurn, turn, mta.dummyData.done_append more htaken, htaken]
      rfl
  | requestTooLarge receiver =>
    cases htaken : mta.dummyLines.ingest receiver iter with
    | more r =>
      simp [referenceTurn, turn, mta.dummyLines.more_append more htaken, htaken, extend]
    | done b rest =>
      simp only [referenceTurn, turn, mta.dummyLines.done_append more htaken, htaken]
      rfl
  | closed => rfl

theorem referenceTurn_stopped (h : referenceTurn mta x = .stop last) :
    referenceTurn mta (last.1, last.2.1, []) = .stop last := by
  have happend := referenceTurn_append x.1 x.2.1 x.2.2 []
  rw [List.append_nil, h] at happend
  exact happend.symm

/-! ## Messages that a read costs -/

/-- A message that is too big, if it ends in some bytes. -/
def Doomed (data : mta.Data) (receiver : mta.DataReceiver) (message future : Bytes) : Prop :=
  ∀ content rest, mta.data.ingest (receiver, message) future = .done content rest →
    mta.maxMessageSize data < content.length

/-- The turn is not one that refuses a message which would fit: there is room for the whole read,
or the message will turn out too big. -/
def Spared (size : Nat) (later : Bytes) : Config mta → Prop
  | (s, .data receiver, iter) =>
    s.message.length + size < mta.maxMessageSize s.data ∨
      Doomed s.data receiver s.message (iter ++ later)
  | _ => True

/-- No turn of any read refuses a message that would fit. -/
def Kept (s : Session mta.Data) (state : State mta) : List Bytes → Prop
  | [] => True
  | bytes :: reads =>
    (loop mta bytes.length).Along (Spared bytes.length reads.flatten) (s, state, bytes) ∧
      Kept (ingest mta s state bytes).1.1 (ingest mta s state bytes).1.2 reads

/-- A session beside the reference: both the same, or a message skipped that is too big. -/
inductive Beside (future : Bytes) :
    Session mta.Data × State mta → Session mta.Data × State mta → Prop
  | same (p : Session mta.Data × State mta) : Beside future p p
  | doomed (data : mta.Data) (receiver : mta.DataReceiver) (skipped message : Bytes)
      (h : Doomed data receiver message future) :
      Beside future (⟨data, skipped⟩, .skipData (mta.dummyOfData receiver) tooBig)
        (⟨data, message⟩, .data receiver)

def outcomeFrom (size : Nat) (x : Config mta) (reads : List Bytes) : List Event :=
  let ((s, state, _), events) := (loop mta size).run x
  events ++ outcome mta s state reads

theorem outcomeFrom_stop {size : Nat} (h : turn mta size x = .stop last) (reads : List Bytes) :
    outcomeFrom size x reads = outcome mta last.1 last.2.1 reads := by
  have hrun : (loop mta size).run x = (last, []) := Loop.run_stop h
  rw [outcomeFrom, hrun]
  rfl

theorem outcomeFrom_again {size : Nat} (h : turn mta size x = .again next events)
    (reads : List Bytes) : outcomeFrom size x reads = events ++ outcomeFrom size next reads := by
  have hrun : (loop mta size).run x = _ := Loop.run_again h
  rw [outcomeFrom, hrun]
  exact append_assoc _ _ _

theorem outcome_skipped (reads : List Bytes) (size : Nat) (s : Session mta.Data)
    (receiver : mta.DataReceiver) (message iter : Bytes) {rest : Bytes}
    (h : mta.data.ingest (receiver, message) (iter ++ reads.flatten) = .done content rest) :
    ∃ more, outcomeFrom size (s, .skipData (mta.dummyOfData receiver) tooBig, iter) reads =
      .write tooBig :: more := by
  induction reads generalizing size s receiver message iter with
  | nil =>
    rw [flatten_nil, List.append_nil] at h
    have hturn : turn mta size (s, .skipData (mta.dummyOfData receiver) tooBig, iter) =
        .again ({ s with message := [] }, .default, rest) [.write tooBig] := by
      simp [turn, mta.dummy_done h]
    exact ⟨_, outcomeFrom_again hturn []⟩
  | cons bytes reads ih =>
    cases htaken : mta.data.ingest (receiver, message) iter with
    | more r =>
      obtain ⟨receiver', message'⟩ := r
      have hturn : turn mta size (s, .skipData (mta.dummyOfData receiver) tooBig, iter) =
          .stop (s, .skipData (mta.dummyOfData receiver') tooBig, []) := by
        simp [turn, mta.dummy_more htaken]
      rw [mta.data.more_append _ htaken] at h
      obtain ⟨more, hmore⟩ := ih bytes.length s receiver' message' bytes h
      refine ⟨more, ?_⟩
      rw [outcomeFrom_stop hturn]
      exact hmore
    | done content' rest' =>
      have hturn : turn mta size (s, .skipData (mta.dummyOfData receiver) tooBig, iter) =
          .again ({ s with message := [] }, .default, rest') [.write tooBig] := by
        simp [turn, mta.dummy_done htaken]
      exact ⟨_, outcomeFrom_again hturn _⟩

theorem queued_head (s : Session mta.Data) : ∃ more, (queued mta s).2.2 = .queue s.message :: more := by
  unfold queued
  dsimp only
  split
  · exact ⟨_, rfl⟩
  · exact ⟨_, rfl⟩

theorem reference_queues {bytes rest : Bytes}
    (h : mta.data.ingest (receiver, s.message) bytes = .done content rest)
    (hfits : content.length ≤ mta.maxMessageSize s.data) :
    ∃ more, ((reference mta).run (s, .data receiver, bytes)).2 = .queue content :: more := by
  have hturn : (reference mta).turn (s, .data receiver, bytes) =
      (queued mta { s with message := content }).on rest := by
    change referenceTurn mta (s, .data receiver, bytes) = _
    simp [referenceTurn, h, judged, if_pos hfits]
  obtain ⟨more, hmore⟩ := queued_head { s with message := content }
  rw [Loop.run_again hturn, hmore]
  exact ⟨_, rfl⟩

/-! ## Along a session -/

def KeptFrom (size : Nat) (x : Config mta) (reads : List Bytes) : Prop :=
  (loop mta size).Along (Spared size reads.flatten) x ∧
    Kept ((loop mta size).run x).1.1 ((loop mta size).run x).1.2.1 reads

theorem keptFrom_stop {size : Nat} (h : turn mta size x = .stop last) (reads : List Bytes) :
    KeptFrom size x reads ↔ Spared size reads.flatten x ∧ Kept last.1 last.2.1 reads := by
  have hrun : (loop mta size).run x = (last, []) := Loop.run_stop h
  have halong : (loop mta size).Along _ x ↔ Spared size reads.flatten x := Loop.along_stop h
  rw [KeptFrom, halong, hrun]

theorem keptFrom_again {size : Nat} (h : turn mta size x = .again next events) (reads : List Bytes) :
    KeptFrom size x reads ↔ Spared size reads.flatten x ∧ KeptFrom size next reads := by
  have hrun : (loop mta size).run x = _ := Loop.run_again h
  have halong : (loop mta size).Along (Spared size reads.flatten) x ↔ _ := Loop.along_again h
  rw [KeptFrom, halong, hrun, and_assoc]
  rfl

def Waits (p : Session mta.Data × State mta) : Prop :=
  ∃ last, referenceTurn mta (p.1, p.2, []) = .stop last

/-- What is seen from the next read on is what the reference says. -/
def Agrees (reads : List Bytes) : Prop :=
  ∀ p p' : Session mta.Data × State mta, Beside reads.flatten p p' → Waits p' →
    (outcome mta p.1 p.2 reads = ((reference mta).run (p'.1, p'.2, reads.flatten)).2 ↔
      Kept p.1 p.2 reads)

def AgreesFrom (size : Nat) (reads : List Bytes) (x : Config mta) : Prop :=
  ∀ p' : Session mta.Data × State mta, Beside (x.2.2 ++ reads.flatten) (x.1, x.2.1) p' →
    x.2.2.length ≤ size →
    (outcomeFrom size x reads =
        ((reference mta).run (p'.1, p'.2, x.2.2 ++ reads.flatten)).2 ↔ KeptFrom size x reads)

variable {size : Nat} {reads : List Bytes}

theorem agrees_of_stop (hreads : @Agrees mta reads) (p' : Session mta.Data × State mta)
    {last' : Config mta} (hturn : turn mta size x = .stop last)
    (hreference : referenceTurn mta (p'.1, p'.2, x.2.2) = .stop last')
    (hbeside : Beside reads.flatten (last.1, last.2.1) (last'.1, last'.2.1))
    (hspared : Spared size reads.flatten x) :
    outcomeFrom size x reads = ((reference mta).run (p'.1, p'.2, x.2.2 ++ reads.flatten)).2 ↔
      KeptFrom size x reads := by
  have happend := referenceTurn_append p'.1 p'.2 x.2.2 reads.flatten
  rw [hreference] at happend
  have hrun : (reference mta).run (p'.1, p'.2, x.2.2 ++ reads.flatten) =
      (reference mta).run (last'.1, last'.2.1, reads.flatten) := Loop.run_congr happend
  rw [outcomeFrom_stop hturn, keptFrom_stop hturn, hrun, and_iff_right hspared]
  exact hreads _ _ hbeside ⟨_, referenceTurn_stopped hreference⟩

theorem agrees_of_again (p' : Session mta.Data × State mta)
    (hturn : turn mta size x = .again next events)
    (hreference : referenceTurn mta (p'.1, p'.2, x.2.2) = .again next events)
    (hspared : Spared size reads.flatten x) (hrest : next.2.2.length ≤ size)
    (hnext : AgreesFrom size reads next) :
    outcomeFrom size x reads = ((reference mta).run (p'.1, p'.2, x.2.2 ++ reads.flatten)).2 ↔
      KeptFrom size x reads := by
  have happend := referenceTurn_append p'.1 p'.2 x.2.2 reads.flatten
  rw [hreference] at happend
  have hrun : (reference mta).run (p'.1, p'.2, x.2.2 ++ reads.flatten) = _ :=
    Loop.run_again happend
  rw [outcomeFrom_again hturn, keptFrom_again hturn, hrun, and_iff_right hspared, append_cancel_left_eq]
  exact hnext (next.1, next.2.1) (.same _) hrest

theorem turn_rest (h : turn mta size x = .again next events) : next.2.2.length ≤ x.2.2.length := by
  have hfalls := turn_falls h
  have hrank := x.2.1.rank_le
  unfold rank at hfalls
  omega

theorem agreesFrom_data (hreads : @Agrees mta reads) {iter : Bytes}
    (ih : ∀ next events, turn mta size (s, .data receiver, iter) = .again next events →
      AgreesFrom size reads next) (hlen : iter.length ≤ size) :
    outcomeFrom size (s, .data receiver, iter) reads =
        ((reference mta).run (s, .data receiver, iter ++ reads.flatten)).2 ↔
      KeptFrom size (s, .data receiver, iter) reads := by
  by_cases hroom : s.message.length + size < mta.maxMessageSize s.data
  · cases htaken : mta.data.ingest (receiver, s.message) iter with
    | more r =>
      have hturn : turn mta size (s, .data receiver, iter) = .stop (⟨s.data, r.2⟩, .data r.1, []) := by
        simp [turn, if_pos hroom, htaken]
      have hreference : referenceTurn mta (s, .data receiver, iter) =
          .stop (⟨s.data, r.2⟩, .data r.1, []) := by
        simp [referenceTurn, htaken]
      exact agrees_of_stop hreads (s, .data receiver) hturn hreference (.same _) (Or.inl hroom)
    | done content rest =>
      have hgrows := mta.data_grows htaken
      have hfits : content.length ≤ mta.maxMessageSize s.data := by omega
      have hturn : turn mta size (s, .data receiver, iter) = (queued mta ⟨s.data, content⟩).on rest := by
        simp [turn, if_pos hroom, htaken]
      have hreference : referenceTurn mta (s, .data receiver, iter) =
          (queued mta ⟨s.data, content⟩).on rest := by
        simp [referenceTurn, htaken, judged, if_pos hfits]
      exact agrees_of_again (s, .data receiver) hturn hreference (Or.inl hroom)
        (Nat.le_trans (mta.data.shrinks htaken) hlen) (ih _ _ hturn)
  · have hturn : turn mta size (s, .data receiver, iter) =
        .again (s, .skipData (mta.dummyOfData receiver) tooBig, iter) [] := by
      simp [turn, if_neg hroom]
    by_cases hdoomed : Doomed s.data receiver s.message (iter ++ reads.flatten)
    · have hspared : Spared size reads.flatten (s, .data receiver, iter) := Or.inr hdoomed
      rw [outcomeFrom_again hturn, keptFrom_again hturn, and_iff_right hspared]
      exact ih _ _ hturn (s, .data receiver) (.doomed s.data receiver s.message s.message hdoomed) hlen
    · -- a message that would fit is skipped
      have hnot : ¬Spared size reads.flatten (s, .data receiver, iter) :=
        fun h => h.elim hroom hdoomed
      unfold Doomed at hdoomed
      push Not at hdoomed
      obtain ⟨content, rest, htaken, hfits⟩ := hdoomed
      obtain ⟨more, hskipped⟩ :=
        outcome_skipped reads size s receiver s.message iter htaken
      obtain ⟨more', hqueued⟩ := reference_queues htaken hfits
      rw [outcomeFrom_again hturn, keptFrom_again hturn, hskipped, hqueued]
      refine iff_of_false (fun h => ?_) fun h => hnot h.1
      simp at h

theorem agreesFrom_doomed (hreads : @Agrees mta reads) {data : mta.Data}
    {skipped message iter : Bytes} (hdoomed : Doomed data receiver message (iter ++ reads.flatten))
    (ih : ∀ next events, turn mta size
        (⟨data, skipped⟩, .skipData (mta.dummyOfData receiver) tooBig, iter) = .again next events →
      AgreesFrom size reads next) (hlen : iter.length ≤ size) :
    outcomeFrom size (⟨data, skipped⟩, .skipData (mta.dummyOfData receiver) tooBig, iter) reads =
        ((reference mta).run (⟨data, message⟩, .data receiver, iter ++ reads.flatten)).2 ↔
      KeptFrom size (⟨data, skipped⟩, .skipData (mta.dummyOfData receiver) tooBig, iter) reads := by
  cases htaken : mta.data.ingest (receiver, message) iter with
  | more r =>
    have hturn : turn mta size (⟨data, skipped⟩, .skipData (mta.dummyOfData receiver) tooBig, iter) =
        .stop (⟨data, skipped⟩, .skipData (mta.dummyOfData r.1) tooBig, []) := by
      simp [turn, mta.dummy_more htaken]
    have hreference : referenceTurn mta (⟨data, message⟩, .data receiver, iter) =
        .stop (⟨data, r.2⟩, .data r.1, []) := by
      simp [referenceTurn, htaken]
    have hdoomed' : Doomed data r.1 r.2 reads.flatten := by
      intro content rest hdone
      exact hdoomed content rest (by rw [mta.data.more_append _ htaken]; exact hdone)
    exact agrees_of_stop hreads (⟨data, message⟩, .data receiver) hturn hreference
      (.doomed data r.1 skipped r.2 hdoomed') trivial
  | done content rest =>
    have hbig : ¬content.length ≤ mta.maxMessageSize data :=
      Nat.not_le.mpr (hdoomed content _ (mta.data.done_append _ htaken))
    have hturn : turn mta size (⟨data, skipped⟩, .skipData (mta.dummyOfData receiver) tooBig, iter) =
        .again (⟨data, []⟩, .default, rest) [.write tooBig] := by
      simp [turn, mta.dummy_done htaken]
    have hreference : referenceTurn mta (⟨data, message⟩, .data receiver, iter) =
        .again (⟨data, []⟩, .default, rest) [.write tooBig] := by
      simp only [referenceTurn, htaken, judged, if_neg hbig]
      rfl
    exact agrees_of_again (⟨data, message⟩, .data receiver) hturn hreference trivial
      (Nat.le_trans (mta.data.shrinks htaken) hlen) (ih _ _ hturn)

theorem agreesFrom (hreads : @Agrees mta reads) (x : Config mta) :
    AgreesFrom size reads x := by
  refine @Loop.turns_induction _ _ (loop mta size) (AgreesFrom size reads) ?_ x
  rintro ⟨s, state, iter⟩ ih p' hbeside hlen
  cases hbeside with
  | same =>
    by_cases hdata : ∃ receiver, state = .data receiver
    · obtain ⟨receiver, rfl⟩ := hdata
      exact agreesFrom_data hreads ih hlen
    · have hne : ∀ receiver, state ≠ .data receiver := fun receiver h => hdata ⟨receiver, h⟩
      have hsame := referenceTurn_eq size hne iter (s := s)
      have hspared : Spared size reads.flatten (s, state, iter) := by
        cases state with
        | data receiver => exact absurd rfl (hne receiver)
        | _ => trivial
      cases hturn : turn mta size (s, state, iter) with
      | stop last =>
        exact agrees_of_stop hreads (s, state) hturn (hsame.trans hturn) (.same _) hspared
      | again next events =>
        exact agrees_of_again (s, state) hturn (hsame.trans hturn) hspared
          (Nat.le_trans (turn_rest hturn) hlen) (ih next events hturn)
  | doomed data receiver skipped message hdoomed => exact agreesFrom_doomed hreads hdoomed ih hlen

theorem agrees (reads : List Bytes) : @Agrees mta reads := by
  induction reads with
  | nil =>
    rintro p p' - ⟨last, hlast⟩
    have hrun : (reference mta).run (p'.1, p'.2, []) = (last, []) := Loop.run_stop hlast
    rw [flatten_nil, hrun]
    exact iff_of_true rfl trivial
  | cons bytes reads ih =>
    intro p p' hbeside _
    exact agreesFrom ih (p.1, p.2, bytes) p' hbeside (Nat.le_refl _)

theorem waits_default (s : Session mta.Data) : Waits (s, (.default : State mta)) := by
  change ∃ last, referenceTurn mta (s, .request mta.newLine, []) = .stop last
  cases htaken : mta.requests.ingest mta.newLine [] with
  | more r => exact ⟨(s, .request r, []), by simp [referenceTurn, turn, htaken]⟩
  | done b rest =>
    have hshort := mta.requests_take htaken
    simp at hshort

/-- What is seen of a session is what the reference says of its bytes exactly when no read costs a
message that would fit; and the reference queues what stands before the first `CRLF.CRLF`, if it
fits, and goes on behind that. -/
theorem outcome_iff (mta : Mta) :
    (∀ (s : Session mta.Data) (reads : List Bytes),
      outcome mta s .default reads = ((reference mta).run (s, .default, reads.flatten)).2 ↔
        Kept s .default reads) ∧
    (∀ (data : mta.Data) (raw rest : Bytes), FirstEnd raw →
      (reference mta).turn (⟨data, []⟩, .data mta.newData, raw ++ rest) =
        if (mta.unstuff raw).length ≤ mta.maxMessageSize data then
          (queued mta ⟨data, mta.unstuff raw⟩).on rest
        else .again (⟨data, []⟩, .default, rest) [.write tooBig]) := by
  refine ⟨fun s reads => agrees reads (s, .default) (s, .default) (.same _) (waits_default s), ?_⟩
  intro data raw rest hend
  change referenceTurn mta (⟨data, []⟩, .data mta.newData, raw ++ rest) = _
  simp only [referenceTurn, mta.data_ends rest hend, judged]
  split <;> rfl

/-! ## A small server -/

/-- Takes in a message behind the bytes that were taken in: dots behind line ends are left out, and
the end is taken back. -/
def dataStep : Bytes × Bytes → UInt8 → (Bytes × Bytes) ⊕ Bytes
  | (raw, message), byte =>
    if terminator <:+ raw ++ [byte] then .inr (message.take (message.length - 3))
    else if byte = 46 ∧ [13, 10] <:+ raw then .inl (raw ++ [byte], message)
    else .inl (raw ++ [byte], message ++ [byte])

def dummyStep (raw : Bytes) (byte : UInt8) : Bytes ⊕ Unit :=
  if terminator <:+ raw ++ [byte] then .inr () else .inl (raw ++ [byte])

def unstuffed (raw : Bytes) : Bytes :=
  match Receiver.itemwise dataStep ([], []) raw with
  | .done content _ => content
  | .more _ => []

theorem dataStep_ends {xs raw message : Bytes} (hnot : ¬terminator <:+ raw)
    (hend : FirstEnd (raw ++ xs)) :
    ∃ content, Receiver.itemwise dataStep (raw, message) xs = .done content [] := by
  induction xs generalizing raw message with
  | nil =>
    rw [List.append_nil] at hend
    exact absurd hend.1 hnot
  | cons byte xs ih =>
    rw [Receiver.itemwise, dataStep]
    have happend : raw ++ byte :: xs = raw ++ [byte] ++ xs := by simp
    rw [happend] at hend
    by_cases hfront : terminator <:+ raw ++ [byte]
    · have hall := hend.2 _ (prefix_append _ _) hfront
      have hnil : xs = [] := self_eq_append_right.mp hall
      rw [if_pos hfront, hnil]
      exact ⟨_, rfl⟩
    · rw [if_neg hfront]
      by_cases hdot : byte = 46 ∧ [13, 10] <:+ raw
      · rw [if_pos hdot]
        exact ih hfront hend
      · rw [if_neg hdot]
        exact ih hfront hend

theorem dummyStep_follows (xs raw message : Bytes) : Receiver.itemwise dummyStep raw xs =
      match Receiver.itemwise dataStep (raw, message) xs with
      | .more s => .more s.1
      | .done _ rest => .done () rest := by
  induction xs generalizing raw message with
  | nil => rfl
  | cons byte xs ih =>
    rw [Receiver.itemwise, Receiver.itemwise, dummyStep, dataStep]
    by_cases hfront : terminator <:+ raw ++ [byte]
    · simp [hfront]
    · rw [if_neg hfront, if_neg hfront]
      by_cases hdot : byte = 46 ∧ [13, 10] <:+ raw
      · rw [if_pos hdot]
        exact ih _ _
      · rw [if_neg hdot]
        exact ih _ _

theorem dataStep_grows {xs rest : Bytes} {s : Bytes × Bytes}
    (h : Receiver.itemwise dataStep s xs = .done content rest) :
    content.length + rest.length ≤ s.2.length + xs.length := by
  induction xs generalizing s with
  | nil => cases h
  | cons byte xs ih =>
    obtain ⟨raw, message⟩ := s
    rw [Receiver.itemwise, dataStep] at h
    by_cases hfront : terminator <:+ raw ++ [byte]
    · rw [if_pos hfront] at h
      cases h
      simp only [length_take, length_cons]
      omega
    · rw [if_neg hfront] at h
      by_cases hdot : byte = 46 ∧ [13, 10] <:+ raw
      · rw [if_pos hdot] at h
        have hrest := ih h
        rw [length_cons]
        dsimp only at hrest ⊢
        omega
      · rw [if_neg hdot] at h
        have hrest := ih h
        rw [length_append, length_singleton] at hrest
        rw [length_cons]
        dsimp only
        omega

def ok : Bytes := ascii "250 2.0.0 OK\r\n"

/-- Knows `DATA`, agrees to every other line, and queues every message. -/
def smallMta (maxMessageSize : Nat) : Mta where
  Data := Unit
  Command := Bytes
  Failure := Unit
  Token := Unit
  Line := Bytes
  DataReceiver := Bytes
  DummyData := Bytes
  Bdat := Unit
  SaslLine := Unit
  DummyLine := Unit
  requests := .ofStep fun line byte =>
    if byte = 10 then
      .inr (.ok (if line = ascii "DATA\r" then .data else .command line), [])
    else .inl (line ++ [byte])
  newLine := []
  data := .ofStep dataStep
  newData := []
  bdat := .never
  newBdat _ := ()
  dummyData := .ofStep dummyStep
  dummyOfData raw := raw
  dummyOfBdat _ := []
  saslLines := .never
  newSaslLine := ()
  dummyLines := .never
  newDummyLine := ()
  maxLineLength := 2048
  unstuff := unstuffed
  requests_take := Receiver.ofStep_take
  saslLines_take h := by cases h
  dummyLines_take h := by cases h
  data_ends {raw} rest hend := by
    obtain ⟨content, hraw⟩ := @dataStep_ends raw [] [] (by decide) hend
    have hcontent : unstuffed raw = content := by rw [unstuffed, hraw]
    rw [hcontent]
    exact (Receiver.itemwise_done dataStep hraw).2 rest
  data_grows h := dataStep_grows h
  dummy_more {r message xs r' message'} h := by
    change Receiver.itemwise dataStep (r, message) xs = _ at h
    change Receiver.itemwise dummyStep r xs = _
    rw [dummyStep_follows xs r message, h]
  dummy_done {r message xs content rest} h := by
    change Receiver.itemwise dataStep (r, message) xs = _ at h
    change Receiver.itemwise dummyStep r xs = _
    rw [dummyStep_follows xs r message, h]
  lmtp := false
  rcptOks _ := 0
  maxMessageSize _ := maxMessageSize
  reset := id
  canSendData _ := none
  queueMessage s := (s, ok)
  command _ s := ⟨s, [ok], .request⟩
  failure _ s := ⟨s, [], .request⟩
  saslResponse _ _ s := ⟨s, [], .request⟩
  authError s := ⟨s, [], .request⟩

/-- A message of five bytes where sixteen are allowed: with `NOOP` in the same read it is refused,
and in a read of its own it is queued. -/
theorem outcome_depends_on_reads :
    let data := ascii "DATA\r\n"
    let message := ascii "A:b\r\n\r\n.\r\n"
    let noop := ascii "NOOP\r\n"
    [data, message ++ noop].flatten = [data, message, noop].flatten ∧
      outcome (smallMta 16) ⟨(), []⟩ .default [data, message ++ noop] ≠
        outcome (smallMta 16) ⟨(), []⟩ .default [data, message, noop] := by
  decide

end Bearmail.Smtp
