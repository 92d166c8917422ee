import Bearmail.Imap.Receiver
import Bearmail.Lib.Reports

/-!
# Reading commands

`Session::ingest` of `imap/src/core/client.rs` runs the receiver over the bytes of one network
read. Requests are checked against the state the session has before the read, and handled after
it. Behind an error, and behind a literal that has to be asked for, the rest of the read is
dropped.

`is_allowed` and the handlers are parameters. Handlers do not take bytes from the connection
(as `IDLE` and `AUTHENTICATE` do after they have asked the client to go on), requests are not
rate limited, and replies can be written.
-/

namespace Bearmail.Imap

open Reports
open List

inductive Reply where
  | error (tag : Option String) (message : Message)
  | needsLiteral (size : Nat)
  deriving DecidableEq

/-- What `ingest` asks the rest of a session. -/
structure Session (σ : Type) where
  /-- why a request is refused -/
  isAllowed : σ → Request Command → Option Message
  handle : σ → Request Command → σ

section Ingest

variable {σ : Type} (session : Session σ)

/-- The loop over one read: the receiver after it, the requests to be handled and the replies. A
turn takes at least one byte. -/
def collect (s : σ) : Nat → Receiver Command → Bytes →
    Receiver Command × List (Request Command) × List Reply
  | 0, r, _ => (r, [], [])
  | fuel + 1, r, bytes =>
    match r.parse bytes with
    | (r, none, _) => (r, [], [])
    | (r, some (.request request), bytes) =>
      let rest := collect s fuel r bytes
      match session.isAllowed s request with
      | none => (rest.1, request :: rest.2.1, rest.2.2)
      | some message => (rest.1, rest.2.1, .error (some request.tag) message :: rest.2.2)
    | (r, some (.needsLiteral size), _) => (r, [], [.needsLiteral size])
    | (r, some (.error tag message), _) => (r, [], [.error tag message])

/-- `Session::ingest` for a sequence of reads: the requests that are handled and the replies. -/
def ingestAll : σ → Receiver Command → List Bytes → List (Request Command) × List Reply
  | _, _, [] => ([], [])
  | s, r, bytes :: reads =>
    let ingested := collect session s (bytes.length + 1) r bytes
    let rest := ingestAll (ingested.2.1.foldl session.handle s) ingested.1 reads
    (ingested.2.1 ++ rest.1, ingested.2.2 ++ rest.2)

/-! ## Reports and what becomes of them -/

def dropsRest : Report Command → Bool
  | .request _ => false
  | _ => true

def admitted (s : σ) : Report Command → Option (Request Command)
  | .request request => if session.isAllowed s request = none then some request else none
  | _ => none

def answered (s : σ) : Report Command → Option Reply
  | .request request => (session.isAllowed s request).map (.error (some request.tag))
  | .needsLiteral size => some (.needsLiteral size)
  | .error tag message => some (.error tag message)

def judge (s : σ) (reports : List (Report Command)) : List (Request Command) × List Reply :=
  (reports.filterMap (admitted session s), reports.filterMap (answered session s))

def requestsOf (reports : List (Report Command)) : List (Request Command) :=
  reports.filterMap fun report =>
    match report with
    | .request request => some request
    | _ => none

/-- None of some requests changes whether another of them is allowed. -/
def Steady (s : σ) (requests : List (Request Command)) : Prop :=
  ∀ handled : List (Request Command), (∀ request ∈ handled, request ∈ requests) → ∀ request ∈ requests,
      session.isAllowed (handled.foldl session.handle s) request = session.isAllowed s request

end Ingest

/-! ## One read -/

variable {r : Receiver Command}

section Read

variable {σ : Type} {session : Session σ}

theorem feedPiece_eq_parse (r : Receiver Command) (bytes : Bytes) :
    feedPiece Receiver.step dropsRest r bytes =
      match r.parse bytes with
      | (r, none, _) => (r, [])
      | (r, some report, rest) =>
        if dropsRest report then (r, [report])
        else ((feedPiece Receiver.step dropsRest r rest).1,
          report :: (feedPiece Receiver.step dropsRest r rest).2) := by
  induction bytes generalizing r with
  | nil => rfl
  | cons ch bytes ih =>
    rw [feedPiece, Receiver.parse]
    cases hstep : r.step ch with
    | mk next report =>
      cases report with
      | none => exact ih next
      | some report => rfl

theorem parse_length {r' : Receiver Command} {bytes rest : Bytes} {report : Report Command}
    (h : r.parse bytes = (r', some report, rest)) : rest.length < bytes.length := by
  induction bytes generalizing r with
  | nil => cases h
  | cons ch bytes ih =>
    rw [Receiver.parse] at h
    cases hstep : r.step ch with
    | mk next report' =>
      rw [hstep] at h
      cases report' with
      | none =>
        have := ih h
        rw [length_cons]
        omega
      | some report' =>
        obtain ⟨-, -, rfl⟩ := h
        exact Nat.lt_succ_self _

theorem judge_cons (s : σ) (report : Report Command) (reports : List (Report Command)) :
    judge session s (report :: reports) =
      ((admitted session s report).toList ++ (judge session s reports).1,
        (answered session s report).toList ++ (judge session s reports).2) := by
  unfold judge
  rw [filterMap_cons, filterMap_cons]
  cases admitted session s report <;> cases answered session s report <;> rfl

theorem judge_append (s : σ) (reports reports' : List (Report Command)) :
    judge session s (reports ++ reports') = ((judge session s reports).1 ++ (judge session s reports').1,
        (judge session s reports).2 ++ (judge session s reports').2) := by
  simp [judge]

theorem collect_eq (s : σ) (fuel : Nat) (r : Receiver Command) (bytes : Bytes)
    (hfuel : bytes.length < fuel) :
    collect session s fuel r bytes = ((feedPiece Receiver.step dropsRest r bytes).1,
        judge session s (feedPiece Receiver.step dropsRest r bytes).2) := by
  induction fuel generalizing r bytes with
  | zero => cases hfuel
  | succ fuel ih =>
    rw [collect, feedPiece_eq_parse]
    rcases hparse : r.parse bytes with ⟨r', report, rest⟩
    cases report with
    | none => rfl
    | some report =>
      have hlt := parse_length hparse
      cases report with
      | needsLiteral size | error tag message => rfl
      | request request =>
        simp only [ih r' rest (by omega), dropsRest, Bool.false_eq_true, if_false]
        rw [judge_cons]
        simp only [admitted, answered]
        cases session.isAllowed s request with
        | none | some message => rfl

theorem judge_length (session : Session σ) (s : σ) (reports : List (Report Command)) :
    (judge session s reports).1.length + (judge session s reports).2.length =
      reports.length := by
  induction reports with
  | nil => rfl
  | cons report reports ih =>
    have hone : (admitted session s report).toList.length +
        (answered session s report).toList.length = 1 := by
      cases report with
      | request request =>
        simp only [admitted, answered]
        cases session.isAllowed s request with
        | none | some message => rfl
      | needsLiteral size | error tag message => rfl
    rw [judge_cons]
    simp only [length_append, length_cons]
    omega

theorem mem_requestsOf_of_judge {s : σ} {reports : List (Report Command)} {request : Request Command}
    (h : request ∈ (judge session s reports).1) : request ∈ requestsOf reports := by
  obtain ⟨report, hmem, heq⟩ := mem_filterMap.mp h
  refine mem_filterMap.mpr ⟨report, hmem, ?_⟩
  cases report with
  | request q =>
    simp only [admitted] at heq
    split at heq
    · exact heq
    · cases heq
  | needsLiteral size | error tag message => cases heq

theorem judge_congr {s s' : σ} {reports : List (Report Command)} (h : ∀ request ∈ requestsOf reports,
      session.isAllowed s request = session.isAllowed s' request) :
    judge session s reports = judge session s' reports := by
  have hsame : ∀ report ∈ reports, admitted session s report = admitted session s' report ∧
      answered session s report = answered session s' report := by
    intro report hmem
    cases report with
    | request request =>
      have heq := h request (mem_filterMap.mpr ⟨_, hmem, rfl⟩)
      simp [admitted, answered, heq]
    | needsLiteral size | error tag message => exact ⟨rfl, rfl⟩
  unfold judge
  rw [filterMap_congr fun report hmem => (hsame report hmem).1,
    filterMap_congr fun report hmem => (hsame report hmem).2]

end Read

/-! ## All reads -/

section Reads

variable {σ : Type} {session : Session σ}

theorem requestsOf_append (reports reports' : List (Report Command)) :
    requestsOf (reports ++ reports') = requestsOf reports ++ requestsOf reports' :=
  filterMap_append

theorem ingestAll_length (session : Session σ) (s : σ) (r : Receiver Command) (reads : List Bytes) :
    (ingestAll session s r reads).1.length + (ingestAll session s r reads).2.length =
      (feedPieces Receiver.step dropsRest r reads).2.length := by
  induction reads generalizing s r with
  | nil => rfl
  | cons bytes reads ih =>
    rw [ingestAll, feedPieces]
    simp only [collect_eq s _ r bytes (Nat.lt_succ_self _), length_append]
    have hfirst := judge_length session s (feedPiece Receiver.step dropsRest r bytes).2
    have hrest := ih ((judge session s (feedPiece Receiver.step dropsRest r bytes).2).1.foldl
      session.handle s) (feedPiece Receiver.step dropsRest r bytes).1
    omega

theorem ingestAll_eq_judge {s : σ} {reads : List Bytes}
    (h : Steady session s (requestsOf (feedPieces Receiver.step dropsRest r reads).2)) :
    ingestAll session s r reads = judge session s (feedPieces Receiver.step dropsRest r reads).2 := by
  induction reads generalizing s r with
  | nil => rfl
  | cons bytes reads ih =>
    rw [feedPieces] at h
    simp only [requestsOf_append] at h
    rw [ingestAll, feedPieces]
    simp only [collect_eq s _ r bytes (Nat.lt_succ_self _), judge_append]
    generalize hreports : (feedPiece Receiver.step dropsRest r bytes).2 = reports at h ⊢
    generalize hrest : (feedPieces Receiver.step dropsRest
      (feedPiece Receiver.step dropsRest r bytes).1 reads).2 = rest at h ⊢
    have hhandled : ∀ request ∈ (judge session s reports).1,
        request ∈ requestsOf reports ++ requestsOf rest :=
      fun request hmem => mem_append_left _ (mem_requestsOf_of_judge hmem)
    have hlater : ∀ request ∈ requestsOf rest,
        session.isAllowed ((judge session s reports).1.foldl session.handle s) request =
          session.isAllowed s request :=
      fun request hmem => h _ hhandled request (mem_append_right _ hmem)
    have hsteady : Steady session ((judge session s reports).1.foldl session.handle s)
        (requestsOf rest) := by
      intro handled hsub request hmem
      rw [← foldl_append, hlater request hmem]
      refine h _ (fun q hq => ?_) request (mem_append_right _ hmem)
      rcases mem_append.mp hq with hq | hq
      · exact hhandled q hq
      · exact mem_append_right _ (hsub q hq)
    rw [ih (by rw [hrest]; exact hsteady), hrest, judge_congr hlater]

theorem ingestAll_of_quiet {s : σ} {reads : List Bytes}
    (hquiet : QuietAfterStop Receiver.step dropsRest r reads.flatten)
    (hsteady : Steady session s (requestsOf (feed Receiver.step r reads.flatten).2)) :
    ingestAll session s r reads = judge session s (feed Receiver.step r reads.flatten).2 := by
  have hreports := feedPieces_of_quiet hquiet
  rw [ingestAll_eq_judge (by rw [hreports]; exact hsteady), hreports]

theorem quiet_of_uniform {s : σ} {stream : Bytes}
    (h : ∀ reads reads' : List Bytes, reads.flatten = stream → reads'.flatten = stream →
      ingestAll session s r reads = ingestAll session s r reads') :
    QuietAfterStop Receiver.step dropsRest r stream := by
  have hview : ∀ front back : List (Report Command),
      (front ++ back).length = front.length → back = [] := by
    intro front back hlen
    rw [length_append] at hlen
    exact eq_nil_of_length_eq_zero (by omega)
  refine (pieces_uniform_iff hview).mp fun reads heq => ?_
  have hbytes : (stream.map fun ch => [ch]).flatten = stream := by
    rw [← flatMap_def, flatMap_singleton']
  have hsingle : feedPieces Receiver.step dropsRest r (stream.map fun ch => [ch]) =
      feed Receiver.step r stream := feedPieces_singletons r stream
  simp [← hsingle, ← ingestAll_length session s, h reads _ heq hbytes]

end Reads

/-! ## Lines -/

section Lines

variable (maxRequestSize : Nat)

/-- What a new connection reports on some bytes. -/
abbrev reports (bytes : Bytes) : List (Report Command) :=
  (feed Receiver.step (.new maxRequestSize) bytes).2

/-- A line some part of which is answered with an error. -/
def Malformed (line : Bytes) : Prop :=
  ∃ tag message, .error tag message ∈ reports maxRequestSize line

def Clean (bytes : Bytes) : Prop :=
  ∀ report ∈ reports maxRequestSize bytes, dropsRest report = false

/-- Well-formed lines behind a line are read as they are on a connection of their own. -/
def LeavesAlone (line : Bytes) : Prop :=
  ∀ (following : Bytes), Clean maxRequestSize following → ∀ (σ : Type) (session : Session σ) (s : σ),
      Steady session s (requestsOf (reports maxRequestSize line ++ reports maxRequestSize following)) →
      ∀ reads : List Bytes, reads.flatten = line ++ following →
        ingestAll session s (.new maxRequestSize) reads =
          judge session s (reports maxRequestSize line ++ reports maxRequestSize following)

variable {maxRequestSize}

def noopLine : Bytes := utf8 "a NOOP\n"

theorem reports_noopLine : reports maxRequestSize noopLine = [.request ⟨"a", .noop, []⟩] := by
  have hbytes : noopLine = [97, 32, 78, 79, 79, 80, 10] := by decide
  have htag : fromUtf8 [97] = some "a" := by decide
  have huid : eqIgnoreAsciiCase [78, 79, 79, 80] (utf8 "UID") = false := by decide
  have hparse : CommandParser.parse [78, 79, 79, 80] false = some Command.noop := by decide
  rw [hbytes]
  simp [reports, feed, Receiver.step, Receiver.new, Receiver.stepTag, Receiver.stepCommand,
    Receiver.pushChecked, Receiver.finish, Receiver.emptyRequest, isAsciiWhitespace,
    isAsciiAlphanumeric, toAsciiUppercase, htag, huid, hparse]

theorem not_leavesAlone_of_malformed {line : Bytes} (h : Malformed maxRequestSize line) :
    ¬ LeavesAlone maxRequestSize line := by
  intro halone
  obtain ⟨tag, message, herror⟩ := h
  have hclean : Clean maxRequestSize noopLine := by
    intro report hmem
    rw [reports_noopLine, mem_singleton] at hmem
    rw [hmem]
    rfl
  let session : Session Unit := ⟨fun _ _ => none, fun _ _ => ()⟩
  have hall := halone noopLine hclean Unit session () (fun _ _ _ _ => rfl) [line ++ noopLine] (by simp)
  have hlen := ingestAll_length session () (.new maxRequestSize) [line ++ noopLine]
  rw [hall, judge_length, reports_noopLine, length_append] at hlen
  rcases stop_cases Receiver.step dropsRest (.new maxRequestSize) line with
    hgoes | ⟨front, back, rfl, hstop⟩
  · cases hgoes _ herror
  · rw [feedPieces, feedPieces, append_assoc] at hlen
    simp only [feedPiece_of_stopsAt hstop, List.append_nil, length_singleton] at hlen
    rw [reports, feed_append, length_append] at hlen
    omega

/-- A line without errors and without an open literal leaves the lines behind it alone, if the
receiver is back where it started. -/
theorem leavesAlone_of_clean {line : Bytes} (hclean : Clean maxRequestSize line)
    (hrest : (feed Receiver.step (.new maxRequestSize) line).1 =
      (.new maxRequestSize : Receiver Command)) :
    LeavesAlone maxRequestSize line := by
  intro following hfollowing σ session s hsteady reads heq
  have hall : (feed Receiver.step (.new maxRequestSize) reads.flatten).2 =
      reports maxRequestSize line ++ reports maxRequestSize following := by
    rw [heq, feed_append, hrest]
  have hgoes : ∀ report ∈ (feed Receiver.step (.new maxRequestSize) reads.flatten).2,
      dropsRest report = false := by
    rw [hall]
    intro report hmem
    rcases mem_append.mp hmem with hmem | hmem
    · exact hclean report hmem
    · exact hfollowing report hmem
  have hpieces := feedPieces_eq_feed hgoes
  rw [ingestAll_eq_judge (by rw [hpieces, hall]; exact hsteady), hpieces, hall]

end Lines

end Bearmail.Imap
