import Bearmail.Lib.Occurrences
import Bearmail.Milter.Modifications

/-!
# Modifications one by one

What modifications mean, each made of the message as the ones before it left it, and when
`apply_milter_modifications` does the same. A change is taken for a new header when the message had
none of that name to begin with, whatever has been added or taken out since. A recipient is compared
as it is written with addresses in lower case. New headers are put before the message in the order of
the list, unless something makes the headers be written again: then each is put before the ones that
came earlier. A body that is replaced with nothing stays.
-/

namespace Bearmail.Milter

open Imap (Bytes eqIgnoreAsciiCase)
open List Option

open Occurrences

/-! ## What modifications mean -/

def sameName (name : Bytes) (header : Header) : Bool := eqIgnoreAsciiCase header.name name

/-- Before the header of that name with the index, or the last one when there are fewer; in front of
all when there is none, or the index is 0. -/
def insertBefore (index : Nat) (header : Header) (headers : List Header) : List Header :=
  headers.insertIdx (if index = 0 then 0 else (place (sameName header.name) index headers).getD 0) header

/-- No value deletes the header of that name with the index. Another value replaces its value, or is
added when there is no such header. -/
def changeHeader (index : Nat) (name value : Bytes) (headers : List Header) : List Header :=
  if value = [] then eraseAt (sameName name) index headers
  else if (occurrence (sameName name) index headers).isSome then
    changeAt (sameName name) index (fun header => { header with value }) headers
  else ⟨name, value⟩ :: headers

structure Edit where
  headers : List Header
  chunks : List Bytes
  rcptTo : List SessionAddress

def Edit.ofMessage (session : SessionData) (message : AuthenticatedMessage) : Edit :=
  ⟨message.rawParsedHeaders, [], session.rcptTo⟩

def Edit.step (lib : Library) (edit : Edit) : Modification → Edit
  | .changeFrom _ _ => edit
  | .addRcpt recipient args => { edit with rcptTo := addRcpt lib recipient args edit.rcptTo }
  | .deleteRcpt recipient =>
    { edit with rcptTo := edit.rcptTo.filter fun rcpt =>
        rcpt.addressLcase != lib.toLowercase (stripBrackets recipient) }
  | .replaceBody value => { edit with chunks := edit.chunks ++ [value] }
  | .addHeader name value => { edit with headers := ⟨name, value⟩ :: edit.headers }
  | .insertHeader index name value =>
    { edit with headers := insertBefore index ⟨name, value⟩ edit.headers }
  | .changeHeader index name value =>
    { edit with headers := Milter.changeHeader index name value edit.headers }
  | .quarantine reason => { edit with headers := ⟨xQuarantine, reason⟩ :: edit.headers }

def Edit.run (lib : Library) (edit : Edit) (modifications : List Modification) : Edit :=
  modifications.foldl (Edit.step lib) edit

def Edit.body (message : AuthenticatedMessage) (edit : Edit) : Bytes :=
  if edit.chunks = [] then message.rawBody else edit.chunks.flatten

/-! ## The loops -/

variable (index : Nat) (name value : Bytes) (headers : List Header) (modification : Modification)

theorem changeLoop_eq (headerCount : Nat) (headers : List Header) :
    changeLoop index name value headerCount headers =
      if value = [] then eraseAt (sameName name) (index - headerCount) headers
      else changeAt (sameName name) (index - headerCount) (fun header => { header with value })
        headers := by
  induction headers generalizing headerCount with
  | nil =>
    rw [eraseAt, changeAt, occurrence_nil]
    exact (ite_self _).symm
  | cons header rest ih =>
    rw [changeLoop]
    by_cases hname : eqIgnoreAsciiCase header.name name = true
    · rw [if_pos hname]
      by_cases hindex : headerCount + 1 = index
      · have hone : index - headerCount = 1 := by omega
        rw [if_pos hindex, hone, eraseAt_cons_one (p := sameName name) hname, changeAt_cons_one (p := sameName name) hname]
        by_cases hvalue : value = []
        · simp [hvalue]
        · simp [hvalue]
      · have hone : index - headerCount ≠ 1 := by omega
        simp [hindex, ih, eraseAt_cons_of_pos (p := sameName name) hname hone,
          changeAt_cons_of_pos (p := sameName name) hname hone, Nat.sub_sub,
          apply_ite (header :: ·)]
    · simp [hname, ih, eraseAt_cons_of_neg (p := sameName name) hname,
        changeAt_cons_of_neg (p := sameName name) hname, apply_ite (header :: ·)]

theorem insertLoop_eq (pos headerCount headerPos : Nat) (headers : List Header)
    (hcount : headerCount < index) :
    insertLoop index name pos headerCount headerPos headers =
      ((place (sameName name) (index - headerCount) headers).map (pos + ·)).getD headerPos := by
  induction headers generalizing pos headerCount headerPos with
  | nil => simp [insertLoop, place_nil]
  | cons header rest ih =>
    rw [insertLoop]
    by_cases hname : eqIgnoreAsciiCase header.name name = true
    · rw [if_pos hname]
      by_cases hindex : headerCount + 1 = index
      · have hone : index - headerCount = 1 := by omega
        rw [if_pos hindex, hone, place_cons_one (p := sameName name) hname]
        rfl
      · have hone : index - headerCount ≠ 1 := by omega
        rw [if_neg hindex, ih _ _ _ (by omega), place_cons_of_pos (p := sameName name) hname hone]
        cases place (sameName name) (index - (headerCount + 1)) rest with
        | none => rfl
        | some i =>
          simp only [map_some, getD_some]
          omega
    · rw [if_neg hname, ih _ _ _ hcount, place_cons_of_neg (p := sameName name) hname]
      cases place (sameName name) (index - headerCount) rest with
      | none => rfl
      | some i =>
        simp only [map_some, getD_some]
        omega

theorem apply_insert : HeaderChange.apply ⟨index, name, value, false⟩ headers =
      insertBefore index ⟨name, value⟩ headers := by
  rw [HeaderChange.apply, insertBefore]
  by_cases hindex : index = 0
  · subst hindex
    rfl
  · have hpos : 0 < index := Nat.pos_of_ne_zero hindex
    rw [if_pos hpos, if_neg hindex, insertLoop_eq index name 0 0 0 headers hpos]
    cases place (sameName name) index headers with
    | none => rfl
    | some i => rw [map_some, Nat.zero_add]; rfl

theorem apply_new : HeaderChange.apply ⟨0, name, value, false⟩ headers = ⟨name, value⟩ :: headers := rfl

theorem apply_change : HeaderChange.apply ⟨index, name, value, true⟩ headers =
      if value = [] then eraseAt (sameName name) index headers
      else changeAt (sameName name) index (fun header => { header with value }) headers :=
  changeLoop_eq index name value 0 headers

/-! ## What is gathered -/

section Gather

variable (message : AuthenticatedMessage)

def changeOf : Modification → Option HeaderChange
  | .addHeader name value => some ⟨0, name, value, false⟩
  | .insertHeader index name value => some ⟨index, name, value, false⟩
  | .changeHeader index name value =>
    if value = [] ∨ message.hasHeader name then some ⟨index, name, value, true⟩
    else some ⟨0, name, value, false⟩
  | .quarantine reason => some ⟨0, xQuarantine, reason, false⟩
  | _ => none

def rewrites : Modification → Bool
  | .insertHeader _ _ _ => true
  | .changeHeader _ name value => value = [] ∨ message.hasHeader name
  | _ => false

def chunkOf : Modification → Option Bytes
  | .replaceBody value => some value
  | _ => none

def editRcpt (lib : Library) (rcptTo : List SessionAddress) : Modification → List SessionAddress
  | .addRcpt recipient args => addRcpt lib recipient args rcptTo
  | .deleteRcpt recipient => deleteRcpt recipient rcptTo
  | _ => rcptTo

variable (lib : Library) (gathered : Gathered)

theorem headerChanges_gather : (gather lib message gathered modification).headerChanges =
      gathered.headerChanges ++ (changeOf message modification).toList := by
  cases modification with
  | changeHeader index name value =>
    rw [gather, changeOf]
    split <;> rfl
  | addHeader | insertHeader | quarantine => rfl
  | changeFrom | addRcpt | deleteRcpt | replaceBody => exact (List.append_nil _).symm

theorem needsRewrite_gather : (gather lib message gathered modification).needsRewrite =
      (gathered.needsRewrite || rewrites message modification) := by
  cases modification with
  | changeHeader index name value =>
    rw [gather, rewrites]
    split
    · rename_i h
      rw [decide_eq_true h, Bool.or_true]
      rfl
    · rename_i h
      rw [decide_eq_false h, Bool.or_false]
      rfl
  | insertHeader => exact (Bool.or_true _).symm
  | changeFrom | addRcpt | deleteRcpt | replaceBody | addHeader | quarantine =>
    exact (Bool.or_false _).symm

theorem body_gather : (gather lib message gathered modification).body =
      gathered.body ++ (chunkOf modification).toList.flatten := by
  cases modification with
  | replaceBody value => exact congrArg (gathered.body ++ ·) (List.append_nil value).symm
  | changeHeader index name value =>
    rw [gather]
    split <;> exact (List.append_nil _).symm
  | changeFrom | addRcpt | deleteRcpt | addHeader | insertHeader | quarantine =>
    exact (List.append_nil _).symm

theorem rcptTo_gather : (gather lib message gathered modification).session.rcptTo =
      editRcpt lib gathered.session.rcptTo modification := by
  cases modification with
  | changeHeader index name value =>
    rw [gather]
    split <;> rfl
  | changeFrom | addRcpt | deleteRcpt | replaceBody | addHeader | insertHeader | quarantine => rfl

def changesOf (modifications : List Modification) : List HeaderChange :=
  modifications.flatMap fun modification => (changeOf message modification).toList

def chunksOf (modifications : List Modification) : List Bytes :=
  modifications.flatMap fun modification => (chunkOf modification).toList

theorem foldl_gather (modifications : List Modification) :
    (modifications.foldl (gather lib message) gathered).headerChanges =
        gathered.headerChanges ++ changesOf message modifications ∧
      (modifications.foldl (gather lib message) gathered).needsRewrite =
        (gathered.needsRewrite || modifications.any (rewrites message)) ∧
      (modifications.foldl (gather lib message) gathered).body =
        gathered.body ++ (chunksOf modifications).flatten ∧
      (modifications.foldl (gather lib message) gathered).session.rcptTo =
        modifications.foldl (editRcpt lib) gathered.session.rcptTo := by
  induction modifications generalizing gathered with
  | nil => simp [changesOf, chunksOf]
  | cons modification rest ih =>
    obtain ⟨hchanges, hrewrite, hbody, hrcptTo⟩ := ih (gather lib message gathered modification)
    rw [headerChanges_gather, append_assoc] at hchanges
    rw [needsRewrite_gather, Bool.or_assoc] at hrewrite
    rw [body_gather, append_assoc, ← flatten_append] at hbody
    rw [rcptTo_gather] at hrcptTo
    exact ⟨hchanges, hrewrite, hbody, hrcptTo⟩

end Gather

/-! ## When they agree -/

variable {modifications : List Modification}

section Agrees

variable (lib : Library) (session : SessionData) (message : AuthenticatedMessage)

/-- A modification is not mistaken for something else. A change with a value is made of a header
exactly when the message had one of that name to begin with; and a recipient is that of an address as
it is written exactly when its lowercase form is. -/
def StepOk (edit : Edit) : Modification → Prop
  | .changeHeader index name value =>
    value = [] ∨ (message.hasHeader name = true ↔
      (occurrence (sameName name) index edit.headers).isSome = true)
  | .deleteRcpt recipient =>
    ∀ rcpt ∈ edit.rcptTo, (rcpt.addressLcase = stripBrackets recipient ↔
      rcpt.addressLcase = lib.toLowercase (stripBrackets recipient))
  | _ => True

def Steps : Edit → List Modification → Prop
  | _, [] => True
  | edit, modification :: rest =>
    StepOk lib message edit modification ∧ Steps (edit.step lib modification) rest

/-- The outcome is that of the modifications one by one; and where the new headers are written before
the message, the rewrite would give the same headers. -/
def Agrees (modifications : List Modification) : Prop :=
  let edit := (Edit.ofMessage session message).run lib modifications
  let new := newMessage lib session modifications message
  new.headers message = edit.headers ∧ new.body message = edit.body message ∧
    (applyMilterModifications lib session modifications message).1.rcptTo = edit.rcptTo ∧
    (modifications.any (rewrites message) = false →
      inPlace (changesOf message modifications) ++ message.rawParsedHeaders =
        rewriteHeaders (changesOf message modifications) message.rawParsedHeaders)

/-- The new headers read the same from both ends, where they are written before the message. -/
def InOrder (modifications : List Modification) : Prop :=
  modifications.any (rewrites message) = false → (inPlace (changesOf message modifications)).reverse =
      inPlace (changesOf message modifications)

def BodyOk (modifications : List Modification) : Prop :=
  chunksOf modifications = [] ∨ (chunksOf modifications).flatten ≠ [] ∨ message.rawBody = []

variable {lib session message} {edit : Edit}

theorem rewriteHeaders_append (changes changes' : List HeaderChange) (headers : List Header) :
    rewriteHeaders (changes ++ changes') headers =
      rewriteHeaders changes' (rewriteHeaders changes headers) := foldl_append

theorem changeHeader_iff {index : Nat} {name value : Bytes} :
    rewriteHeaders (changeOf message (.changeHeader index name value)).toList edit.headers =
        changeHeader index name value edit.headers ↔
      StepOk lib message edit (.changeHeader index name value) := by
  rw [changeHeader, StepOk]
  by_cases hvalue : value = []
  · have hof : changeOf message (.changeHeader index name value) =
        some ⟨index, name, value, true⟩ := if_pos (Or.inl hvalue)
    rw [hof, if_pos hvalue]
    refine iff_of_true ?_ (Or.inl hvalue)
    exact (apply_change index name value edit.headers).trans (if_pos hvalue)
  rw [if_neg hvalue, or_iff_right hvalue]
  by_cases hhas : message.hasHeader name = true
  · have hof : changeOf message (.changeHeader index name value) =
        some ⟨index, name, value, true⟩ := if_pos (Or.inr hhas)
    have happly : rewriteHeaders [⟨index, name, value, true⟩] edit.headers =
        changeAt (sameName name) index (fun header => { header with value }) edit.headers :=
      (apply_change index name value edit.headers).trans (if_neg hvalue)
    rw [hof, toList_some, happly]
    cases hoccurrence : occurrence (sameName name) index edit.headers with
    | some i => exact iff_of_true rfl (iff_of_true hhas rfl)
    | none =>
      rw [changeAt_of_none hoccurrence]
      refine iff_of_false (fun h => ?_) (fun h => nomatch h.mp hhas)
      exact absurd (congrArg List.length h) (Nat.ne_of_lt (Nat.lt_succ_self _))
  · have hof : changeOf message (.changeHeader index name value) =
        some ⟨0, name, value, false⟩ := if_neg (not_or_intro hvalue hhas)
    have happly : rewriteHeaders [⟨0, name, value, false⟩] edit.headers =
        ⟨name, value⟩ :: edit.headers := apply_new name value edit.headers
    rw [hof]
    cases hoccurrence : occurrence (sameName name) index edit.headers with
    | some i =>
      refine iff_of_false (fun h => ?_) (fun h => hhas (h.mpr rfl))
      have hlen := congrArg List.length h
      rw [isSome_some, if_pos rfl, length_changeAt] at hlen
      exact absurd hlen (Nat.ne_of_gt (Nat.lt_succ_self _))
    | none => exact iff_of_true rfl (iff_of_false hhas (nomatch ·))

theorem filter_eq_filter_iff {α : Type} {p q : α → Bool} {l : List α} :
    l.filter p = l.filter q ↔ ∀ x ∈ l, p x = q x := by
  refine ⟨fun h x hx => ?_, filter_congr⟩
  have hmem : x ∈ l.filter p ↔ x ∈ l.filter q := by rw [h]
  rw [mem_filter, mem_filter, and_iff_right hx, and_iff_right hx] at hmem
  exact Bool.eq_iff_iff.mpr hmem

theorem deleteRcpt_iff {recipient : Text} :
    deleteRcpt recipient edit.rcptTo = (edit.step lib (.deleteRcpt recipient)).rcptTo ↔
      StepOk lib message edit (.deleteRcpt recipient) := by
  refine filter_eq_filter_iff.trans (forall₂_congr fun rcpt _ => ?_)
  rw [Bool.eq_iff_iff, bne_iff_ne, bne_iff_ne]
  exact not_iff_not

/-- A modification that is not mistaken does what it means, and only such a one does. -/
theorem step_iff : rewriteHeaders (changeOf message modification).toList edit.headers =
          (edit.step lib modification).headers ∧
        editRcpt lib edit.rcptTo modification = (edit.step lib modification).rcptTo ↔
      StepOk lib message edit modification := by
  cases modification with
  | changeHeader index name value => exact (and_iff_left rfl).trans changeHeader_iff
  | deleteRcpt recipient => exact (and_iff_right rfl).trans deleteRcpt_iff
  | insertHeader index name value =>
    exact iff_of_true ⟨apply_insert index name value edit.headers, rfl⟩ trivial
  | changeFrom | addRcpt | replaceBody | addHeader | quarantine =>
    exact iff_of_true ⟨rfl, rfl⟩ trivial

theorem run_eq (modifications : List Modification) (h : Steps lib message edit modifications) :
    rewriteHeaders (changesOf message modifications) edit.headers =
        (edit.run lib modifications).headers ∧
      modifications.foldl (editRcpt lib) edit.rcptTo = (edit.run lib modifications).rcptTo := by
  induction modifications generalizing edit with
  | nil => exact ⟨rfl, rfl⟩
  | cons modification rest ih =>
    obtain ⟨hstep, hrest⟩ := h
    obtain ⟨hheaders, hrcptTo⟩ := (step_iff modification).mpr hstep
    have hchanges : changesOf message (modification :: rest) =
        (changeOf message modification).toList ++ changesOf message rest := flatMap_cons
    rw [hchanges, rewriteHeaders_append, foldl_cons, hheaders, hrcptTo]
    exact ih hrest

theorem chunks_run (modifications : List Modification) :
    (edit.run lib modifications).chunks = edit.chunks ++ chunksOf modifications := by
  induction modifications generalizing edit with
  | nil => exact (List.append_nil _).symm
  | cons modification rest ih =>
    have hstep : (edit.step lib modification).chunks = edit.chunks ++ (chunkOf modification).toList := by
      cases modification with
      | replaceBody => rfl
      | changeFrom | addRcpt | deleteRcpt | addHeader | insertHeader | changeHeader | quarantine =>
        exact (List.append_nil _).symm
    have hrun := @ih (edit.step lib modification)
    rw [hstep, append_assoc] at hrun
    exact hrun

theorem apply_changeOf {modification : Modification} (h : rewrites message modification = false)
    (headers : List Header) :
    rewriteHeaders (changeOf message modification).toList headers =
      (inPlace (changeOf message modification).toList).reverse ++ headers := by
  cases modification with
  | changeHeader index name value =>
    have hof : changeOf message (.changeHeader index name value) =
        some ⟨0, name, value, false⟩ := if_neg (of_decide_eq_false h)
    rw [hof]
    rfl
  | insertHeader => cases h
  | changeFrom | addRcpt | deleteRcpt | replaceBody | addHeader | quarantine => rfl

variable (h : modifications.any (rewrites message) = false)
include h

theorem rewriteHeaders_changesOf (headers : List Header) :
    rewriteHeaders (changesOf message modifications) headers =
      (inPlace (changesOf message modifications)).reverse ++ headers := by
  induction modifications generalizing headers with
  | nil => rfl
  | cons modification rest ih =>
    rw [any_cons, Bool.or_eq_false_iff] at h
    have hchanges : changesOf message (modification :: rest) =
        (changeOf message modification).toList ++ changesOf message rest := flatMap_cons
    have hinPlace : ∀ changes changes' : List HeaderChange,
        inPlace (changes ++ changes') = inPlace changes ++ inPlace changes' :=
      fun _ _ => List.map_append
    simp [hchanges, rewriteHeaders_append, apply_changeOf h.1, ih h.2, hinPlace, reverse_append]

/-- The two ways to write the headers agree when the new ones read the same from both ends. -/
theorem inPlace_iff : inPlace (changesOf message modifications) ++ message.rawParsedHeaders =
        rewriteHeaders (changesOf message modifications) message.rawParsedHeaders ↔
      (inPlace (changesOf message modifications)).reverse =
        inPlace (changesOf message modifications) := by
  rw [rewriteHeaders_changesOf h, append_left_inj]
  exact eq_comm

omit h

theorem written_iff : (if modifications.any (rewrites message) then
        rewriteHeaders (changesOf message modifications) message.rawParsedHeaders
      else inPlace (changesOf message modifications) ++ message.rawParsedHeaders) =
        rewriteHeaders (changesOf message modifications) message.rawParsedHeaders ↔
      InOrder message modifications := by
  cases hany : modifications.any (rewrites message) with
  | true => exact iff_of_true rfl (fun hfalse => nomatch hany.symm.trans hfalse)
  | false =>
    rw [InOrder, ← inPlace_iff hany]
    exact ⟨fun h _ => h, fun h => h hany⟩

theorem headers_newMessage (gathered : Gathered) : (gathered.newMessage message).headers message =
      if gathered.needsRewrite then
        rewriteHeaders gathered.headerChanges message.rawParsedHeaders
      else inPlace gathered.headerChanges ++ message.rawParsedHeaders := by
  rw [Gathered.newMessage]
  by_cases hchanges : gathered.headerChanges = []
  · rw [hchanges]
    by_cases hbody : gathered.body = []
    · rw [if_neg (not_not_intro hbody)]
      exact (ite_self _).symm
    · rw [if_pos hbody]
      exact (ite_self _).symm
  · rw [if_neg hchanges]
    by_cases hrewrite : gathered.needsRewrite = true
    · rw [if_pos hrewrite, if_pos hrewrite]
      rfl
    · rw [if_neg hrewrite, if_neg hrewrite]
      rfl

theorem body_newMessage (gathered : Gathered) : (gathered.newMessage message).body message =
      if gathered.body = [] then message.rawBody else gathered.body := by
  rw [Gathered.newMessage]
  by_cases hbody : gathered.body = []
  · rw [if_neg (not_not_intro hbody), if_neg (not_not_intro hbody)]
    split
    · rfl
    · split <;> rfl
  · rw [if_neg hbody]
    split
    · rfl
    · split <;> rfl

theorem replaced_iff : (if (chunksOf modifications).flatten = [] then message.rawBody
        else (chunksOf modifications).flatten) =
        (if chunksOf modifications = [] then message.rawBody
          else (chunksOf modifications).flatten) ↔
      BodyOk message modifications := by
  rw [BodyOk]
  by_cases hchunks : chunksOf modifications = []
  · rw [hchunks]
    exact iff_of_true rfl (Or.inl rfl)
  · rw [if_neg hchunks, or_iff_right hchunks]
    by_cases hflat : (chunksOf modifications).flatten = []
    · simp [hflat]
    · rw [if_neg hflat]
      exact iff_of_true rfl (Or.inl hflat)

/-- Where no modification is mistaken, the outcome is that of the modifications one by one exactly when
the new headers read the same from both ends, or the headers are written again, and no body is
replaced with nothing. -/
theorem agrees_iff (lib : Library) (session : SessionData) (message : AuthenticatedMessage)
    (modifications : List Modification)
    (h : Steps lib message (Edit.ofMessage session message) modifications) :
    Agrees lib session message modifications ↔
      InOrder message modifications ∧ BodyOk message modifications := by
  obtain ⟨hchanges, hrewrite, hbody, hrcptTo⟩ :=
    foldl_gather message lib ⟨session, [], [], false⟩ modifications
  rw [nil_append] at hchanges hbody
  obtain ⟨hheaders, hrun⟩ := run_eq modifications h
  have hchunks : ((Edit.ofMessage session message).run lib modifications).chunks =
      chunksOf modifications := chunks_run modifications
  have hedit : ((Edit.ofMessage session message).run lib modifications).body message =
      if chunksOf modifications = [] then message.rawBody else (chunksOf modifications).flatten := by
    rw [Edit.body, hchunks]
  rw [Agrees, applyMilterModifications, newMessage, gatherAll]
  rw [headers_newMessage, body_newMessage, hchanges, hrewrite, hbody, hrcptTo, hedit,
    replaced_iff, ← hheaders, ← hrun]
  have hagain : (modifications.any (rewrites message) = false →
      inPlace (changesOf message modifications) ++ message.rawParsedHeaders =
        rewriteHeaders (changesOf message modifications) message.rawParsedHeaders) ↔
      InOrder message modifications := forall_congr' inPlace_iff
  rw [hagain]
  constructor
  · rintro ⟨-, hbodyOk, -, horder⟩
    exact ⟨horder, hbodyOk⟩
  · rintro ⟨horder, hbodyOk⟩
    exact ⟨written_iff.mpr horder, hbodyOk, rfl, horder⟩

end Agrees

def asciiLibrary : Library := ⟨fun text => text.map Char.toLower, fun _ => none, fun _ => none⟩

def helloSession : SessionData :=
  ⟨none, [⟨"bill@x".toList, "bill@x".toList, ['x'], 0, none⟩]⟩

def helloMessage : AuthenticatedMessage :=
  ⟨[⟨[83], [32, 97, 13, 10]⟩], [83, 58, 32, 97, 13, 10, 13, 10], [98]⟩

/-- The subject is changed and deleted, a recipient is deleted, a header is added, and the body is
replaced. -/
def mixed : List Modification :=
  [.changeHeader 1 [83] [99], .deleteRcpt "<bill@x>".toList, .addHeader [65] [49],
    .changeHeader 1 [83] [], .replaceBody [100], .replaceBody [101]]

theorem agrees_mixed : Agrees asciiLibrary helloSession helloMessage mixed :=
  have hrcpt : ∀ rcpt ∈ helloSession.rcptTo,
      (rcpt.addressLcase = stripBrackets "<bill@x>".toList ↔
        rcpt.addressLcase = asciiLibrary.toLowercase (stripBrackets "<bill@x>".toList)) := by
    decide
  have hsteps : Steps asciiLibrary helloMessage (Edit.ofMessage helloSession helloMessage) mixed :=
    ⟨Or.inr (by decide), hrcpt, trivial, Or.inl rfl, trivial, trivial, trivial⟩
  (agrees_iff asciiLibrary helloSession helloMessage mixed hsteps).mpr
    ⟨(nomatch ·), Or.inr (Or.inl (by decide))⟩

/-- Two new headers are written in their order, and not each before the ones that came earlier. A
recipient with a capital is not found. A new header is changed, and is there twice. -/
theorem not_agrees :
    ¬ Agrees asciiLibrary helloSession helloMessage [.addHeader [65] [49], .addHeader [66] [50]] ∧
    ¬ Agrees asciiLibrary helloSession helloMessage [.deleteRcpt "Bill@x".toList] ∧
    ¬ Agrees asciiLibrary helloSession helloMessage
        [.addHeader [65] [49], .changeHeader 1 [65] [50]] := by
  refine ⟨fun h => ?_, fun h => ?_, fun h => ?_⟩
  · exact absurd h.1 (by decide)
  · exact absurd h.2.2.1 (by decide)
  · exact absurd h.1 (by decide)

end Bearmail.Milter
