import Bearmail.Store.Issued

/-!
# Drifting

A builder drifts when a cut leaves it in an account that is not the caller's. Everything is executed as it
was meant exactly when nothing is issued and nothing logged while it drifts.
-/

namespace Bearmail.Store

open List Option

/-! ## Change sets by account -/

def ChangeLogBuilder.IsFilled (changelog : ChangeLogBuilder) : Prop :=
  changelog.changes.entries ≠ [] ∨ changelog.vanished.entries ≠ []

theorem ChangeLogBuilder.isFilled_log (changelog : ChangeLogBuilder) (call : LogCall) :
    (changelog.log call).IsFilled := by
  cases call with
  | vanishedItem collection item => exact .inr (VecMap.entries_modify_ne_nil _ _ _ _)
  | _ => exact .inl (VecMap.entries_modify_ne_nil _ _ _ _)

theorem accountSets_cons {entry : UInt32 × ChangeLogBuilder} (h : entry.2.IsFilled) :
    ∃ set sets, accountSets entry = (entry.1, set) :: sets := by
  unfold accountSets
  cases hchanges : entry.2.changes.entries with
  | cons changes rest => exact ⟨_, _, rfl⟩
  | nil =>
    cases hvanished : entry.2.vanished.entries with
    | cons vanished rest => exact ⟨_, _, rfl⟩
    | nil => exact absurd h (not_or.mpr ⟨not_not.mpr hchanges, not_not.mpr hvanished⟩)

theorem setsOf_cons (first : UInt32 × LogCall) (rest : List (UInt32 × LogCall)) :
    ∃ set sets, setsOf (first :: rest) = (first.1, set) :: sets := by
  have hfold : ∀ (filed : List (UInt32 × LogCall)) (changes : VecMap UInt32 ChangeLogBuilder),
      (∃ changelog others, changes.entries = (first.1, changelog) :: others ∧ changelog.IsFilled) →
      ∃ changelog others, (filed.foldl fileInto changes).entries = (first.1, changelog) :: others ∧
        changelog.IsFilled := by
    intro filed
    induction filed with
    | nil => exact fun changes h => h
    | cons next filed ih =>
      rintro changes ⟨changelog, others, hentries, hfilled⟩
      refine ih _ ?_
      rcases VecMap.entries_modify_of_cons hentries .empty (fun changelog => changelog.log next.2)
        next.1 with ⟨others', hsame⟩ | ⟨others', hlogged⟩
      · exact ⟨changelog, others', hsame, hfilled⟩
      · exact ⟨_, others', hlogged, changelog.isFilled_log next.2⟩
  obtain ⟨changelog, others, hentries, hfilled⟩ := hfold rest (fileInto .empty first)
    ⟨_, [], rfl, ChangeLogBuilder.isFilled_log _ _⟩
  obtain ⟨set, sets, hsets⟩ := accountSets_cons (show (first.1, changelog).2.IsFilled from hfilled)
  refine ⟨set, sets ++ others.flatMap accountSets, ?_⟩
  simp [setsOf, changeSets, changesOf, foldl_cons, hentries, hsets]

variable {filed : List Filed} {call : Call}

namespace Session

/-- The changes of a segment that are logged under the account of the caller, or start apart from it. -/
def Agree (filed : List Filed) : Prop := ∀ entry ∈ filed, entry.account = entry.caller

def Apart (filed : List Filed) : Prop :=
  ∃ first rest, filed = first :: rest ∧ first.account ≠ first.caller

theorem Agree.kept_eq_meant (h : Agree filed) : filed.map Filed.kept = filed.map Filed.meant :=
  map_congr_left fun entry hentry => Prod.ext (h entry hentry) rfl

theorem Apart.not_agree (h : Apart filed) : ¬ Agree filed := by
  obtain ⟨first, rest, rfl, hne⟩ := h
  exact fun hagree => hne (hagree first mem_cons_self)

theorem sets_eq_iff {segments : List (List Filed)} (h : ∀ filed ∈ segments, Agree filed ∨ Apart filed) :
    (segments.flatMap fun filed => setsOf (filed.map Filed.kept)) =
        (segments.flatMap fun filed => setsOf (filed.map Filed.meant)) ↔
      ∀ filed ∈ segments, Agree filed := by
  induction segments with
  | nil => simp
  | cons filed rest ih =>
    have hrest := ih fun filed' hfiled' => h filed' (mem_cons_of_mem _ hfiled')
    rw [forall_mem_cons, flatMap_cons, flatMap_cons]
    rcases h filed mem_cons_self with hagree | hapart
    · rw [hagree.kept_eq_meant, append_cancel_left_eq, hrest]
      exact ⟨fun h => ⟨hagree, h⟩, And.right⟩
    · refine iff_of_false (fun heq => ?_) fun h => hapart.not_agree h.1
      obtain ⟨first, others, rfl, hne⟩ := hapart
      obtain ⟨set, sets, hkept⟩ := setsOf_cons first.kept (others.map Filed.kept)
      obtain ⟨set', sets', hmeant⟩ := setsOf_cons first.meant (others.map Filed.meant)
      rw [map_cons, map_cons, hkept, hmeant] at heq
      exact hne (congrArg Prod.fst (List.cons.inj heq).1)

/-! ## Straight sessions -/

/-- Whatever is issued or logged goes to the account of the caller. -/
structure Straight (session : Session) : Prop where
  issued : ∀ issued ∈ session.issued, issued.account = issued.caller.accountId
  filed : ∀ filed ∈ session.closed ++ [session.opened], Agree filed

/-- When the account of the builder is not the caller's. -/
structure Drifts (session : Session) : Prop where
  adrift : session.adrift = true ↔ session.builder.currentAccountId ≠ session.caller.accountId
  unset : session.builder.currentAccountId = none ↔ session.caller.accountId = none
  idle : session.builder.currentAccountId = none → session.builder.changes = .empty
  issued : ∀ issued ∈ session.issued, issued.account = none ↔ issued.caller.accountId = none
  filed : ∀ filed ∈ session.closed ++ [session.opened], Agree filed ∨ Apart filed
  /-- The builder drifts since the beginning of the segment. -/
  opened : session.adrift = true → session.opened = [] ∨ Apart session.opened

def issues (session : Session) (call : Call) : Bool :=
  call.operation.isSome || (session.files call).isSome

/-- Nothing is issued and nothing is logged while the builder drifts. -/
def steady (session : Session) (call : Call) : Prop :=
  session.issues call = true → session.adrift = false

theorem agree_nil : Agree [] := forall_mem_nil _

instance (session : Session) (call : Call) : Decidable (session.steady call) :=
  inferInstanceAs (Decidable (_ → _))

theorem drifts_new : Drifts .new where
  adrift := iff_of_false Bool.false_ne_true (not_not.mpr rfl)
  unset := Iff.rfl
  idle _ := rfl
  issued := forall_mem_nil _
  filed := forall_mem_singleton.mpr (.inl agree_nil)
  opened _ := .inl rfl

theorem straight_new : Straight .new :=
  ⟨forall_mem_nil _, forall_mem_singleton.mpr agree_nil⟩

variable {session : Session}

theorem files_eq_some {filed : Filed} (h : session.files call = some filed) :
    session.caller.accountId = some filed.caller ∧
      session.builder.currentAccountId = some filed.account := by
  obtain ⟨caller, hcaller, h⟩ := bind_eq_some_iff.mp h
  obtain ⟨account, haccount, h⟩ := bind_eq_some_iff.mp h
  obtain ⟨change, -, rfl⟩ := map_eq_some_iff.mp h
  exact ⟨hcaller, haccount⟩

theorem Drifts.files (h : Drifts session) {filed : Filed} (hfiled : session.files call = some filed) :
    session.adrift = true ↔ filed.account ≠ filed.caller := by
  obtain ⟨hcaller, haccount⟩ := files_eq_some hfiled
  rw [h.adrift, hcaller, haccount]
  exact not_congr some_inj

theorem Drifts.adrift_eq_false (h : Drifts session) :
    session.adrift = false ↔ session.builder.currentAccountId = session.caller.accountId := by
  simp [← Bool.not_eq_true, h.adrift]

theorem call_of_cuts (h : session.cuts call = true) :
    call = .commitPoint ∧ session.builder.isLargeBatch = true := by
  cases call with
  | commitPoint => exact ⟨rfl, h⟩
  | _ => cases h

theorem segments_of_cuts (h : session.cuts call = true) :
    (session.call call).closed ++ [(session.call call).opened] =
      session.closed ++ [session.opened] ++ [[]] := by
  simp [Session.call, h]

theorem segments_of_not_cuts (h : session.cuts call = false) :
    (session.call call).closed ++ [(session.call call).opened] =
      session.closed ++ [session.opened ++ (session.files call).toList] := by
  simp [Session.call, h]

theorem files_of_cuts (h : session.cuts call = true) : session.files call = none := by
  obtain ⟨rfl, -⟩ := call_of_cuts h
  exact files_eq_none rfl

theorem straight_call_iff (h : Drifts session) (call : Call) :
    Straight (session.call call) ↔ Straight session ∧ session.steady call := by
  have hissued : (∀ issued ∈ (session.call call).issued, issued.account = issued.caller.accountId) ↔
      (∀ issued ∈ session.issued, issued.account = issued.caller.accountId) ∧
        (call.operation.isSome = true → session.adrift = false) := by
    rw [h.adrift_eq_false]
    show (∀ issued ∈ session.issued ++ _, issued.account = issued.caller.accountId) ↔ _
    rw [forall_mem_append]
    cases call.operation <;> simp
  have hfiled : (∀ filed ∈ (session.call call).closed ++ [(session.call call).opened], Agree filed) ↔
      (∀ filed ∈ session.closed ++ [session.opened], Agree filed) ∧
        ((session.files call).isSome = true → session.adrift = false) := by
    cases hcuts : session.cuts call with
    | true =>
      rw [segments_of_cuts hcuts, forall_mem_append, files_of_cuts hcuts]
      simp [agree_nil]
    | false =>
      rw [segments_of_not_cuts hcuts, forall_mem_append, forall_mem_append,
        forall_mem_singleton, forall_mem_singleton, and_assoc]
      cases hfiles : session.files call with
      | none => simp
      | some filed =>
        have hdrift := h.files hfiles
        simp only [Agree, toList_some, forall_mem_append, forall_mem_singleton,
          isSome_some, forall_const]
        simp [← Bool.not_eq_true, hdrift]
  have hsteady : session.steady call ↔ (call.operation.isSome = true → session.adrift = false) ∧
      ((session.files call).isSome = true → session.adrift = false) := by
    unfold steady issues
    rw [Bool.or_eq_true, or_imp]
  constructor
  · intro hstraight
    obtain ⟨hold, hnow⟩ := hissued.mp hstraight.issued
    obtain ⟨hold', hnow'⟩ := hfiled.mp hstraight.filed
    exact ⟨⟨hold, hold'⟩, hsteady.mpr ⟨hnow, hnow'⟩⟩
  · rintro ⟨hold, hnow⟩
    obtain ⟨hnow, hnow'⟩ := hsteady.mp hnow
    exact ⟨hissued.mpr ⟨hold.issued, hnow⟩, hfiled.mpr ⟨hold.filed, hnow'⟩⟩

theorem account_cases (call : Call) :
    (∃ accountId, (session.call call).builder.currentAccountId = some accountId ∧
      (session.call call).caller.accountId = some accountId ∧
      (session.call call).adrift = false) ∨
    ((session.call call).caller.accountId = session.caller.accountId ∧
      (session.call call).builder.currentAccountId = session.builder.currentAccountId ∧
      (session.call call).adrift = session.adrift) ∨
    ∃ last, session.cuts call = true ∧ session.builder.changes.keys.getLast? = some last ∧
      (session.call call).caller.accountId = session.caller.accountId ∧
      (session.call call).builder.currentAccountId = some last ∧
      (session.call call).adrift = !decide (session.caller.accountId = some last) := by
  cases hplain : call.isPlain with
  | true =>
    refine .inr (.inl ⟨congrArg _ (Caller.call_of_isPlain hplain _),
      (session.builder.plain_call hplain).account, ?_⟩)
    cases call with
    | withAccountId | withCollection | withDocument | commitPoint => cases hplain
    | _ => rfl
  | false =>
    cases call with
    | withAccountId accountId =>
      exact .inl ⟨accountId, session.builder.withAccountId_currentAccountId accountId, rfl, rfl⟩
    | withCollection collection =>
      obtain ⟨-, -, -, haccount, -⟩ := session.builder.marks_withCollection collection
      exact .inr (.inl ⟨rfl, haccount, rfl⟩)
    | withDocument documentId => exact .inr (.inl ⟨rfl, rfl, rfl⟩)
    | commitPoint =>
      cases hlarge : session.builder.isLargeBatch with
      | false =>
        refine .inr (.inl ⟨rfl, congrArg _ (BatchBuilder.commitPoint_of_not_large hlarge), ?_⟩)
        simp [Session.call, driftsAt, hlarge]
      | true =>
        have haccount : session.builder.commitPoint.currentAccountId =
            session.builder.changes.keys.getLast?.or session.builder.currentAccountId := by
          rw [BatchBuilder.commitPoint, if_pos hlarge]
          exact session.builder.flushes_serializeChanges.2
        cases hlast : session.builder.changes.keys.getLast? with
        | none =>
          rw [hlast] at haccount
          refine .inr (.inl ⟨rfl, haccount, ?_⟩)
          simp [Session.call, driftsAt, hlarge, hlast]
        | some last =>
          rw [hlast] at haccount
          refine .inr (.inr ⟨last, hlarge, rfl, rfl, haccount, ?_⟩)
          simp [Session.call, driftsAt, hlarge, hlast]
    | _ => cases hplain

theorem Apart.append (h : Apart filed) (filed' : List Filed) : Apart (filed ++ filed') := by
  obtain ⟨first, rest, rfl, hne⟩ := h
  exact ⟨first, rest ++ filed', rfl, hne⟩

theorem Agree.append_files (h : Drifts session) (hagree : Agree session.opened)
    (hadrift : session.adrift = false) : Agree (session.opened ++ (session.files call).toList) := by
  refine forall_mem_append.mpr ⟨hagree, fun filed hfiled => ?_⟩
  have hdrift := h.files (mem_toList.mp hfiled)
  rw [hadrift] at hdrift
  exact not_not.mp fun hne => Bool.false_ne_true (hdrift.mpr hne)

/-- While the builder drifts, the first change that is logged in a segment goes to another account. -/
theorem Drifts.opened_files (h : Drifts session) (hadrift : session.adrift = true) (call : Call) :
    session.opened ++ (session.files call).toList = [] ∨
      Apart (session.opened ++ (session.files call).toList) := by
  rcases h.opened hadrift with hnil | hapart
  · rw [hnil]
    cases hfiles : session.files call with
    | none => exact .inl rfl
    | some filed => exact .inr ⟨filed, [], rfl, (h.files hfiles).mp hadrift⟩
  · exact .inr (hapart.append _)

theorem changes_call_of_idle {builder : BatchBuilder} (hnone : builder.currentAccountId = none)
    (hchanges : builder.changes = .empty) (call : Call) : (builder.call call).changes = .empty := by
  cases hplain : call.isPlain with
  | true =>
    rw [(builder.plain_call hplain).changes, hnone, hchanges]
    rfl
  | false =>
    cases call with
    | withAccountId accountId =>
      exact (builder.flushes_withAccountId accountId).changes.trans hchanges
    | withCollection collection =>
      obtain ⟨_, hmarks, -⟩ := builder.marks_withCollection collection
      exact hmarks.changes.trans hchanges
    | withDocument documentId => exact hchanges
    | commitPoint =>
      cases hlarge : builder.isLargeBatch with
      | false => exact (congrArg _ (BatchBuilder.commitPoint_of_not_large hlarge)).trans hchanges
      | true =>
        rw [BatchBuilder.call, BatchBuilder.commitPoint, if_pos hlarge]
        exact builder.flushes_serializeChanges.1.changes
    | _ => cases hplain

theorem drifts_call (h : Drifts session) (call : Call) : Drifts (session.call call) where
  adrift := by
    rcases session.account_cases call with ⟨accountId, hbuilder, hcaller, hadrift⟩ |
      ⟨hcaller, hbuilder, hadrift⟩ | ⟨last, -, -, hcaller, hbuilder, hadrift⟩
    · rw [hbuilder, hcaller, hadrift]
      exact iff_of_false Bool.false_ne_true (not_not.mpr rfl)
    · rw [hbuilder, hcaller, hadrift]
      exact h.adrift
    · rw [hbuilder, hcaller, hadrift, Bool.not_eq_true', decide_eq_false_iff_not]
      exact ne_comm
  unset := by
    rcases session.account_cases call with ⟨accountId, hbuilder, hcaller, -⟩ |
      ⟨hcaller, hbuilder, -⟩ | ⟨last, -, hlast, hcaller, hbuilder, -⟩
    · rw [hbuilder, hcaller]
    · rw [hbuilder, hcaller]
      exact h.unset
    · rw [hbuilder, hcaller, ← h.unset]
      refine iff_of_false (some_ne_none _) fun hnone => ?_
      rw [h.idle hnone] at hlast
      cases hlast
  idle hnone := by
    rcases session.account_cases call with ⟨accountId, hbuilder, -⟩ | ⟨-, hbuilder, -⟩ |
      ⟨last, -, -, -, hbuilder, -⟩
    · cases hbuilder.symm.trans hnone
    · have hbefore := hbuilder.symm.trans hnone
      exact changes_call_of_idle hbefore (h.idle hbefore) call
    · cases hbuilder.symm.trans hnone
  issued := by
    refine forall_mem_append.mpr ⟨h.issued, fun issued hissued => ?_⟩
    obtain ⟨op, -, rfl⟩ := map_eq_some_iff.mp (mem_toList.mp hissued)
    exact h.unset
  filed := by
    obtain ⟨hclosed, hopened⟩ := forall_mem_append.mp h.filed
    cases hcuts : session.cuts call with
    | true =>
      rw [segments_of_cuts hcuts]
      exact forall_mem_append.mpr ⟨h.filed, forall_mem_singleton.mpr (.inl agree_nil)⟩
    | false =>
      rw [segments_of_not_cuts hcuts]
      refine forall_mem_append.mpr ⟨hclosed, forall_mem_singleton.mpr ?_⟩
      cases hadrift : session.adrift with
      | true =>
        rcases h.opened_files hadrift call with hnil | hapart
        · rw [hnil]
          exact .inl agree_nil
        · exact .inr hapart
      | false =>
        rcases forall_mem_singleton.mp hopened with hagree | hapart
        · exact .inl (hagree.append_files h hadrift)
        · exact .inr (hapart.append _)
  opened hadrift := by
    have hopened : session.cuts call = true → (session.call call).opened = [] := fun hcuts => by
      simp [Session.call, hcuts]
    rcases session.account_cases call with ⟨accountId, -, -, hfalse⟩ | ⟨-, -, hsame⟩ | ⟨last, hcuts, -⟩
    · cases hfalse.symm.trans hadrift
    · cases hcuts : session.cuts call with
      | true => exact .inl (hopened hcuts)
      | false =>
        have hkeeps : (session.call call).opened = session.opened ++ (session.files call).toList := by
          simp [Session.call, hcuts]
        rw [hkeeps]
        exact h.opened_files (hsame.symm.trans hadrift) call
    · exact .inl (hopened hcuts)

/-! ## Runs -/

theorem along_nil {cond : Session → Call → Prop} : Runs.Along step cond session [] := trivial

theorem along_cons {cond : Session → Call → Prop} {rest : List Call} :
    Runs.Along step cond session (call :: rest) ↔
      cond session call ∧ Runs.Along step cond (session.call call) rest := by
  refine and_congr_right' ⟨fun halong => halong _ rfl, fun halong next hnext => ?_⟩
  cases hnext
  exact halong

theorem straight_iff (h : Drifts session) (calls : List Call) :
    Straight (calls.foldl Session.call session) ↔
      Straight session ∧ Runs.Along step steady session calls := by
  induction calls generalizing session with
  | nil => exact (and_iff_left trivial).symm
  | cons call rest ih =>
    rw [foldl_cons, ih (drifts_call h call), straight_call_iff h, along_cons, and_assoc]

theorem drifts_ofCalls (calls : List Call) : Drifts (ofCalls calls) := by
  suffices ∀ session, Drifts session → Drifts (calls.foldl Session.call session) from
    this new drifts_new
  induction calls with
  | nil => exact fun session h => h
  | cons call rest ih => exact fun session h => ih _ (drifts_call h call)

theorem Issued.kept_eq_meant_iff {issued : Issued}
    (hunset : issued.account = none ↔ issued.caller.accountId = none) :
    issued.kept = issued.meant ↔ issued.account = issued.caller.accountId := by
  constructor
  · intro heq
    have haccount : issued.account.getD Context.initial.accountId =
        issued.caller.accountId.getD Context.initial.accountId := by
      have hcontext := congrArg (fun entry : Context × Operation => entry.1.accountId) heq
      simp only [Issued.kept, Issued.meant, Operation.scope_accountId] at hcontext
      exact hcontext
    cases hkept : issued.account with
    | none => exact (hunset.mp hkept).symm
    | some account =>
      cases hmeant : issued.caller.accountId with
      | none => cases hkept.symm.trans (hunset.mpr hmeant)
      | some caller =>
        rw [hkept, hmeant] at haccount
        exact congrArg some haccount
  · intro haccount
    rw [Issued.kept, haccount]
    rfl

/-- Every operation that the batches execute, and every change that they write, is in the account, the
collection and the document that the caller had set when it made the call. -/
structure ExecutedAsMeant (session : Session) (route : Route) : Prop where
  operations : directOf (session.builder.executed route) = session.issued.map Issued.meant
  changes : logsOf (session.builder.executed route) =
    (session.closed ++ [session.opened]).flatMap fun filed => setsOf (filed.map Filed.meant)

theorem executedAsMeant_iff_straight {route : Route} {closed : List (List Operation)}
    {opened : List Operation} (h : session.Follows True route closed opened)
    (hdrifts : Drifts session) :
    session.ExecutedAsMeant route ↔ Straight session := by
  obtain ⟨hoperations, hchanges⟩ := h.executed
  have hoperations := hoperations trivial
  have hissued : session.issued.map Issued.kept = session.issued.map Issued.meant ↔
      ∀ issued ∈ session.issued, issued.account = issued.caller.accountId := by
    rw [map_inj_left]
    exact forall₂_congr fun issued hissued =>
      Issued.kept_eq_meant_iff (hdrifts.issued issued hissued)
  have hfiled := sets_eq_iff hdrifts.filed
  constructor
  · intro hmeant
    exact ⟨hissued.mp (hoperations.symm.trans hmeant.operations),
      hfiled.mp (hchanges.symm.trans hmeant.changes)⟩
  · intro hstraight
    exact ⟨hoperations.trans (hissued.mpr hstraight.issued), hchanges.trans (hfiled.mpr hstraight.filed)⟩

/-- A change of account 1 is logged and cut while account 2 is set, which a value then goes by. -/
def redirected (value : List UInt8) : List Call :=
  [.withAccountId 1, .withDocument 7, .logItemUpdate .email none, .withAccountId 2, .withDocument 8,
    .set (.property 0) value, .commitPoint, .withDocument 9, .set (.property 0) []]

theorem along_renews_redirected (value : List UInt8) :
    Runs.Along step renews new (redirected value) := by
  simp [redirected, along_cons, along_nil, renews, Call.operation, Session.call, Caller.call]

theorem not_straight_redirected {value : List UInt8} (h : 5000000 < value.length) :
    ¬ Straight (ofCalls (redirected value)) := by
  intro hstraight
  have hlarge : (ofCalls ((redirected value).take 6)).builder.isLargeBatch = true := by
    refine decide_eq_true (.inl ?_)
    show 5000000 < 0 + ((ValueClass.property 0).serializedSize + value.length)
    omega
  have hadrift : (ofCalls ((redirected value).take 7)).adrift = true := by
    show (if (ofCalls ((redirected value).take 6)).builder.isLargeBatch then _ else _) = true
    rw [if_pos hlarge]
    rfl
  have hsteady := ((straight_iff drifts_new (redirected value)).mp hstraight).2
  simp only [redirected, along_cons] at hsteady
  obtain ⟨-, -, -, -, -, -, -, -, hlast, -⟩ := hsteady
  exact Bool.false_ne_true ((hlast rfl).symm.trans hadrift)

end Session

end Bearmail.Store
