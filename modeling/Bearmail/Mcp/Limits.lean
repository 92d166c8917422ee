import Mathlib.Algebra.Order.Ring.Nat
import Bearmail.Lib.Runs
import Bearmail.Lib.Tables

/-!
# Limits of the tools

The daily cap on messages and the rate of tool calls, for all sessions that a process opens for one
account. Both counters belong to the account object of a session, and so each session has its own. A
message is counted when its draft has been saved, and it is submitted some requests later.

A step is one answer of the mail server. Between the steps time passes, and other calls go on. The clock
is in milliseconds since 1970 and does not go back.
-/

namespace Bearmail.Mcp.Limits

open List Option

/-! ## Counters -/

/-- `new Date().toISOString().slice(0, 10)`, as a number. -/
def dayOf (now : Nat) : Nat := now / 86400000

structure SendQuota where
  dailyCap : Nat
  counts : AList fun _ : String => Nat × Nat

def SendQuota.count (quota : SendQuota) (actor : String) (now : Nat) : Nat :=
  match quota.counts.lookup actor with
  | some (day, count) => if day = dayOf now then count else 0
  | none => 0

def SendQuota.consume (quota : SendQuota) (actor : String) (now : Nat) : Option SendQuota :=
  if quota.dailyCap = 0 then some quota
  else if quota.dailyCap ≤ quota.count actor now then none
  else some { quota with
    counts := quota.counts.insert actor (dayOf now, quota.count actor now + 1) }

structure RateLimiter where
  perMinute : Nat
  hits : List Nat

def RateLimiter.recent (limiter : RateLimiter) (now : Nat) : List Nat :=
  limiter.hits.dropWhile fun hit => decide (60000 < now - hit)

/-- Whether there was room, and the limiter after it. -/
def RateLimiter.consume (limiter : RateLimiter) (now : Nat) : Bool × RateLimiter :=
  if limiter.perMinute ≤ (limiter.recent now).length then
    (false, { limiter with hits := limiter.recent now })
  else (true, { limiter with hits := limiter.recent now ++ [now] })

/-! ## Tool calls -/

inductive SendMode where
  | draftOnly
  | sendAllowed
  deriving DecidableEq

inductive Tool where
  | sendEmail
  | reply
  | other (requests : List String)

structure Config where
  sendDailyCap : Nat
  toolRatePerMinute : Nat
  sendMode : SendMode
  username : String
  /-- the scope and the capability that the tool needs are there -/
  permits : Tool → Bool

/-- What follows when the requests of a call are answered. -/
inductive Phase where
  | working
  | drafting
  /-- with the day on which the message was counted -/
  | submitting (day : Nat)
  deriving DecidableEq

/-- A call that waits for the answer to the first of its requests. -/
structure Call where
  session : Nat
  phase : Phase
  todo : List String
  deriving DecidableEq

/-- What a tool asks the mail server for before the message is counted. -/
def Tool.requests : Tool → List String
  | .sendEmail => ["Identity/get", "Mailbox/get", "upload", "Email/import"]
  | .reply => ["Email/get", "Identity/get", "Mailbox/get", "upload", "Email/import"]
  | .other requests => requests

def Tool.phase : Tool → Phase
  | .sendEmail | .reply => .drafting
  | .other _ => .working

def submitRequests : List String :=
  ["Identity/get", "Mailbox/get", "Mailbox/get", "EmailSubmission/set"]

structure Account where
  quota : SendQuota
  limiter : RateLimiter

structure Process where
  clock : Nat
  /-- by session, also when that is closed -/
  accounts : AList fun _ : Nat => Account
  closed : List Nat
  calls : List Call
  /-- the calls that were admitted, with their sessions -/
  admissions : List (Nat × Nat)
  /-- when a message was submitted -/
  submissions : List Nat

variable (config : Config)

def newAccount : Account := ⟨⟨config.sendDailyCap, ∅⟩, ⟨config.toolRatePerMinute, []⟩⟩

def openSession (process : Process) (session : Nat) : Option Process :=
  if (process.accounts.lookup session).isSome then none
  else some { process with accounts := process.accounts.insert session (newAccount config) }

def closeSession (process : Process) (session : Nat) : Option Process :=
  some { process with closed := session :: process.closed }

/-- `run`: a call that is admitted counts, also when it is not permitted. -/
def start (process : Process) (session : Nat) (tool : Tool) : Option Process :=
  if session ∈ process.closed then none
  else
    (process.accounts.lookup session).map fun account =>
      let (admitted, limiter) := account.limiter.consume process.clock
      let process := { process with
        accounts := process.accounts.insert session { account with limiter } }
      if admitted then
        { process with
          admissions := process.admissions ++ [(session, process.clock)]
          calls :=
            if config.permits tool ∧ tool.requests ≠ [] then
              ⟨session, tool.phase, tool.requests⟩ :: process.calls
            else process.calls }
      else process

def submit (process : Process) (session : Nat) : Process :=
  match process.accounts.lookup session with
  | none => process
  | some account =>
    match account.quota.consume config.username process.clock with
    | none => process
    | some quota =>
      { process with
        accounts := process.accounts.insert session { account with quota }
        calls := ⟨session, .submitting (dayOf process.clock), submitRequests⟩ :: process.calls }

/-- The mail server has done the first request of a call. -/
def answer (process : Process) (call : Call) : Option Process :=
  if call ∈ process.calls then
    let process := { process with calls := process.calls.erase call }
    match call.todo with
    | _ :: next :: rest =>
      some { process with calls := { call with todo := next :: rest } :: process.calls }
    | _ =>
      match call.phase with
      | .working => some process
      | .drafting =>
        if config.sendMode = .draftOnly then some process
        else some (submit config process call.session)
      | .submitting _ =>
        some { process with submissions := process.submissions ++ [process.clock] }
  else none

def fail (process : Process) (call : Call) : Option Process :=
  if call ∈ process.calls then some { process with calls := process.calls.erase call } else none

inductive Step where
  | wait (milliseconds : Nat)
  | openSession (session : Nat)
  | closeSession (session : Nat)
  | start (session : Nat) (tool : Tool)
  | answer (call : Call)
  | fail (call : Call)

def step (process : Process) : Step → Option Process
  | .wait milliseconds => some { process with clock := process.clock + milliseconds }
  | .openSession session => openSession config process session
  | .closeSession session => closeSession process session
  | .start session tool => start config process session tool
  | .answer call => answer config process call
  | .fail call => fail process call

def newProcess : Process := ⟨0, ∅, [], [], [], []⟩

/-! ## What the limits are for -/

def Process.submitted (process : Process) (day : Nat) : Nat :=
  process.submissions.countP fun time => decide (dayOf time = day)

/-- How many calls were admitted in the minute from a time on. -/
def Process.admitted (process : Process) (time : Nat) : Nat :=
  process.admissions.countP fun admission =>
    decide (time ≤ admission.2 ∧ admission.2 ≤ time + 60000)

/-- Before the last answer: a message is counted when no other session has counted one that day, and
submitted on the day on which it was counted. -/
def CarefulAnswer (process : Process) (session : Nat) : Phase → Prop
  | .working => True
  | .drafting => config.sendMode = .sendAllowed →
    ∀ other account, process.accounts.lookup other = some account → other ≠ session →
      ∀ entry ∈ account.quota.counts.lookup config.username, entry.1 ≠ dayOf process.clock
  | .submitting day => dayOf process.clock = day

/-- Messages are counted by one session a day, and submitted on the day on which they were counted. -/
def CarefulSend (process : Process) : Step → Prop
  | .answer call => call.todo.length ≤ 1 → CarefulAnswer config process call.session call.phase
  | _ => True

/-- Calls that are admitted within a minute are of one session. -/
def CarefulCall (process : Process) : Step → Prop
  | .start session _ => ∀ other account, process.accounts.lookup other = some account →
    other ≠ session → ∀ hit ∈ account.limiter.hits, 60000 < process.clock - hit
  | _ => True

instance (config : Config) (process : Process) (session : Nat) :
    (phase : Phase) → Decidable (CarefulAnswer config process session phase)
  | .working => isTrue trivial
  | .drafting => inferInstanceAs (Decidable (config.sendMode = .sendAllowed →
      ∀ other account, process.accounts.lookup other = some account → other ≠ session →
        ∀ entry ∈ account.quota.counts.lookup config.username, entry.1 ≠ dayOf process.clock))
  | .submitting day => inferInstanceAs (Decidable (dayOf process.clock = day))

instance (config : Config) (process : Process) : (l : Step) → Decidable (CarefulSend config process l)
  | .answer call => inferInstanceAs (Decidable (call.todo.length ≤ 1 →
      CarefulAnswer config process call.session call.phase))
  | .wait _ => isTrue trivial
  | .openSession _ => isTrue trivial
  | .closeSession _ => isTrue trivial
  | .start .. => isTrue trivial
  | .fail _ => isTrue trivial

instance (process : Process) : (l : Step) → Decidable (CarefulCall process l)
  | .start session _ => inferInstanceAs (Decidable (∀ other account,
      process.accounts.lookup other = some account → other ≠ session →
        ∀ hit ∈ account.limiter.hits, 60000 < process.clock - hit))
  | .wait _ => isTrue trivial
  | .openSession _ => isTrue trivial
  | .closeSession _ => isTrue trivial
  | .answer _ => isTrue trivial
  | .fail _ => isTrue trivial

variable {config} {process process' : Process}

/-! ## Messages -/

/-- What a session has counted for the account, and on which day. -/
def Process.entryOf (process : Process) (username : String) (session : Nat) : Option (Nat × Nat) :=
  (process.accounts.lookup session).bind fun account => account.quota.counts.lookup username

/-- How many messages were counted on a day and not given up. -/
def Process.used (process : Process) (day : Nat) : Nat :=
  process.submitted day + process.calls.countP fun call => decide (call.phase = .submitting day)

structure SendInv (config : Config) (process : Process) : Prop where
  cap : ∀ session account, process.accounts.lookup session = some account →
    account.quota.dailyCap = config.sendDailyCap
  entry_le : ∀ session day count, process.entryOf config.username session = some (day, count) →
    day ≤ dayOf process.clock
  used_le : ∀ day, process.used day ≤ config.sendDailyCap
  later : ∀ day, dayOf process.clock < day → process.used day = 0
  today : ∀ session count, process.entryOf config.username session = some (dayOf process.clock, count) →
      process.used (dayOf process.clock) ≤ count
  fresh : (∀ session count,
    process.entryOf config.username session ≠ some (dayOf process.clock, count)) →
      process.used (dayOf process.clock) = 0

theorem SendInv.mono (h : SendInv config process)
    (hcap : ∀ session account, process'.accounts.lookup session = some account →
      account.quota.dailyCap = config.sendDailyCap)
    (hclock : process'.clock = process.clock)
    (hentry : ∀ session, process'.entryOf config.username session =
      process.entryOf config.username session)
    (hused : ∀ day, process'.used day ≤ process.used day) : SendInv config process' where
  cap := hcap
  entry_le session day count hcount := by
    rw [hclock]
    exact h.entry_le session day count (hentry session ▸ hcount)
  used_le day := (hused day).trans (h.used_le day)
  later day hday := Nat.le_zero.mp ((hused day).trans_eq (h.later day (hclock ▸ hday)))
  today session count hcount := by
    rw [hclock] at hcount ⊢
    exact (hused _).trans (h.today session count (hentry session ▸ hcount))
  fresh hnone := by
    rw [hclock] at hnone ⊢
    refine Nat.le_zero.mp ((hused _).trans_eq (h.fresh fun session count => ?_))
    exact hentry session ▸ hnone session count

theorem dayOf_le {now later : Nat} (h : now ≤ later) : dayOf now ≤ dayOf later :=
  Nat.div_le_div_right h

theorem sendInv_wait (h : SendInv config process) (milliseconds : Nat) :
    SendInv config { process with clock := process.clock + milliseconds } := by
  have hle : dayOf process.clock ≤ dayOf (process.clock + milliseconds) :=
    dayOf_le (Nat.le_add_right _ _)
  refine ⟨h.cap, fun session day count hcount => (h.entry_le session day count hcount).trans hle,
    h.used_le, fun day hday => h.later day (hle.trans_lt hday), fun session count hcount => ?_,
    fun hnone => ?_⟩
  · rcases hle.eq_or_lt with heq | hlt
    · rw [← heq] at hcount ⊢
      exact h.today session count hcount
    · exact absurd (h.entry_le session _ _ hcount) (Nat.not_le_of_lt hlt)
  · rcases hle.eq_or_lt with heq | hlt
    · rw [← heq] at hnone ⊢
      exact h.fresh hnone
    · exact h.later _ hlt

theorem entryOf_insert (process : Process) (username : String) (session : Nat) (account : Account)
    (other : Nat) :
    { process with accounts := process.accounts.insert session account }.entryOf username other =
      if other = session then account.quota.counts.lookup username
      else process.entryOf username other := by
  unfold Process.entryOf
  split
  · rename_i heq
    subst heq
    rw [AList.lookup_insert]
    rfl
  · rename_i hne
    rw [AList.lookup_insert_ne hne]

variable {call : Call} {session : Nat}

theorem used_erase (hcall : call ∈ process.calls) (day : Nat) :
    process.used day = { process with calls := process.calls.erase call }.used day +
      if call.phase = .submitting day then 1 else 0 := by
  have hperm := (perm_cons_erase hcall).countP_eq fun call =>
    decide (call.phase = .submitting day)
  rw [countP_cons] at hperm
  unfold Process.used
  simp only [decide_eq_true_eq] at hperm
  rw [hperm, ← Nat.add_assoc]
  rfl

theorem sendInv_openSession (h : SendInv config process)
    (hstep : openSession config process session = some process') : SendInv config process' := by
  unfold openSession at hstep
  split at hstep
  · cases hstep
  · rename_i hnew
    cases hstep
    refine h.mono (fun other account hother => ?_) rfl (fun other => ?_) fun _ => le_rfl
    · rcases Tables.of_insert hother with ⟨-, rfl⟩ | ⟨-, hold⟩
      · rfl
      · exact h.cap other account hold
    · rw [entryOf_insert]
      split
      · rename_i heq
        subst heq
        rw [Process.entryOf, not_isSome_iff_eq_none.mp hnew]
        rfl
      · rfl

theorem consume_limiter (limiter : RateLimiter) (now : Nat) :
    limiter.consume now = (decide ((limiter.recent now).length < limiter.perMinute),
      { limiter with hits :=
        if (limiter.recent now).length < limiter.perMinute then limiter.recent now ++ [now]
        else limiter.recent now }) := by
  unfold RateLimiter.consume
  split
  · rename_i hle
    simp [Nat.not_lt.mpr hle]
  · rename_i hlt
    simp [Nat.not_le.mp hlt]

theorem sendInv_start (h : SendInv config process) {tool : Tool}
    (hstep : start config process session tool = some process') : SendInv config process' := by
  unfold start at hstep
  split at hstep
  · cases hstep
  obtain ⟨account, haccount, rfl⟩ := map_eq_some_iff.mp hstep
  have hquota : ∀ limiter, SendInv config { process with
      accounts := process.accounts.insert session { account with limiter } } := by
    intro limiter
    refine h.mono (fun other account' hother => ?_) rfl (fun other => ?_) fun _ => le_rfl
    · rcases Tables.of_insert hother with ⟨-, rfl⟩ | ⟨-, hold⟩
      · exact h.cap session account haccount
      · exact h.cap other account' hold
    · rw [entryOf_insert]
      split
      · rename_i heq
        subst heq
        rw [Process.entryOf, haccount]
        rfl
      · rfl
  dsimp only
  split
  · refine (hquota _).mono (hquota _).cap rfl (fun _ => rfl) fun day => ?_
    refine Nat.add_le_add_left ?_ _
    dsimp only
    split
    · -- the new call has not been counted
      cases tool <;> simp [Tool.phase]
    · exact le_rfl
  · exact hquota _

theorem sendInv_fail (h : SendInv config process) (hstep : fail process call = some process') :
    SendInv config process' := by
  unfold fail at hstep
  split at hstep
  · rename_i hcall
    cases hstep
    refine h.mono h.cap rfl (fun _ => rfl) fun day => ?_
    rw [used_erase hcall day]
    exact Nat.le_add_right _ _
  · cases hstep

theorem consume_quota {quota quota' : SendQuota} {actor : String} {now : Nat}
    (hcap : 0 < quota.dailyCap) (h : quota.consume actor now = some quota') :
    quota.count actor now < quota.dailyCap ∧ quota'.dailyCap = quota.dailyCap ∧
      quota'.counts.lookup actor = some (dayOf now, quota.count actor now + 1) := by
  unfold SendQuota.consume at h
  rw [if_neg (Nat.ne_of_gt hcap)] at h
  split at h
  · cases h
  · rename_i hroom
    cases h
    exact ⟨Nat.lt_of_not_le hroom, rfl, AList.lookup_insert _⟩

variable (h : SendInv config process)
include h

theorem SendInv.used_le_count {account : Account}
    (haccount : process.accounts.lookup session = some account)
    (honly : ∀ other account, process.accounts.lookup other = some account → other ≠ session →
      ∀ entry ∈ account.quota.counts.lookup config.username, entry.1 ≠ dayOf process.clock) :
    process.used (dayOf process.clock) ≤ account.quota.count config.username process.clock := by
  have hsession : process.entryOf config.username session =
      account.quota.counts.lookup config.username := by
    rw [Process.entryOf, haccount]
    rfl
  by_cases htoday : ∃ count, account.quota.counts.lookup config.username =
      some (dayOf process.clock, count)
  · obtain ⟨count, hcount⟩ := htoday
    have hle := h.today session count (hsession.trans hcount)
    simpa [SendQuota.count, hcount] using hle
  · refine (Nat.le_of_eq (h.fresh fun other count hcount => ?_)).trans (Nat.zero_le _)
    by_cases heq : other = session
    · subst heq
      exact htoday ⟨count, hsession.symm.trans hcount⟩
    · obtain ⟨account', haccount', hlookup⟩ := bind_eq_some_iff.mp hcount
      exact honly other account' haccount' heq _ hlookup rfl

theorem sendInv_submit (hcap : 0 < config.sendDailyCap)
    (honly : ∀ other account, process.accounts.lookup other = some account → other ≠ session →
      ∀ entry ∈ account.quota.counts.lookup config.username, entry.1 ≠ dayOf process.clock) :
    SendInv config (submit config process session) := by
  unfold submit
  split
  · exact h
  rename_i account haccount
  split
  · exact h
  rename_i quota hquota
  have hdailyCap := h.cap session account haccount
  obtain ⟨hroom, hsame, hcounted⟩ := consume_quota (hdailyCap ▸ hcap) hquota
  have hle := h.used_le_count haccount honly
  have hentry := entryOf_insert process config.username session { account with quota }
  generalize haccounts : process.accounts.insert session { account with quota } = accounts at hentry ⊢
  have hused : ∀ day, { process with
      accounts
      calls := ⟨session, .submitting (dayOf process.clock), submitRequests⟩ :: process.calls }.used day =
      process.used day + if dayOf process.clock = day then 1 else 0 := by
    intro day
    unfold Process.used
    rw [countP_cons, ← Nat.add_assoc]
    simp [Process.submitted]
  refine ⟨fun other account' hother => ?_, fun other day count hcount => ?_, fun day => ?_,
    fun day hday => ?_, fun other count hcount => ?_, fun hnone => ?_⟩
  · rw [← haccounts] at hother
    rcases Tables.of_insert hother with ⟨-, rfl⟩ | ⟨-, hold⟩
    · exact hsame.trans hdailyCap
    · exact h.cap other account' hold
  · have hcount := (hentry other).symm.trans hcount
    split at hcount
    · rw [hcounted] at hcount
      cases hcount
      exact le_rfl
    · exact h.entry_le other day count hcount
  · rw [hused]
    split
    · rename_i heq
      subst heq
      omega
    · exact h.used_le day
  · rw [hused, if_neg (Nat.ne_of_lt hday)]
    exact h.later day hday
  · have hcount := (hentry other).symm.trans hcount
    rw [hused, if_pos rfl]
    split at hcount
    · rw [hcounted] at hcount
      cases hcount
      exact Nat.succ_le_succ hle
    · rename_i hne
      obtain ⟨account', haccount', hlookup⟩ := bind_eq_some_iff.mp hcount
      exact absurd rfl (honly other account' haccount' hne _ hlookup)
  · refine absurd ((hentry session).trans ?_)
      (hnone session (account.quota.count config.username process.clock + 1))
    rw [if_pos rfl]
    exact hcounted

theorem sendInv_answer (hcap : 0 < config.sendDailyCap)
    (hcareful : CarefulSend config process (.answer call))
    (hstep : answer config process call = some process') : SendInv config process' := by
  unfold answer at hstep
  split at hstep
  · rename_i hcall
    have herase : SendInv config { process with calls := process.calls.erase call } := by
      refine h.mono h.cap rfl (fun _ => rfl) fun day => ?_
      rw [used_erase hcall day]
      exact Nat.le_add_right _ _
    split at hstep
    · cases hstep
      refine h.mono h.cap rfl (fun _ => rfl) fun day => ?_
      rw [used_erase hcall day]
      unfold Process.used
      rw [countP_cons, ← Nat.add_assoc]
      simp [Process.submitted]
    · rename_i hlast
      have hlength : call.todo.length ≤ 1 := by
        match htodo : call.todo with
        | [] => exact Nat.zero_le _
        | [_] => exact le_rfl
        | first :: next :: rest => exact absurd htodo (hlast first next rest)
      have hcareful := hcareful hlength
      split at hstep
      · cases hstep
        exact herase
      · rename_i hphase
        rw [hphase] at hcareful
        split at hstep
        · cases hstep
          exact herase
        · rename_i hmode
          cases hstep
          refine sendInv_submit herase hcap (hcareful ?_)
          cases hsend : config.sendMode with
          | draftOnly => exact absurd hsend hmode
          | sendAllowed => rfl
      · rename_i day hphase
        rw [hphase] at hcareful
        cases hstep
        refine h.mono h.cap rfl (fun _ => rfl) fun other => ?_
        rw [used_erase hcall other, hphase]
        unfold Process.used Process.submitted
        have hday : dayOf process.clock = day := hcareful
        simp only [countP_append, countP_singleton, decide_eq_true_eq, hday, Phase.submitting.injEq]
        omega
  · cases hstep

omit h

theorem sendInv_step (hcap : 0 < config.sendDailyCap) {l : Step} (h : SendInv config process)
    (hcareful : CarefulSend config process l) (hstep : step config process l = some process') :
    SendInv config process' := by
  cases l with
  | wait milliseconds =>
    cases hstep
    exact sendInv_wait h milliseconds
  | openSession session => exact sendInv_openSession h hstep
  | closeSession session =>
    cases hstep
    exact h.mono h.cap rfl (fun _ => rfl) fun _ => le_rfl
  | start session tool => exact sendInv_start h hstep
  | answer call => exact sendInv_answer h hcap hcareful hstep
  | fail call => exact sendInv_fail h hstep

theorem sendInv_new (config : Config) : SendInv config newProcess :=
  ⟨fun _ _ h => (nomatch h), fun _ _ _ h => (nomatch h), fun _ => Nat.zero_le _, fun _ _ => rfl,
    fun _ _ h => (nomatch h), fun _ => rfl⟩

/-! ## Tool calls -/

def Process.hitsOf (process : Process) (session : Nat) : List Nat :=
  ((process.accounts.lookup session).map fun account => account.limiter.hits).getD []

structure CallInv (config : Config) (process : Process) : Prop where
  rate : ∀ session account, process.accounts.lookup session = some account →
    account.limiter.perMinute = config.toolRatePerMinute
  kept : ∀ session time, process.clock ≤ time + 60000 →
    (process.admissions.countP fun admission =>
      decide (admission.1 = session ∧ time ≤ admission.2)) ≤
        (process.hitsOf session).countP fun hit => decide (time ≤ hit)
  within : ∀ time, process.admitted time ≤ config.toolRatePerMinute

theorem CallInv.mono (h : CallInv config process)
    (hrate : ∀ session account, process'.accounts.lookup session = some account →
      account.limiter.perMinute = config.toolRatePerMinute)
    (hclock : process.clock ≤ process'.clock) (hadmissions : process'.admissions = process.admissions)
    (hhits : ∀ session time, process'.clock ≤ time + 60000 →
      (process.hitsOf session).countP (fun hit => decide (time ≤ hit)) ≤
        (process'.hitsOf session).countP fun hit => decide (time ≤ hit)) :
    CallInv config process' where
  rate := hrate
  kept session time htime := by
    rw [hadmissions]
    exact (h.kept session time (hclock.trans htime)).trans (hhits session time htime)
  within time := by
    rw [Process.admitted, hadmissions]
    exact h.within time

theorem hitsOf_insert (process : Process) (session : Nat) (account : Account) (other : Nat) :
    { process with accounts := process.accounts.insert session account }.hitsOf other =
      if other = session then account.limiter.hits else process.hitsOf other := by
  unfold Process.hitsOf
  split
  · rename_i heq
    subst heq
    rw [AList.lookup_insert]
    rfl
  · rename_i hne
    rw [AList.lookup_insert_ne hne]

theorem countP_recent (limiter : RateLimiter) {now time : Nat} (h : now ≤ time + 60000) :
    (limiter.recent now).countP (fun hit => decide (time ≤ hit)) =
      limiter.hits.countP fun hit => decide (time ≤ hit) := by
  unfold RateLimiter.recent
  induction limiter.hits with
  | nil => rfl
  | cons hit hits ih =>
    by_cases hold : 60000 < now - hit
    · rw [dropWhile_cons_of_pos (by simpa using hold), ih, countP_cons_of_neg]
      simp only [decide_eq_true_eq]
      omega
    · rw [dropWhile_cons_of_neg (by simpa using hold)]

theorem callInv_openSession (h : CallInv config process)
    (hstep : openSession config process session = some process') : CallInv config process' := by
  unfold openSession at hstep
  split at hstep
  · cases hstep
  · rename_i hnew
    cases hstep
    refine h.mono (fun other account hother => ?_) le_rfl rfl fun other time _ => ?_
    · rcases Tables.of_insert hother with ⟨-, rfl⟩ | ⟨-, hold⟩
      · rfl
      · exact h.rate other account hold
    · rw [hitsOf_insert]
      split
      · rename_i heq
        subst heq
        rw [Process.hitsOf, not_isSome_iff_eq_none.mp hnew]
        exact Nat.zero_le _
      · exact le_rfl

theorem admissions_of_careful (h : CallInv config process) {tool : Tool}
    (hcareful : CarefulCall process (.start session tool)) {admission : Nat × Nat}
    (hmem : admission ∈ process.admissions) (hrecent : process.clock ≤ admission.2 + 60000) :
    admission.1 = session := by
  by_contra hne
  have hcount := h.kept admission.1 admission.2 hrecent
  have hpos : 0 < process.admissions.countP fun other =>
      decide (other.1 = admission.1 ∧ admission.2 ≤ other.2) :=
    countP_pos_iff.mpr ⟨admission, hmem, by simp⟩
  obtain ⟨hit, hhit, hle⟩ := countP_pos_iff.mp (hpos.trans_le hcount)
  have hle : admission.2 ≤ hit := of_decide_eq_true hle
  unfold Process.hitsOf at hhit
  cases haccount : process.accounts.lookup admission.1 with
  | none =>
    rw [haccount] at hhit
    cases hhit
  | some account =>
    rw [haccount] at hhit
    have hfar := hcareful admission.1 account haccount hne hit hhit
    omega

theorem callInv_start (h : CallInv config process) {tool : Tool}
    (hcareful : CarefulCall process (.start session tool))
    (hstep : start config process session tool = some process') : CallInv config process' := by
  unfold start at hstep
  split at hstep
  · cases hstep
  obtain ⟨account, haccount, rfl⟩ := map_eq_some_iff.mp hstep
  have hhits : process.hitsOf session = account.limiter.hits := by
    rw [Process.hitsOf, haccount]
    rfl
  have hrate := h.rate session account haccount
  rw [consume_limiter]
  dsimp only
  by_cases hroom : (account.limiter.recent process.clock).length < account.limiter.perMinute
  · rw [if_pos hroom, if_pos (decide_eq_true hroom)]
    have hrates : ∀ other account', (process.accounts.insert session { account with limiter :=
        { account.limiter with hits := account.limiter.recent process.clock ++
          [process.clock] } }).lookup other = some account' →
        account'.limiter.perMinute = config.toolRatePerMinute := by
      intro other account' hother
      rcases Tables.of_insert hother with ⟨-, rfl⟩ | ⟨-, hold⟩
      · exact hrate
      · exact h.rate other account' hold
    refine ⟨hrates, fun other time htime => ?_, fun time => ?_⟩
    · have hnew := hitsOf_insert process session { account with limiter :=
        { account.limiter with hits := account.limiter.recent process.clock ++ [process.clock] } } other
      refine le_of_le_of_eq ?_ (congrArg (List.countP fun hit => decide (time ≤ hit)) hnew.symm)
      have hbefore := h.kept other time htime
      by_cases heq : other = session
      · subst heq
        rw [if_pos rfl, countP_append, countP_append, countP_recent _ htime, ← hhits]
        refine Nat.add_le_add hbefore ?_
        simp [countP_singleton]
      · rw [if_neg heq]
        simpa [Ne.symm heq] using hbefore
    · -- in a minute that holds this call, all before it are recent hits of the session
      rw [Process.admitted, countP_append, countP_singleton]
      split
      · rename_i hin
        obtain ⟨hfrom, hto⟩ := of_decide_eq_true hin
        have hcount : (process.admissions.countP fun admission =>
            decide (time ≤ admission.2 ∧ admission.2 ≤ time + 60000)) ≤
            (account.limiter.recent process.clock).length := by
          calc _ ≤ process.admissions.countP fun admission =>
                decide (admission.1 = session ∧ time ≤ admission.2) := by
                refine countP_mono_left fun admission hmem hwithin => ?_
                obtain ⟨hafter, -⟩ := of_decide_eq_true hwithin
                exact decide_eq_true ⟨admissions_of_careful h hcareful hmem
                  (hto.trans (Nat.add_le_add_right hafter _)), hafter⟩
            _ ≤ (process.hitsOf session).countP fun hit => decide (time ≤ hit) :=
                h.kept session time hto
            _ = (account.limiter.recent process.clock).countP fun hit => decide (time ≤ hit) := by
                rw [countP_recent _ hto, hhits]
            _ ≤ _ := countP_le_length
        rw [hrate] at hroom
        exact Nat.lt_of_le_of_lt hcount hroom
      · exact h.within time
  · rw [if_neg (by simpa using hroom)]
    refine h.mono (fun other account' hother => ?_) le_rfl rfl fun other time htime => ?_
    · rcases Tables.of_insert hother with ⟨-, rfl⟩ | ⟨-, hold⟩
      · exact hrate
      · exact h.rate other account' hold
    · rw [hitsOf_insert]
      split
      · rename_i heq
        subst heq
        rw [countP_recent _ htime, hhits]
      · exact le_rfl

theorem callInv_answer (h : CallInv config process)
    (hstep : answer config process call = some process') : CallInv config process' := by
  have hcalls : ∀ calls submissions, CallInv config { process with calls, submissions } :=
    fun _ _ => h.mono h.rate le_rfl rfl fun _ _ _ => le_rfl
  unfold answer at hstep
  split at hstep
  · dsimp only at hstep
    split at hstep
    · cases hstep
      exact hcalls _ _
    · split at hstep
      · cases hstep
        exact hcalls _ _
      · split at hstep
        · cases hstep
          exact hcalls _ _
        · cases hstep
          unfold submit
          split
          · exact hcalls _ _
          rename_i account haccount
          split
          · exact hcalls _ _
          rename_i quota hquota
          refine h.mono (fun other account' hother => ?_) le_rfl rfl fun other time _ => ?_
          · rcases Tables.of_insert hother with ⟨-, rfl⟩ | ⟨-, hold⟩
            · exact h.rate call.session account haccount
            · exact h.rate other account' hold
          · have hsame := hitsOf_insert process call.session { account with quota } other
            refine le_of_le_of_eq ?_ (congrArg (List.countP fun hit => decide (time ≤ hit)) hsame.symm)
            split
            · rename_i heq
              subst heq
              rw [Process.hitsOf, haccount]
              exact le_rfl
            · exact le_rfl
      · cases hstep
        exact hcalls _ _
  · cases hstep

theorem callInv_step {l : Step} (h : CallInv config process) (hcareful : CarefulCall process l)
    (hstep : step config process l = some process') : CallInv config process' := by
  cases l with
  | wait milliseconds =>
    cases hstep
    exact h.mono h.rate (Nat.le_add_right _ _) rfl fun _ _ _ => le_rfl
  | openSession session => exact callInv_openSession h hstep
  | closeSession session =>
    cases hstep
    exact h.mono h.rate le_rfl rfl fun _ _ _ => le_rfl
  | start session tool => exact callInv_start h hcareful hstep
  | answer call => exact callInv_answer h hstep
  | fail call =>
    unfold step fail at hstep
    dsimp only at hstep
    split at hstep
    · cases hstep
      exact h.mono h.rate le_rfl rfl fun _ _ _ => le_rfl
    · cases hstep

theorem callInv_new (config : Config) : CallInv config newProcess :=
  ⟨fun _ _ h => (nomatch h), fun _ _ _ => Nat.zero_le _, fun _ => Nat.zero_le _⟩

/-! ## The limits -/

/-- The daily cap holds when the messages of a day are counted by one session and are submitted on the
day on which they are counted, and the rate when the calls of a minute are of one session. -/
theorem limits_hold (hcap : 0 < config.sendDailyCap) {ls : List Step}
    (hrun : Runs.run (step config) newProcess ls = some process) :
    (Runs.Along (step config) (CarefulSend config) newProcess ls →
      ∀ day, process.submitted day ≤ config.sendDailyCap) ∧
    (Runs.Along (step config) CarefulCall newProcess ls →
      ∀ time, process.admitted time ≤ config.toolRatePerMinute) := by
  refine ⟨fun hcareful day => ?_, fun hcareful time => ?_⟩
  · have hinv : SendInv config process :=
      Runs.run_invariant (SendInv config) (fun _ _ _ h hl hstep => sendInv_step hcap h hl hstep)
        hcareful (sendInv_new config) hrun
    exact (Nat.le_add_right _ _).trans (hinv.used_le day)
  · have hinv : CallInv config process :=
      Runs.run_invariant (CallInv config) (fun _ _ _ h hl hstep => callInv_step h hl hstep)
        hcareful (callInv_new config) hrun
    exact hinv.within time

def oneADay : Config := ⟨1, 1, .sendAllowed, "ada@example.test", fun _ => true⟩

def sending (session : Nat) : List Step :=
  [.start session .sendEmail,
    .answer ⟨session, .drafting, ["Identity/get", "Mailbox/get", "upload", "Email/import"]⟩,
    .answer ⟨session, .drafting, ["Mailbox/get", "upload", "Email/import"]⟩,
    .answer ⟨session, .drafting, ["upload", "Email/import"]⟩,
    .answer ⟨session, .drafting, ["Email/import"]⟩,
    .answer ⟨session, .submitting 0, submitRequests⟩,
    .answer ⟨session, .submitting 0, ["Mailbox/get", "Mailbox/get", "EmailSubmission/set"]⟩,
    .answer ⟨session, .submitting 0, ["Mailbox/get", "EmailSubmission/set"]⟩,
    .answer ⟨session, .submitting 0, ["EmailSubmission/set"]⟩]

/-- A message, and another call when the minute is over. -/
def oneSession : List Step :=
  .openSession 1 :: (sending 1 ++ [Step.wait 60001, .start 1 (.other ["Mailbox/get"])])

theorem limits_hold_oneSession : ∃ process,
    Runs.run (step oneADay) newProcess oneSession = some process ∧
      process.submissions = [0] ∧ process.admissions = [(1, 0), (1, 60001)] ∧
      (∀ day, process.submitted day ≤ 1) ∧ ∀ time, process.admitted time ≤ 1 := by
  obtain ⟨process, hrun⟩ := isSome_iff_exists.mp
    (show (Runs.run (step oneADay) newProcess oneSession).isSome by decide)
  have hlists : ∀ process ∈ Runs.run (step oneADay) newProcess oneSession,
      process.submissions = [0] ∧ process.admissions = [(1, 0), (1, 60001)] := by
    decide
  have h := limits_hold (by decide) hrun
  exact ⟨process, hrun, (hlists process hrun).1, (hlists process hrun).2, h.1 (by decide),
    h.2 (by decide)⟩

/-- Two sessions of one account send a message each. -/
theorem sessions_exceed_limits : ∃ process,
    Runs.run (step oneADay) newProcess
      ([.openSession 1, .openSession 2] ++ sending 1 ++ sending 2) = some process ∧
      process.submitted 0 = 2 ∧ process.admitted 0 = 2 := by
  obtain ⟨process, hrun⟩ := isSome_iff_exists.mp
    (show (Runs.run (step oneADay) newProcess
      ([.openSession 1, .openSession 2] ++ sending 1 ++ sending 2)).isSome by decide)
  have htwo : ∀ process ∈ Runs.run (step oneADay) newProcess
      ([.openSession 1, .openSession 2] ++ sending 1 ++ sending 2),
      process.submitted 0 = 2 ∧ process.admitted 0 = 2 := by
    decide
  exact ⟨process, hrun, htwo process hrun⟩

end Bearmail.Mcp.Limits
