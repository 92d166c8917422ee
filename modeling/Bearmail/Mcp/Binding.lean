import Bearmail.Mcp.Http
import Bearmail.Lib.Runs

/-!
# Sessions and credentials

The handler does not compare the credentials of a request with those of the session that it names.
So who knows a session id works in the session, or closes it, with any credentials that are well
formed.

Where every session id is named only with the credentials that it was given out for, a request works
in a session of its own credentials. And then what is in the mailbox of a user makes no difference to
a client that does not present credentials of that user: the usual unwinding, where a step for the
user changes nothing that the client sees, and any other step does the same on both sides.
-/

namespace Bearmail.Mcp

open List Option Function

variable {User Mailbox Account Body Input Reply : Type}
variable {path : String} {backend : Backend User Mailbox Account Body Input Reply}

def Request.presented (path : String) (request : Request Body) : Option AuthProvider :=
  if request.pathname = path ∨ request.pathname = path ++ "/" then request.credentials else none

variable {request : Request Body} {auth : AuthProvider}
  {sessions : String → Option (Session Account)} {label label' : Label User Mailbox Body Input}

theorem credentials_of_presented (h : request.presented path = some auth) :
    request.credentials = some auth := by
  rw [Request.presented] at h
  split at h
  · exact h
  · cases h

/-- A request names a session id with the credentials that the id was given out for. -/
def Kept (path : String) (server : Server User Mailbox Account Body Reply) :
    Label User Mailbox Body Input → Prop
  | .request request =>
    ∀ auth, request.presented path = some auth →
      ∀ entry ∈ server.issued, request.sessionId = some entry.1 → auth = entry.2
  | _ => True

/-! ## Tables -/

section Tables

variable {α β : Type} [DecidableEq α] {f g : α → Option β} {x : α} {new : Option β}

theorem entries_update {p : α → β → Prop} (h : ∀ a b, f a = some b → p a b) (hnew : ∀ b, new = some b → p x b) :
    ∀ a b, Function.update f x new a = some b → p a b := by
  rintro a b hb
  by_cases hx : a = x
  · subst hx
    exact hnew b (by simpa using hb)
  · exact h a b (by simpa [hx] using hb)

theorem same_update {p : β → Prop} (h : ∀ a b, p b → (f a = some b ↔ g a = some b)) (x : α) (new : Option β) :
    ∀ a b, p b → (Function.update f x new a = some b ↔ Function.update g x new a = some b) := by
  rintro a b hb
  by_cases hx : a = x
  · subst hx
    simp
  · simpa [hx] using h a b hb

theorem same_update_self {p : β → Prop} (hold : ∀ b, f x = some b → ¬p b) (hnew : ∀ b, new = some b → ¬p b) :
    ∀ a b, p b → (f a = some b ↔ Function.update f x new a = some b) := by
  rintro a b hb
  by_cases hx : a = x
  · subst hx
    rw [update_self]
    exact ⟨fun h => absurd hb (hold b h), fun h => absurd hb (hnew b h)⟩
  · simp [hx]

end Tables

/-! ## The handler -/

section Handler

/-- What the handler does with a request that presents credentials at the endpoint. -/
def routed (backend : Backend User Mailbox Account Body Input Reply)
    (sessions : String → Option (Session Account)) (request : Request Body)
    (auth : AuthProvider) : Outcome Reply :=
  let known := request.sessionId.filter fun id => (sessions id).isSome
  match request.method with
  | .delete => known.elim (.respond .noContent) .close
  | .other => .respond .methodNotAllowed
  | .get => known.elim (.respond .missingSession) .execute
  | .post =>
    request.body.elim (.respond .internalError) fun body =>
      known.elim (if backend.isInitializeRequest body then .openSession auth
        else .respond .missingSession) .execute

/-- A request is answered from itself alone, or presents credentials and is looked up in the
table. -/
theorem handler_cases (path : String) (backend : Backend User Mailbox Account Body Input Reply)
    (request : Request Body) :
    (∃ response, ∀ sessions, handler path backend sessions request = .respond response) ∨
      ∃ auth, request.presented path = some auth ∧ ∀ sessions, handler path backend sessions request =
          routed backend sessions request auth := by
  by_cases hready : request.method = .get ∧ request.pathname = "/healthz/ready"
  · exact Or.inl ⟨.ready, fun sessions => by simp [handler, hready]⟩
  by_cases hdiscovery : request.method = .get ∧ request.pathname = "/.well-known/mcp.json"
  · exact Or.inl ⟨.discovery, fun sessions => by simp [handler, hdiscovery]⟩
  by_cases hpath : request.pathname ≠ path ∧ request.pathname ≠ path ++ "/"
  · exact Or.inl ⟨.notFound, fun sessions => by
      simp [handler, hready, hdiscovery, hpath]⟩
  have hendpoint : request.pathname = path ∨ request.pathname = path ++ "/" := by tauto
  cases hauthorization : request.authorization with
  | none =>
    simp [handler, hready, hdiscovery, hpath, hauthorization]
  | some authorization =>
    cases hauth : authFromHttpHeader authorization with
    | error error =>
      refine Or.inl ⟨.unauthorized error.message, fun sessions => ?_⟩
      rw [handler, if_neg hready, if_neg hdiscovery, if_neg hpath, hauthorization]
      simp [hauth]
    | ok auth =>
      refine Or.inr ⟨auth, ?_, fun sessions => ?_⟩
      · rw [Request.presented, if_pos hendpoint, Request.credentials, hauthorization]
        simp [hauth]
      · rw [handler, if_neg hready, if_neg hdiscovery, if_neg hpath, hauthorization]
        simp only [hauth, routed]
        cases request.sessionId.filter fun id => (sessions id).isSome <;>
          cases request.method <;> cases request.body <;> rfl

theorem routed_cases (backend : Backend User Mailbox Account Body Input Reply)
    (sessions : String → Option (Session Account)) (request : Request Body)
    (auth : AuthProvider) :
    (∃ response, routed backend sessions request auth = .respond response) ∨
      (∃ id, (request.sessionId.filter fun id => (sessions id).isSome) = some id ∧
        (routed backend sessions request auth = .execute id ∨
          routed backend sessions request auth = .close id)) ∨
      routed backend sessions request auth = .openSession auth := by
  rw [routed]
  cases request.sessionId.filter fun id => (sessions id).isSome with
  | none =>
    cases request.method <;> cases request.body <;> simp
    split <;> simp [*]
  | some id => cases request.method <;> cases request.body <;> simp

theorem handler_session {id : String} (h : handler path backend sessions request = .execute id ∨
      handler path backend sessions request = .close id) :
    request.sessionId = some id ∧ (sessions id).isSome ∧ ∃ auth, request.presented path = some auth := by
  rcases handler_cases path backend request with ⟨response, hresponse⟩ | ⟨auth, hauth, hrouted⟩
  · simp [hresponse] at h
  · rw [hrouted] at h
    rcases routed_cases backend sessions request auth with
      ⟨response, hresponse⟩ | ⟨known, hknown, hsession⟩ | hopen
    · simp [hresponse] at h
    · have hid : known = id := by
        rcases hsession with hsession | hsession <;> simpa [hsession] using h
      subst hid
      obtain ⟨hid, hlive⟩ := filter_eq_some_iff.mp hknown
      exact ⟨hid, hlive, auth, hauth⟩
    · simp [hopen] at h

theorem handler_openSession (h : handler path backend sessions request = .openSession auth) :
    request.presented path = some auth := by
  rcases handler_cases path backend request with ⟨response, hresponse⟩ | ⟨auth', hauth, hrouted⟩
  · simp [hresponse] at h
  · rw [hrouted] at h
    rcases routed_cases backend sessions request auth' with
      ⟨response, hresponse⟩ | ⟨known, -, hsession⟩ | hopen
    · simp [hresponse] at h
    · rcases hsession with hsession | hsession <;> simp [hsession] at h
    · rw [hopen] at h
      cases h
      exact hauth

/-- The handler reads the table where the request names a session, and not without credentials. -/
theorem handler_congr {sessions' : String → Option (Session Account)}
    (h : ∀ auth, request.presented path = some auth →
      ∀ id, request.sessionId = some id → sessions id = sessions' id) :
    handler path backend sessions request = handler path backend sessions' request := by
  rcases handler_cases path backend request with ⟨response, hresponse⟩ | ⟨auth, hauth, hrouted⟩
  · simp [hresponse]
  · rw [hrouted, hrouted, routed, routed]
    have hknown : (request.sessionId.filter fun id => (sessions id).isSome) =
        request.sessionId.filter fun id => (sessions' id).isSome := by
      cases hid : request.sessionId with
      | none => rfl
      | some id => rw [filter_some, filter_some, h auth hauth id hid]
    rw [hknown]

variable (path backend) in
/-- What a request can do: it is answered, it is taken on by a session or closes it, or it waits for
the mail server. -/
theorem handle_cases (server : Server User Mailbox Account Body Reply) (request : Request Body) :
    (∃ response, server.handle path backend request =
      { server with requests := server.requests + 1 }.write
        [⟨⟨server.requests, request.client⟩, response⟩]) ∨
    (∃ auth id session, request.presented path = some auth ∧ request.sessionId = some id ∧
      server.sessions id = some session ∧
      ((∃ body, server.handle path backend request =
          { server with requests := server.requests + 1 }.setSession id
            (some (session.handleRequest backend ⟨server.requests, request.client⟩ body))) ∨
        server.handle path backend request =
          ({ server with requests := server.requests + 1 }.setSession id none).write (session.ended ++
              [(⟨⟨server.requests, request.client⟩, .noContent⟩ : Output Reply)]))) ∨
    ∃ auth, request.presented path = some auth ∧ server.handle path backend request =
      { server with
        requests := server.requests + 1
        pending := Function.update server.pending server.requests
          (some ⟨auth, ⟨server.requests, request.client⟩, request.body⟩) } := by
  cases houtcome : handler path backend server.sessions request with
  | respond response =>
    refine Or.inl ⟨response, ?_⟩
    simp [Server.handle, houtcome]
  | execute id =>
    obtain ⟨hid, hlive, auth, hauth⟩ := handler_session (Or.inl houtcome)
    obtain ⟨session, hsession⟩ := isSome_iff_exists.mp hlive
    refine Or.inr (Or.inl ⟨auth, id, session, hauth, hid, hsession,
      Or.inl ⟨if request.method = .post then request.body else none, ?_⟩⟩)
    simp [Server.handle, houtcome, hsession]
  | close id =>
    obtain ⟨hid, hlive, auth, hauth⟩ := handler_session (Or.inr houtcome)
    obtain ⟨session, hsession⟩ := isSome_iff_exists.mp hlive
    refine Or.inr (Or.inl ⟨auth, id, session, hauth, hid, hsession, Or.inr ?_⟩)
    simp [Server.handle, houtcome, hsession]
  | openSession auth =>
    refine Or.inr (Or.inr ⟨auth, handler_openSession houtcome, ?_⟩)
    simp [Server.handle, houtcome]

variable {server next : Server User Mailbox Account Body Reply}

variable (backend server) in
theorem discovered_cases (number : Nat) (sessionId : String) (pending : Pending Body) :
    (∃ response, server.discovered backend number sessionId pending =
      { server with pending := Function.update server.pending number none }.write
        [⟨pending.stream, response⟩]) ∨
    ∃ account, server.discovered backend number sessionId pending =
      { { server with pending := Function.update server.pending number none }.setSession sessionId
          (some ((⟨pending.auth, account, []⟩ : Session Account).handleRequest backend
            pending.stream pending.body)) with
        issued := server.issued ++ [(sessionId, pending.auth)] } := by
  rw [Server.discovered]
  cases backend.user pending.auth with
  | none => exact Or.inl ⟨_, rfl⟩
  | some user =>
    dsimp only
    cases backend.discoverSession (server.mailboxes user) with
    | none => exact Or.inl ⟨_, rfl⟩
    | some account => exact Or.inr ⟨account, rfl⟩

variable [DecidableEq User]

theorem step_discovered {number : Nat} {sessionId : String}
    (hstep : server.step path backend (.discovered number sessionId) = some next) :
    (server.pending number = none ∧ next = server) ∨ ∃ pending, server.pending number = some pending ∧
        sessionId ∉ server.issued.map Prod.fst ∧
        next = server.discovered backend number sessionId pending := by
  cases hpending : server.pending number with
  | none =>
    simp only [Server.step, hpending, Option.some.injEq] at hstep
    exact Or.inl ⟨rfl, hstep.symm⟩
  | some pending =>
    simp only [Server.step, hpending] at hstep
    split at hstep
    · cases hstep
    · rename_i hfresh
      exact Or.inr ⟨pending, rfl, hfresh, (Option.some.inj hstep).symm⟩

theorem step_work {sessionId : String} {input : Input}
    (hstep : server.step path backend (.work sessionId input) = some next) :
    ((∀ session, server.sessions sessionId = some session → backend.user session.auth = none) ∧
        next = server) ∨
      ∃ session user, server.sessions sessionId = some session ∧ backend.user session.auth = some user ∧
        next = server.work backend sessionId session user input := by
  cases hsession : server.sessions sessionId with
  | none =>
    simp only [Server.step, hsession, Option.some.injEq] at hstep
    exact Or.inl ⟨fun session h => (nomatch h), hstep.symm⟩
  | some session =>
    cases huser : backend.user session.auth with
    | none =>
      simp only [Server.step, hsession, huser, Option.some.injEq] at hstep
      exact Or.inl ⟨fun other h => Option.some.inj h ▸ huser, hstep.symm⟩
    | some user =>
      simp only [Server.step, hsession, huser, Option.some.injEq] at hstep
      exact Or.inr ⟨session, user, rfl, huser, hstep.symm⟩

end Handler

/-! ## A session is used with its own credentials -/

section Inv

/-- The id of every session was given out for its credentials, and who waits has come before. -/
structure Inv (server : Server User Mailbox Account Body Reply) : Prop where
  issued : ∀ id session, server.sessions id = some session → (id, session.auth) ∈ server.issued
  numbered : ∀ number pending, server.pending number = some pending → number < server.requests

variable {server next : Server User Mailbox Account Body Reply}

theorem inv_new (mailboxes : User → Mailbox) :
    Inv (Server.new mailboxes : Server User Mailbox Account Body Reply) :=
  ⟨fun _ _ h => (nomatch h), fun _ _ h => (nomatch h)⟩

theorem inv_handle (h : Inv server) (request : Request Body) :
    Inv (server.handle path backend request) := by
  have hcount : ∀ number pending, server.pending number = some pending →
      number < server.requests + 1 := fun number pending hpending =>
    Nat.lt_succ_of_lt (h.numbered number pending hpending)
  rcases handle_cases path backend server request with
    ⟨response, heq⟩ | ⟨auth, id, session, -, -, hsession, ⟨body, heq⟩ | heq⟩ | ⟨auth, -, heq⟩ <;>
    rw [heq]
  · exact ⟨h.issued, hcount⟩
  · refine ⟨entries_update h.issued ?_, hcount⟩
    rintro new ⟨⟩
    exact h.issued id session hsession
  · refine ⟨entries_update h.issued ?_, hcount⟩
    rintro new ⟨⟩
  · exact ⟨h.issued, entries_update hcount fun _ _ => Nat.lt_succ_self _⟩

variable [DecidableEq User]

theorem inv_step (h : Inv server) (hstep : server.step path backend label = some next) :
    Inv next := by
  cases label with
  | request request =>
    cases hstep
    exact inv_handle h request
  | discovered number sessionId =>
    rcases step_discovered hstep with ⟨-, rfl⟩ | ⟨pending, -, -, rfl⟩
    · exact h
    have hnumbered := entries_update h.numbered
      (fun _ hnew => (nomatch hnew) : ∀ new, (none : Option (Pending Body)) = some new →
        number < server.requests)
    rcases discovered_cases backend server number sessionId pending with
      ⟨response, heq⟩ | ⟨account, heq⟩ <;> rw [heq]
    · exact ⟨h.issued, hnumbered⟩
    · refine ⟨entries_update (fun id session hsession =>
        mem_append_left _ (h.issued id session hsession)) ?_, hnumbered⟩
      rintro new ⟨⟩
      exact mem_append_right _ (mem_singleton_self _)
  | work sessionId input =>
    rcases step_work hstep with ⟨-, rfl⟩ | ⟨session, user, hsession, -, rfl⟩
    · exact h
    · refine ⟨entries_update h.issued ?_, h.numbered⟩
      rintro new ⟨⟩
      exact h.issued sessionId session hsession
  | deliver user change =>
    cases hstep
    exact ⟨h.issued, h.numbered⟩

omit [DecidableEq User] in
theorem credentials_own (h : Inv server)
    (hkept : Kept path server (.request request : Label User Mailbox Body Input))
    (hauth : request.presented path = some auth) {id : String} (hid : request.sessionId = some id)
    {session : Session Account} (hsession : server.sessions id = some session) :
    auth = session.auth :=
  hkept auth hauth (id, session.auth) (h.issued id session hsession) hid

end Inv

/-! ## What a client can see -/

section Alike

variable (backend) (user : User) (client : Nat)

/-- Two servers that differ in what belongs to a user, and not in what a client is sent. -/
structure Alike (s t : Server User Mailbox Account Body Reply) : Prop where
  sessions : ∀ id session, backend.user session.auth ≠ some user →
    (s.sessions id = some session ↔ t.sessions id = some session)
  pending : ∀ number pending, backend.user pending.auth ≠ some user →
    (s.pending number = some pending ↔ t.pending number = some pending)
  mailboxes : ∀ other, other ≠ user → s.mailboxes other = t.mailboxes other
  requests : s.requests = t.requests
  view : s.view client = t.view client

/-- What belongs to the user does not write to the client. -/
structure Hidden (s : Server User Mailbox Account Body Reply) : Prop where
  sessions : ∀ id session, s.sessions id = some session → backend.user session.auth = some user →
    ∀ stream ∈ session.streams, stream.client ≠ client
  pending : ∀ number pending, s.pending number = some pending →
    backend.user pending.auth = some user → pending.stream.client ≠ client

variable {backend user client} {s t u : Server User Mailbox Account Body Reply}

theorem Alike.refl (s : Server User Mailbox Account Body Reply) : Alike backend user client s s :=
  ⟨fun _ _ _ => Iff.rfl, fun _ _ _ => Iff.rfl, fun _ _ => rfl, rfl, rfl⟩

theorem Alike.symm (h : Alike backend user client s t) : Alike backend user client t s :=
  ⟨fun id session hsession => (h.sessions id session hsession).symm,
    fun number pending hpending => (h.pending number pending hpending).symm,
    fun other hother => (h.mailboxes other hother).symm, h.requests.symm, h.view.symm⟩

theorem Alike.trans (h : Alike backend user client s t) (h' : Alike backend user client t u) :
    Alike backend user client s u :=
  ⟨fun id session hsession => (h.sessions id session hsession).trans (h'.sessions id session hsession),
    fun number pending hpending =>
      (h.pending number pending hpending).trans (h'.pending number pending hpending),
    fun other hother => (h.mailboxes other hother).trans (h'.mailboxes other hother),
    h.requests.trans h'.requests, h.view.trans h'.view⟩

theorem view_write (outputs : List (Output Reply)) : (s.write outputs).view client = s.view client ++
      (outputs.filter fun output => output.stream.client == client).map
        fun output => (output.stream.number, output.response) := by
  simp [Server.view, Server.write]

/-! ### The same on both sides -/

variable (h : Alike backend user client s t)
include h

theorem Alike.count : Alike backend user client { s with requests := s.requests + 1 }
      { t with requests := t.requests + 1 } :=
  ⟨h.sessions, h.pending, h.mailboxes, congrArg (· + 1) h.requests, h.view⟩

theorem Alike.write (outputs : List (Output Reply)) :
    Alike backend user client (s.write outputs) (t.write outputs) :=
  ⟨h.sessions, h.pending, h.mailboxes, h.requests, by rw [view_write, view_write, h.view]⟩

theorem Alike.setSession (id : String) (session : Option (Session Account)) :
    Alike backend user client (s.setSession id session) (t.setSession id session) :=
  ⟨same_update h.sessions id session, h.pending, h.mailboxes, h.requests, h.view⟩

theorem Alike.setPending (number : Nat) (pending : Option (Pending Body)) :
    Alike backend user client { s with pending := Function.update s.pending number pending }
      { t with pending := Function.update t.pending number pending } :=
  ⟨h.sessions, same_update h.pending number pending, h.mailboxes, h.requests, h.view⟩

omit h

theorem Alike.setMailbox [DecidableEq User] (h : Alike backend user client s t) (other : User)
    (mailbox : Mailbox) :
    Alike backend user client { s with mailboxes := Function.update s.mailboxes other mailbox }
      { t with mailboxes := Function.update t.mailboxes other mailbox } := by
  refine ⟨h.sessions, h.pending, fun third hthird => ?_, h.requests, h.view⟩
  by_cases hother : third = other
  · subst hother
    simp
  · simpa [hother] using h.mailboxes third hthird

/-! ### What the client does not see -/

theorem alike_write {outputs : List (Output Reply)}
    (houtputs : ∀ output ∈ outputs, output.stream.client ≠ client) :
    Alike backend user client s (s.write outputs) := by
  refine ⟨fun _ _ _ => Iff.rfl, fun _ _ _ => Iff.rfl, fun _ _ => rfl, rfl, ?_⟩
  have hnone : (outputs.filter fun output => output.stream.client == client) = [] := by
    simpa [filter_eq_nil_iff] using houtputs
  simp [view_write, hnone, map_nil]

theorem alike_setSession {id : String} {session : Option (Session Account)}
    (hold : ∀ old, s.sessions id = some old → backend.user old.auth = some user)
    (hnew : ∀ new, session = some new → backend.user new.auth = some user) :
    Alike backend user client s (s.setSession id session) :=
  ⟨same_update_self (fun old h => not_not.mpr (hold old h)) fun new h => not_not.mpr (hnew new h),
    fun _ _ _ => Iff.rfl, fun _ _ => rfl, rfl, rfl⟩

theorem alike_setPending {number : Nat} {pending : Option (Pending Body)}
    (hold : ∀ old, s.pending number = some old → backend.user old.auth = some user)
    (hnew : ∀ new, pending = some new → backend.user new.auth = some user) :
    Alike backend user client s
      { s with pending := Function.update s.pending number pending } :=
  ⟨fun _ _ _ => Iff.rfl, same_update_self (fun old h => not_not.mpr (hold old h)) fun new h =>
    not_not.mpr (hnew new h), fun _ _ => rfl, rfl, rfl⟩

theorem alike_mailbox [DecidableEq User] (mailbox : Mailbox) : Alike backend user client s
      { s with mailboxes := Function.update s.mailboxes user mailbox } :=
  ⟨fun _ _ _ => Iff.rfl, fun _ _ _ => Iff.rfl, fun _ hother => (update_of_ne hother _ _).symm, rfl, rfl⟩

end Alike

/-! ## Steps for the user, and other steps -/

section Unwinding

variable (path backend) (user : User) (client : Nat)

def Stranger : Label User Mailbox Body Input → Prop
  | .request request => request.client = client →
    ∀ auth, request.presented path = some auth → backend.user auth ≠ some user
  | _ => True

def ForUser (s : Server User Mailbox Account Body Reply) : Label User Mailbox Body Input → Prop
  | .request request =>
    ∃ auth, request.presented path = some auth ∧ backend.user auth = some user
  | .discovered number _ =>
    ∀ pending, s.pending number = some pending → backend.user pending.auth = some user
  | .work sessionId _ =>
    ∀ session, s.sessions sessionId = some session → backend.user session.auth = some user
  | .deliver other _ => other = user

variable {path backend user client} {s t s' t' : Server User Mailbox Account Body Reply}

theorem hidden_new (mailboxes : User → Mailbox) : Hidden backend user client
      (Server.new mailboxes : Server User Mailbox Account Body Reply) :=
  ⟨fun _ _ h => (nomatch h), fun _ _ h => (nomatch h)⟩

theorem hidden_handle (hinv : Inv s) (h : Hidden backend user client s)
    (hkept : Kept path s (.request request : Label User Mailbox Body Input))
    (hstranger : Stranger path backend user client (.request request : Label User Mailbox Body Input)) :
    Hidden backend user client (s.handle path backend request) := by
  rcases handle_cases path backend s request with
    ⟨response, heq⟩ | ⟨auth, id, session, hauth, hid, hsession, ⟨body, heq⟩ | heq⟩ |
      ⟨auth, hauth, heq⟩ <;> rw [heq]
  · exact ⟨h.sessions, h.pending⟩
  · have hown : auth = session.auth := credentials_own hinv hkept hauth hid hsession
    refine ⟨entries_update h.sessions ?_, h.pending⟩
    rintro new ⟨⟩ huser stream hstream
    rcases mem_append.mp hstream with hstream | hstream
    · exact h.sessions id session hsession huser stream hstream
    · cases mem_singleton.mp hstream
      exact fun hclient => hstranger hclient auth hauth (hown ▸ huser)
  · refine ⟨entries_update h.sessions ?_, h.pending⟩
    rintro new ⟨⟩
  · refine ⟨h.sessions, entries_update h.pending ?_⟩
    rintro new ⟨⟩ huser hclient
    exact hstranger hclient auth hauth huser

variable [DecidableEq User]

theorem hidden_step (hinv : Inv s) (h : Hidden backend user client s) (hkept : Kept path s label)
    (hstranger : Stranger path backend user client label)
    (hstep : s.step path backend label = some s') : Hidden backend user client s' := by
  cases label with
  | request request =>
    cases hstep
    exact hidden_handle hinv h hkept hstranger
  | discovered number sessionId =>
    rcases step_discovered hstep with ⟨-, rfl⟩ | ⟨pending, hpending, -, rfl⟩
    · exact h
    have hnone : ∀ new, (none : Option (Pending Body)) = some new →
        backend.user new.auth = some user → new.stream.client ≠ client := by
      rintro new ⟨⟩
    rcases discovered_cases backend s number sessionId pending with
      ⟨response, heq⟩ | ⟨account, heq⟩ <;> rw [heq]
    · exact ⟨h.sessions, entries_update h.pending hnone⟩
    · refine ⟨entries_update h.sessions ?_, entries_update h.pending hnone⟩
      rintro new ⟨⟩ huser stream hstream
      cases mem_singleton.mp hstream
      exact h.pending number pending hpending huser
  | work sessionId input =>
    rcases step_work hstep with ⟨-, rfl⟩ | ⟨session, other, hsession, -, rfl⟩
    · exact h
    refine ⟨entries_update h.sessions ?_, h.pending⟩
    rintro new ⟨⟩
    exact h.sessions sessionId session hsession
  | deliver other change =>
    cases hstep
    exact ⟨h.sessions, h.pending⟩

omit [DecidableEq User] in
/-- A request with credentials of the user: it is answered to another client, or goes to a session of
the user. -/
theorem alike_handle_forUser (hinv : Inv s) (h : Hidden backend user client s)
    (hkept : Kept path s (.request request : Label User Mailbox Body Input))
    (hstranger : Stranger path backend user client (.request request : Label User Mailbox Body Input))
    (hfor : ForUser path backend user s (.request request : Label User Mailbox Body Input)) :
    Alike backend user client { s with requests := s.requests + 1 }
      (s.handle path backend request) := by
  obtain ⟨auth, hauth, huser⟩ := hfor
  have hclient : request.client ≠ client := fun hclient => hstranger hclient auth hauth huser
  rcases handle_cases path backend s request with
    ⟨response, heq⟩ | ⟨auth', id, session, hauth', hid, hsession, hcase⟩ | ⟨auth', hauth', heq⟩
  · rw [heq]
    refine alike_write ?_
    rintro output houtput
    cases mem_singleton.mp houtput
    exact hclient
  · cases hauth.symm.trans hauth'
    have hown : auth = session.auth := credentials_own hinv hkept hauth hid hsession
    have hold : ∀ old, s.sessions id = some old → backend.user old.auth = some user := by
      rintro old hold
      cases hsession.symm.trans hold
      exact hown ▸ huser
    have hnone : ∀ new, (none : Option (Session Account)) = some new →
        backend.user new.auth = some user := by
      rintro new ⟨⟩
    rcases hcase with ⟨body, heq⟩ | heq <;> rw [heq]
    · refine alike_setSession hold ?_
      rintro new ⟨⟩
      exact hold session hsession
    · refine Alike.trans (alike_setSession hold hnone) (alike_write ?_)
      rintro output houtput
      rcases mem_append.mp houtput with houtput | houtput
      · obtain ⟨stream, hstream, rfl⟩ := List.mem_map.mp houtput
        exact h.sessions id session hsession (hold session hsession) stream hstream
      · cases mem_singleton.mp houtput
        exact hclient
  · cases hauth.symm.trans hauth'
    rw [heq]
    -- nobody waits yet under the number of this request
    have hold : ∀ old, s.pending s.requests = some old → backend.user old.auth = some user :=
      fun old hold => absurd (hinv.numbered _ old hold) (Nat.lt_irrefl _)
    have hnew : ∀ new, some (⟨auth, ⟨s.requests, request.client⟩, request.body⟩ : Pending Body) =
        some new → backend.user new.auth = some user := by
      rintro new ⟨⟩
      exact huser
    have hset : Alike backend user client s _ := alike_setPending hold hnew
    exact ⟨hset.sessions, hset.pending, hset.mailboxes, rfl, hset.view⟩

def Server.counted (s : Server User Mailbox Account Body Reply) :
    Label User Mailbox Body Input → Server User Mailbox Account Body Reply
  | .request _ => { s with requests := s.requests + 1 }
  | _ => s

omit [DecidableEq User] in
theorem Alike.counted (h : Alike backend user client s t)
    (hsame : label' = label ∨ (∃ change, label = .deliver user change) ∧
      ∃ change, label' = .deliver user change) :
    Alike backend user client (s.counted label) (t.counted label') := by
  rcases hsame with rfl | ⟨⟨change, rfl⟩, change', rfl⟩
  · cases label' with
    | request request => exact h.count
    | discovered number sessionId | work sessionId input | deliver other change => exact h
  · exact h

theorem alike_forUser (hinv : Inv s) (h : Hidden backend user client s) (hkept : Kept path s label)
    (hstranger : Stranger path backend user client label) (hfor : ForUser path backend user s label)
    (hstep : s.step path backend label = some s') :
    Alike backend user client (s.counted label) s' := by
  cases label with
  | request request =>
    cases hstep
    exact alike_handle_forUser hinv h hkept hstranger hfor
  | discovered number sessionId =>
    rcases step_discovered hstep with ⟨-, rfl⟩ | ⟨pending, hpending, hfresh, rfl⟩
    · exact Alike.refl _
    have huser : backend.user pending.auth = some user := hfor pending hpending
    have hset : Alike backend user client s
        { s with pending := Function.update s.pending number none } :=
      alike_setPending hfor (fun new hnew => (nomatch hnew))
    rcases discovered_cases backend s number sessionId pending with
      ⟨response, heq⟩ | ⟨account, heq⟩ <;> rw [heq]
    · refine hset.trans (alike_write ?_)
      rintro output houtput
      cases mem_singleton.mp houtput
      exact h.pending number pending hpending huser
    · have hold : ∀ old, s.sessions sessionId = some old → backend.user old.auth = some user :=
        fun old hold => absurd (List.mem_map_of_mem (hinv.issued sessionId old hold)) hfresh
      have hnew : ∀ new, some ((⟨pending.auth, account, []⟩ : Session Account).handleRequest backend
          pending.stream pending.body) = some new → backend.user new.auth = some user := by
        rintro new ⟨⟩
        exact huser
      have hsession := hset.trans (alike_setSession hold hnew)
      exact ⟨hsession.sessions, hsession.pending, hsession.mailboxes, hsession.requests, hsession.view⟩
  | work sessionId input =>
    rcases step_work hstep with ⟨-, rfl⟩ | ⟨session, other, hsession, hother, rfl⟩
    · exact Alike.refl _
    have huser : backend.user session.auth = some user := hfor session hsession
    cases huser.symm.trans hother
    have hnew : ∀ new, some ({ session with
        account := (backend.work session.account (s.mailboxes user) input).1 } :
          Session Account) = some new → backend.user new.auth = some user := by
      rintro new ⟨⟩
      exact huser
    refine ((alike_setSession hfor hnew).trans (alike_write ?_)).trans (alike_mailbox _)
    rintro output houtput
    obtain ⟨reply, -, hreply⟩ := mem_filterMap.mp houtput
    obtain ⟨stream, hstream, rfl⟩ := map_eq_some_iff.mp hreply
    exact h.sessions sessionId session hsession huser stream (List.mem_of_find?_eq_some hstream)
  | deliver other change =>
    cases hstep
    cases hfor
    exact alike_mailbox _

omit [DecidableEq User] in
theorem forUser_of_alike (h : Alike backend user client s t) (hsame : label' = label ∨
      (∃ change, label = .deliver user change) ∧ ∃ change, label' = .deliver user change)
    (hfor : ForUser path backend user s label) : ForUser path backend user t label' := by
  rcases hsame with rfl | ⟨⟨change, rfl⟩, change', rfl⟩
  · cases label' with
    | request request => exact hfor
    | discovered number sessionId =>
      rintro pending hpending
      by_contra huser
      exact huser (hfor pending ((h.pending number pending huser).mpr hpending))
    | work sessionId input =>
      rintro session hsession
      by_contra huser
      exact huser (hfor session ((h.sessions sessionId session huser).mpr hsession))
    | deliver other change => exact hfor
  · rfl

omit [DecidableEq User] in
theorem named_session_eq (hinvs : Inv s) (hinvt : Inv t) (h : Alike backend user client s t)
    (hkepts : Kept path s (.request request : Label User Mailbox Body Input))
    (hkeptt : Kept path t (.request request : Label User Mailbox Body Input))
    (hauth : request.presented path = some auth) (huser : backend.user auth ≠ some user)
    {id : String} (hid : request.sessionId = some id) : s.sessions id = t.sessions id := by
  cases hs : s.sessions id with
  | some session =>
    have hown : auth = session.auth := credentials_own hinvs hkepts hauth hid hs
    exact ((h.sessions id session (hown ▸ huser)).mp hs).symm
  | none =>
    cases ht : t.sessions id with
    | none => rfl
    | some session =>
      have hown : auth = session.auth := credentials_own hinvt hkeptt hauth hid ht
      exact (nomatch hs.symm.trans ((h.sessions id session (hown ▸ huser)).mpr ht))

omit [DecidableEq User] in
theorem alike_handle_other (hinvs : Inv s) (hinvt : Inv t) (h : Alike backend user client s t)
    (hkepts : Kept path s (.request request : Label User Mailbox Body Input))
    (hkeptt : Kept path t (.request request : Label User Mailbox Body Input))
    (hother : ¬ ForUser path backend user s (.request request : Label User Mailbox Body Input)) :
    Alike backend user client (s.handle path backend request) (t.handle path backend request) := by
  have hnamed : ∀ auth, request.presented path = some auth →
      ∀ id, request.sessionId = some id → s.sessions id = t.sessions id :=
    fun auth hauth id hid => named_session_eq hinvs hinvt h hkepts hkeptt hauth
      (fun huser => hother ⟨auth, hauth, huser⟩) hid
  have hhandler : handler path backend s.sessions request =
      handler path backend t.sessions request := handler_congr hnamed
  have hstream : (⟨s.requests, request.client⟩ : Stream) = ⟨t.requests, request.client⟩ := by
    rw [h.requests]
  cases houtcome : handler path backend s.sessions request with
  | respond response =>
    simp only [Server.handle, ← hhandler, houtcome, hstream]
    exact h.count.write _
  | execute id =>
    obtain ⟨hid, hlive, auth, hauth⟩ := handler_session (Or.inl houtcome)
    obtain ⟨session, hsession⟩ := isSome_iff_exists.mp hlive
    simp only [Server.handle, ← hhandler, houtcome, hstream, ← hnamed auth hauth id hid, hsession]
    exact h.count.setSession _ _
  | close id =>
    obtain ⟨hid, hlive, auth, hauth⟩ := handler_session (Or.inr houtcome)
    obtain ⟨session, hsession⟩ := isSome_iff_exists.mp hlive
    simp only [Server.handle, ← hhandler, houtcome, hstream, ← hnamed auth hauth id hid, hsession]
    exact (h.count.setSession _ _).write _
  | openSession auth =>
    simp only [Server.handle, ← hhandler, houtcome, h.requests]
    have hset := h.setPending t.requests (some ⟨auth, ⟨t.requests, request.client⟩, request.body⟩)
    exact ⟨hset.sessions, hset.pending, hset.mailboxes, rfl, hset.view⟩

theorem alike_other (hinvs : Inv s) (hinvt : Inv t) (h : Alike backend user client s t)
    (hkepts : Kept path s label) (hkeptt : Kept path t label)
    (hother : ¬ ForUser path backend user s label) (hsteps : s.step path backend label = some s')
    (hstept : t.step path backend label = some t') : Alike backend user client s' t' := by
  cases label with
  | request request =>
    cases hsteps
    cases hstept
    exact alike_handle_other hinvs hinvt h hkepts hkeptt hother
  | discovered number sessionId =>
    obtain ⟨pending, hpendings, huser⟩ : ∃ pending, s.pending number = some pending ∧
        backend.user pending.auth ≠ some user := by
      simpa [ForUser] using hother
    have hpendingt : t.pending number = some pending := (h.pending number pending huser).mp hpendings
    rcases step_discovered hsteps with ⟨hnone, -⟩ | ⟨other, hother, -, rfl⟩
    · exact (nomatch hpendings.symm.trans hnone)
    cases hpendings.symm.trans hother
    rcases step_discovered hstept with ⟨hnone, -⟩ | ⟨other, hother, -, rfl⟩
    · exact (nomatch hpendingt.symm.trans hnone)
    cases hpendingt.symm.trans hother
    have hset := h.setPending number none
    rw [Server.discovered, Server.discovered]
    cases hwho : backend.user pending.auth with
    | none => exact hset.write _
    | some who =>
      have hmailbox : s.mailboxes who = t.mailboxes who :=
        h.mailboxes who fun heq => huser (heq ▸ hwho)
      dsimp only
      rw [hmailbox]
      cases backend.discoverSession (t.mailboxes who) with
      | none => exact hset.write _
      | some account =>
        have hsession := hset.setSession sessionId
          (some ((⟨pending.auth, account, []⟩ : Session Account).handleRequest backend
            pending.stream pending.body))
        exact ⟨hsession.sessions, hsession.pending, hsession.mailboxes, hsession.requests, hsession.view⟩
  | work sessionId input =>
    obtain ⟨session, hsessions, huser⟩ : ∃ session, s.sessions sessionId = some session ∧
        backend.user session.auth ≠ some user := by
      simpa [ForUser] using hother
    have hsessiont : t.sessions sessionId = some session :=
      (h.sessions sessionId session huser).mp hsessions
    cases hwho : backend.user session.auth with
    | none =>
      simp only [Server.step, hsessions, hwho, Option.some.injEq] at hsteps
      simp only [Server.step, hsessiont, hwho, Option.some.injEq] at hstept
      exact hsteps ▸ hstept ▸ h
    | some who =>
      have hne : who ≠ user := fun heq => huser (heq ▸ hwho)
      simp only [Server.step, hsessions, hwho, Option.some.injEq] at hsteps
      simp only [Server.step, hsessiont, hwho, Option.some.injEq] at hstept
      rw [← hsteps, ← hstept, Server.work, h.mailboxes who hne]
      exact ((h.setSession _ _).write _).setMailbox _ _
  | deliver other change =>
    cases hsteps
    cases hstept
    rw [h.mailboxes other hother]
    exact h.setMailbox _ _

end Unwinding

/-! ## Runs -/

section Runs

variable [DecidableEq User]

/-- Two labels that differ at most in what happens to the mailbox of a user. -/
def SameBut (user : User) (label label' : Label User Mailbox Body Input) : Prop :=
  label' = label ∨ (∃ change, label = .deliver user change) ∧ ∃ change, label' = .deliver user change

omit [DecidableEq User] in
theorem stranger_of_sameBut {user : User} {client : Nat} (hsame : SameBut user label label')
    (h : Stranger path backend user client label) : Stranger path backend user client label' := by
  rcases hsame with rfl | ⟨-, change, rfl⟩
  · exact h
  · trivial

omit [DecidableEq User] in
theorem strangers_of_sameBut {user : User} {client : Nat}
    {labels labels' : List (Label User Mailbox Body Input)}
    (hsame : List.Forall₂ (SameBut user) labels labels')
    (h : ∀ label ∈ labels, Stranger path backend user client label) :
    ∀ label ∈ labels', Stranger path backend user client label := by
  induction hsame with
  | nil => exact h
  | @cons label label' labels labels' hlabel _ ih =>
    rintro other hother
    rcases mem_cons.mp hother with rfl | hother
    · exact stranger_of_sameBut hlabel (h label mem_cons_self)
    · exact ih (fun l hl => h l (mem_cons_of_mem _ hl)) other hother

structure Paired (backend : Backend User Mailbox Account Body Input Reply) (user : User)
    (client : Nat) (s t : Server User Mailbox Account Body Reply) : Prop where
  invLeft : Inv s
  invRight : Inv t
  hiddenLeft : Hidden backend user client s
  hiddenRight : Hidden backend user client t
  alike : Alike backend user client s t

variable {user : User} {client : Nat} {s t s' t' : Server User Mailbox Account Body Reply}

theorem paired_step (h : Paired backend user client s t) (hsame : SameBut user label label')
    (hstranger : Stranger path backend user client label) (hkepts : Kept path s label)
    (hkeptt : Kept path t label') (hsteps : s.step path backend label = some s')
    (hstept : t.step path backend label' = some t') : Paired backend user client s' t' := by
  have hstranger' := stranger_of_sameBut hsame hstranger
  refine ⟨inv_step h.invLeft hsteps, inv_step h.invRight hstept,
    hidden_step h.invLeft h.hiddenLeft hkepts hstranger hsteps,
    hidden_step h.invRight h.hiddenRight hkeptt hstranger' hstept, ?_⟩
  by_cases hfor : ForUser path backend user s label
  · have hfor' : ForUser path backend user t label' := forUser_of_alike h.alike hsame hfor
    have hleft := alike_forUser h.invLeft h.hiddenLeft hkepts hstranger hfor hsteps
    have hright := alike_forUser h.invRight h.hiddenRight hkeptt hstranger' hfor' hstept
    exact (hleft.symm.trans (h.alike.counted hsame)).trans hright
  · rcases hsame with rfl | ⟨⟨change, rfl⟩, -⟩
    · exact alike_other h.invLeft h.invRight h.alike hkepts hkeptt hfor hsteps hstept
    · exact absurd rfl hfor

variable (path backend)

/-- In every run where a session id is named with the credentials that it was given out for, a
request works in a session, or closes it, with the credentials of the session; and what is in the
mailbox of a user makes no difference to a client that does not present credentials of the user. -/
theorem sessions_bound (mailboxes : User → Mailbox) (labels : List (Label User Mailbox Body Input))
    (server : Server User Mailbox Account Body Reply)
    (hkept : Runs.Along (Server.step path backend) (Kept path) (Server.new mailboxes) labels)
    (hrun : Runs.run (Server.step path backend) (Server.new mailboxes) labels = some server) :
    (∀ request : Request Body, Kept path server (.request request : Label User Mailbox Body Input) →
      ∀ id, handler path backend server.sessions request = .execute id ∨
          handler path backend server.sessions request = .close id →
        ∃ session, server.sessions id = some session ∧
          request.credentials = some session.auth) ∧
    ∀ (user : User) (client : Nat) (mailboxes' : User → Mailbox)
      (labels' : List (Label User Mailbox Body Input))
      (server' : Server User Mailbox Account Body Reply),
      (∀ other, other ≠ user → mailboxes' other = mailboxes other) →
      List.Forall₂ (SameBut user) labels labels' →
      (∀ label ∈ labels, Stranger path backend user client label) →
      Runs.Along (Server.step path backend) (Kept path) (Server.new mailboxes') labels' →
      Runs.run (Server.step path backend) (Server.new mailboxes') labels' = some server' →
      server'.view client = server.view client := by
  refine ⟨?_, ?_⟩
  · have hinv : Inv server := Runs.run_invariant Inv (fun _ _ _ h _ hstep => inv_step h hstep) hkept
      (inv_new mailboxes) hrun
    rintro request hrequest id houtcome
    obtain ⟨hid, hlive, auth, hauth⟩ := handler_session houtcome
    obtain ⟨session, hsession⟩ := isSome_iff_exists.mp hlive
    have hown : auth = session.auth := credentials_own hinv hrequest hauth hid hsession
    exact ⟨session, hsession, hown ▸ credentials_of_presented hauth⟩
  · rintro user client mailboxes' labels' server' hmailboxes hsame hstranger hkept' hrun'
    have hstart : Paired backend user client (Server.new mailboxes) (Server.new mailboxes') :=
      ⟨inv_new _, inv_new _, hidden_new _, hidden_new _,
        ⟨fun _ _ _ => Iff.rfl, fun _ _ _ => Iff.rfl, fun other hother =>
          (hmailboxes other hother).symm, rfl, rfl⟩⟩
    have hleft := hkept.and (Runs.along_of_forall hstranger _)
    have hright := hkept'.and (Runs.along_of_forall (strangers_of_sameBut hsame hstranger) _)
    have hend : Paired backend user client server server' := by
      refine Runs.run_related (Paired backend user client) ?_ hsame hleft hright hstart hrun hrun'
      rintro s t label label' s' t' h hlabel hs ht hsteps hstept
      exact paired_step h hlabel hs.2 hs.1 ht.1 hsteps hstept
    exact hend.alike.view.symm

end Runs

/-! ## Examples -/

/-- Users 0 and 1 with a mailbox that is a number. The tool call of a session replies with what is in
its mailbox. -/
def readers : Backend Nat Nat (Option Nat) Bool Unit Nat where
  isInitializeRequest := id
  user := fun auth =>
    if auth.header = basicPrefix ++ ['a'] then some 0
    else if auth.header = basicPrefix ++ ['b'] then some 1
    else none
  discoverSession := fun _ => some none
  handleRequest := fun _ number _ => some number
  work := fun account mailbox _ => (none, mailbox, account.toList.map fun number => (number, mailbox))

def post (client : Nat) (password : Char) (sessionId : Option String) (body : Bool) :
    Label Nat Nat Bool Unit :=
  .request ⟨client, .post, "/mcp", some (basicPrefix ++ [password]), sessionId, some body⟩

/-- Client 0 opens a session as user 0; a client then calls a tool there. -/
def toolCall (client : Nat) (password : Char) : List (Label Nat Nat Bool Unit) :=
  [post 0 'a' none true, .discovered 0 "s", .work "s" (), post client password (some "s") false,
    .work "s" ()]

/-- Both clients open a session, and client 1 calls a tool in its own. -/
def ownCalls : List (Label Nat Nat Bool Unit) :=
  [post 0 'a' none true, .discovered 0 "s", post 1 'b' none true, .discovered 1 "t",
    post 1 'b' (some "t") false, .work "t" ()]

theorem kept_own {server : Server Nat Nat (Option Nat) Bool Nat} {request : Request Bool}
    (hissued : server.issued = [("s", ⟨basicPrefix ++ ['a']⟩), ("t", ⟨basicPrefix ++ ['b']⟩)])
    (hauthorization : request.authorization = some (basicPrefix ++ ['b']))
    (hid : request.sessionId = some "t") :
    Kept "/mcp" server (.request request : Label Nat Nat Bool Unit) := by
  rintro auth hauth entry hentry hname
  have hcredentials := credentials_of_presented hauth
  rw [Request.credentials, hauthorization] at hcredentials
  cases hcredentials
  rw [hid] at hname
  rw [hissued] at hentry
  revert entry
  decide

theorem kept_ownCalls (mailboxes : Nat → Nat) :
    Runs.Along (Server.step "/mcp" readers) (Kept "/mcp") (Server.new mailboxes) ownCalls := by
  refine ⟨fun _ _ _ hentry => (nomatch hentry), fun _ hnext => ?_⟩
  cases hnext
  refine ⟨trivial, fun _ hnext => ?_⟩
  cases hnext
  refine ⟨fun _ _ _ _ hid => (nomatch hid), fun _ hnext => ?_⟩
  cases hnext
  refine ⟨trivial, fun _ hnext => ?_⟩
  cases hnext
  refine ⟨kept_own rfl rfl rfl, fun _ hnext => ?_⟩
  exact ⟨trivial, fun _ _ => trivial⟩

theorem stranger_ownCalls : ∀ label ∈ ownCalls, Stranger "/mcp" readers 0 1 label := by
  simp only [ownCalls, forall_mem_cons]
  refine ⟨fun hclient => (nomatch hclient), trivial, ?_, trivial, ?_, trivial,
    fun _ hlabel => (nomatch hlabel)⟩ <;>
  · rintro - auth hauth
    cases hauth
    decide

theorem sessions_bound_ownCalls :
    ∃ server server', Runs.run (Server.step "/mcp" readers) (Server.new fun _ => 5) ownCalls =
        some server ∧
      Runs.run (Server.step "/mcp" readers) (Server.new (Function.update (fun _ => 5) 0 8))
        ownCalls = some server' ∧
      (∃ session, server.sessions "t" = some session ∧
        (some ⟨basicPrefix ++ ['b']⟩ : Option AuthProvider) = some session.auth) ∧
      server.view 1 = [(2, .reply 5)] ∧ server'.view 1 = server.view 1 := by
  have hbound := sessions_bound "/mcp" readers (fun _ => 5) ownCalls _ (kept_ownCalls _) rfl
  refine ⟨_, _, rfl, rfl, ?_, by decide, ?_⟩
  · exact hbound.1 ⟨1, .delete, "/mcp", some (basicPrefix ++ ['b']), some "t", none⟩
      (kept_own rfl rfl rfl) "t" (Or.inr rfl)
  · refine hbound.2 0 1 _ ownCalls _ ?_ ?_ stranger_ownCalls (kept_ownCalls _) rfl
    · rintro other hother
      exact update_of_ne hother _ _
    · exact forall₂_same.mpr fun _ _ => Or.inl rfl

/-- What client 1 gets to see, for what is in the mailbox of user 0. -/
def seen (labels : List (Label Nat Nat Bool Unit)) (mailbox : Nat) :
    Option (List (Nat × Response Nat)) :=
  (Runs.run (Server.step "/mcp" readers)
    (Server.new fun user => if user = 0 then mailbox else 5) labels).map (Server.view 1)

/-- Client 1 presents credentials of user 1, and reads the mailbox of user 0. It can also close the
session. -/
theorem sessions_not_bound :
    (∃ server session, Runs.run (Server.step "/mcp" readers) (Server.new fun _ => 5)
        [post 0 'a' none true, .discovered 0 "s"] = some server ∧
      server.sessions "s" = some session ∧
      ∀ method, method = .post ∨ method = .delete →
        let request : Request Bool :=
          ⟨1, method, "/mcp", some (basicPrefix ++ ['b']), some "s", some false⟩
        request.credentials ≠ some session.auth ∧
          (handler "/mcp" readers server.sessions request = .execute "s" ∨
            handler "/mcp" readers server.sessions request = .close "s")) ∧
    seen (toolCall 1 'b') 7 = some [(1, .reply 7)] ∧
    seen (toolCall 1 'b') 8 = some [(1, .reply 8)] := by
  refine ⟨⟨_, _, rfl, rfl, ?_⟩, by decide, by decide⟩
  rintro method (rfl | rfl)
  · exact ⟨by decide, Or.inl rfl⟩
  · exact ⟨by decide, Or.inr rfl⟩

end Bearmail.Mcp
