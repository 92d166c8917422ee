import Mathlib.Logic.Function.Basic

/-!
# The HTTP server for agents

The handler of `startHttpServer`: a request that names a session of the table goes to the transport
of that session, an initialize request without one opens a session, and a DELETE closes one. The
credentials of a session are those of the request that opened it; from then on the session talks to
the mail server with them.

The transport, the tools and the mail server are parameters. A session sees the mailbox of the user
whom its credentials belong to. Opening a session waits for the mail server, so other requests come
in between; and a session works on its messages step by step, with other sessions in between.
-/

namespace Bearmail.Mcp

abbrev Text := List Char

/-! ## Credentials -/

structure ToolError where
  message : Text
  code : Text
deriving DecidableEq

/-- An `AuthProvider`, as the header that it gives to the mail server. -/
structure AuthProvider where
  header : Text
deriving DecidableEq

def toLowerCase (text : Text) : Text := text.map Char.toLower

/-- What `trim` takes away: white space and line terminators. -/
def isWhiteSpace (c : Char) : Bool :=
  c ∈ ['\t', '\n', '\x0b', '\x0c', '\r', ' ', '\u00a0', '\u1680', '\u2028', '\u2029', '\u202f',
      '\u205f', '\u3000', '\ufeff'] ||
    (0x2000 ≤ c.toNat && c.toNat ≤ 0x200a)

def trim (text : Text) : Text :=
  ((text.dropWhile isWhiteSpace).reverse.dropWhile isWhiteSpace).reverse

def isAppPassword (secret : Text) : Bool := ['a', 'p', 'p', '_'].isPrefixOf secret

def basicPrefix : Text := ['b', 'a', 's', 'i', 'c', ' ']

def bearerPrefix : Text := ['b', 'e', 'a', 'r', 'e', 'r', ' ']

def authenticationFailed (message : String) : ToolError :=
  ⟨message.toList, "authenticationFailed".toList⟩

def authFromHttpHeader (authorization : Text) : Except ToolError AuthProvider :=
  if basicPrefix.isPrefixOf (toLowerCase authorization) then .ok ⟨authorization⟩
  else if bearerPrefix.isPrefixOf (toLowerCase authorization) then
    let token := trim (authorization.drop 7)
    if isAppPassword token then
      .error (authenticationFailed "Authorization Bearer must be a Stalwart API key (starts with API_). App passwords (app_…) are not Bearer tokens.")
    else .ok ⟨['B', 'e', 'a', 'r', 'e', 'r', ' '] ++ token⟩
  else .error (authenticationFailed "Authorization must be Bearer or Basic.")

/-! ## Requests -/

inductive Method where
  | get
  | post
  | delete
  | other
deriving DecidableEq

section Requests

variable (Body : Type)

structure Request where
  /-- who sends it; the server does not see this -/
  client : Nat
  method : Method
  pathname : String
  authorization : Option Text
  /-- the `mcp-session-id` header -/
  sessionId : Option String
  /-- none for a body that is too large or no JSON -/
  body : Option Body

end Requests

def Request.credentials {Body : Type} (request : Request Body) : Option AuthProvider :=
  match request.authorization.map authFromHttpHeader with
  | some (.ok auth) => some auth
  | _ => none

inductive Response (Reply : Type) where
  | ready
  | discovery
  | notFound
  | unauthorized (message : Text)
  | noContent
  | methodNotAllowed
  | missingSession
  | internalError
  /-- what a session writes to an open response -/
  | reply (reply : Reply)
  /-- an open response ends with its session -/
  | ended
deriving DecidableEq

inductive Outcome (Reply : Type) where
  | respond (response : Response Reply)
  /-- the request goes to the transport of a session -/
  | execute (sessionId : String)
  | close (sessionId : String)
  | openSession (auth : AuthProvider)

/-! ## The server -/

section Server

variable (User Mailbox Account Body Input Reply : Type)

/-- The transport and the tools, and the mail server. An account is all that belongs to one session;
it takes on the messages that come to it, and works on them with its mailbox. -/
structure Backend where
  isInitializeRequest : Body → Bool
  /-- who has these credentials; none when the mail server rejects them -/
  user : AuthProvider → Option User
  /-- `discoverSession` and `createMcpServer` -/
  discoverSession : Mailbox → Option Account
  /-- `handleRequest`, of the request with this number -/
  handleRequest : Account → Nat → Option Body → Account
  /-- one step of the work, and what is written to the responses of which requests -/
  work : Account → Mailbox → Input → Account × Mailbox × List (Nat × Reply)

structure Stream where
  number : Nat
  client : Nat
deriving DecidableEq

structure Session where
  auth : AuthProvider
  account : Account
  streams : List Stream

/-- A request that waits for `discoverSession`. -/
structure Pending where
  auth : AuthProvider
  stream : Stream
  body : Option Body

structure Output where
  stream : Stream
  response : Response Reply

structure Server where
  sessions : String → Option (Session Account)
  pending : Nat → Option (Pending Body)
  mailboxes : User → Mailbox
  /-- how many requests there were -/
  requests : Nat
  /-- the session ids so far, and for which credentials they were given out -/
  issued : List (String × AuthProvider)
  outputs : List (Output Reply)

inductive Label where
  | request (request : Request Body)
  /-- the mail server answers to `discoverSession`, and `randomUUID` is drawn -/
  | discovered (number : Nat) (sessionId : String)
  | work (sessionId : String) (input : Input)
  /-- anything else that happens to a mailbox -/
  | deliver (user : User) (change : Mailbox → Mailbox)

end Server

section Handler

variable {User Mailbox Account Body Input Reply : Type} [DecidableEq User]
variable (path : String) (backend : Backend User Mailbox Account Body Input Reply)

def handler (sessions : String → Option (Session Account)) (request : Request Body) :
    Outcome Reply :=
  if request.method = .get ∧ request.pathname = "/healthz/ready" then .respond .ready
  else if request.method = .get ∧ request.pathname = "/.well-known/mcp.json" then
    .respond .discovery
  else if request.pathname ≠ path ∧ request.pathname ≠ path ++ "/" then .respond .notFound
  else
    match request.authorization with
    | none => .respond (.unauthorized "Authorization required.".toList)
    | some authorization =>
      match authFromHttpHeader authorization with
      | .error error => .respond (.unauthorized error.message)
      | .ok auth =>
        let known := request.sessionId.filter fun id => (sessions id).isSome
        match request.method with
        | .delete =>
          match known with
          | some id => .close id
          | none => .respond .noContent
        | .other => .respond .methodNotAllowed
        | .get =>
          match known with
          | some id => .execute id
          | none => .respond .missingSession
        | .post =>
          match request.body with
          | none => .respond .internalError
          | some body =>
            match known with
            | some id => .execute id
            | none =>
              if backend.isInitializeRequest body then .openSession auth
              else .respond .missingSession

variable (server : Server User Mailbox Account Body Reply)

def Session.handleRequest (session : Session Account) (stream : Stream) (body : Option Body) :
    Session Account :=
  { session with
    account := backend.handleRequest session.account stream.number body
    streams := session.streams ++ [stream] }

def Session.written (session : Session Account) (replies : List (Nat × Reply)) :
    List (Output Reply) :=
  replies.filterMap fun reply =>
    (session.streams.find? fun stream => stream.number == reply.1).map
      fun stream => ⟨stream, .reply reply.2⟩

def Session.ended (session : Session Account) : List (Output Reply) :=
  session.streams.map fun stream => ⟨stream, .ended⟩

def Server.setSession (id : String) (session : Option (Session Account)) :
    Server User Mailbox Account Body Reply :=
  { server with sessions := Function.update server.sessions id session }

def Server.write (outputs : List (Output Reply)) : Server User Mailbox Account Body Reply :=
  { server with outputs := server.outputs ++ outputs }

def Server.handle (request : Request Body) : Server User Mailbox Account Body Reply :=
  let stream : Stream := ⟨server.requests, request.client⟩
  let next := { server with requests := server.requests + 1 }
  match handler path backend server.sessions request with
  | .respond response => next.write [⟨stream, response⟩]
  | .execute id =>
    match server.sessions id with
    | none => next
    | some session =>
      -- a GET has no body
      next.setSession id (some (session.handleRequest backend stream
        (if request.method = .post then request.body else none)))
  | .close id =>
    match server.sessions id with
    | none => next
    | some session =>
      (next.setSession id none).write (session.ended ++ [⟨stream, .noContent⟩])
  | .openSession auth =>
    { next with
      pending := Function.update server.pending stream.number (some ⟨auth, stream, request.body⟩) }

def Server.discovered (number : Nat) (sessionId : String) (pending : Pending Body) :
    Server User Mailbox Account Body Reply :=
  let next := { server with pending := Function.update server.pending number none }
  match backend.user pending.auth with
  | none =>
    next.write [⟨pending.stream, .unauthorized "The server rejected those credentials.".toList⟩]
  | some user =>
    match backend.discoverSession (server.mailboxes user) with
    | none => next.write [⟨pending.stream, .internalError⟩]
    | some account =>
      let session : Session Account := ⟨pending.auth, account, []⟩
      { next.setSession sessionId (some (session.handleRequest backend pending.stream pending.body))
        with issued := server.issued ++ [(sessionId, pending.auth)] }

def Server.work (sessionId : String) (session : Session Account) (user : User) (input : Input) :
    Server User Mailbox Account Body Reply :=
  let result := backend.work session.account (server.mailboxes user) input
  let next := server.setSession sessionId (some { session with account := result.1 })
  { next.write (session.written result.2.2) with
    mailboxes := Function.update server.mailboxes user result.2.1 }

def Server.step : Label User Mailbox Body Input → Option (Server User Mailbox Account Body Reply)
  | .request request => some (server.handle path backend request)
  | .discovered number sessionId =>
    match server.pending number with
    | none => some server
    | some pending =>
      -- a drawn id is a new one
      if sessionId ∈ server.issued.map Prod.fst then none
      else some (server.discovered backend number sessionId pending)
  | .work sessionId input =>
    match server.sessions sessionId with
    | none => some server
    | some session =>
      match backend.user session.auth with
      | none => some server
      | some user => some (server.work backend sessionId session user input)
  | .deliver user change =>
    some { server with
      mailboxes := Function.update server.mailboxes user (change (server.mailboxes user)) }

end Handler

def Server.new {User Mailbox Account Body Reply : Type} (mailboxes : User → Mailbox) :
    Server User Mailbox Account Body Reply :=
  ⟨fun _ => none, fun _ => none, mailboxes, 0, [], []⟩

def Server.view {User Mailbox Account Body Reply : Type} (client : Nat)
    (server : Server User Mailbox Account Body Reply) : List (Nat × Response Reply) :=
  (server.outputs.filter fun output => output.stream.client == client).map
    fun output => (output.stream.number, output.response)

end Bearmail.Mcp
