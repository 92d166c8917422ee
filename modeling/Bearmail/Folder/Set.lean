import Bearmail.Folder.Store
import Bearmail.Imap.Token
import Bearmail.Lib.Fallible

/-!
# Mailbox/set

`mailbox_set` and `mailbox_set_item` of `jmap/src/mailbox/set.rs`, with `mailbox_destroy` of
`email/src/mailbox/destroy.rs`. A request creates, updates and destroys any number of
mailboxes. Every create is checked against the account as it was before the request and all
of them are written at once; then the same for the updates; then mailboxes are destroyed one
by one.

Ids are 64 bits wide in requests, and the lower 32 bits are the id of the mailbox. Parsed
access rights come with the request, and `acl_validate` is a parameter, as are the messages
of the mailboxes.
-/

namespace Bearmail.Folder

open Bearmail.Imap (trim)

/-! ## Requests and errors -/

inductive Property where
  | id
  | name
  | parentId
  | role
  | sortOrder
  | isSubscribed
  | shareWith
  | other (name : String)
  deriving DecidableEq

inductive SetErrorType where
  | invalidProperties
  | forbidden
  | notFound
  | willDestroy
  | overQuota
  | alreadyExists
  | mailboxHasChild
  | mailboxHasEmail
  deriving DecidableEq

structure SetError where
  kind : SetErrorType
  property : Option Property
  description : Option String
  existingId : Option Nat
  deriving DecidableEq

def SetError.new (kind : SetErrorType) : SetError := ⟨kind, none, none, none⟩

def SetError.withDescription (err : SetError) (description : String) : SetError :=
  { err with description := some description }

def SetError.withProperty (err : SetError) (property : Property) : SetError :=
  { err with property := some property }

/-- A property of a request with a value of the kind it takes; anything else is `invalid`. -/
inductive Change where
  | name (value : String)
  | parentId (value : Nat)
  /-- the id of a mailbox that the same request creates -/
  | parentRef (reference : String)
  | parentNull
  | isSubscribed (subscribe : Bool)
  | role (role : SpecialUse)
  | roleNull
  | sortOrder (value : Nat)
  | shareWith (patch : List AclGrant → Except SetError (List AclGrant))
  /-- an id, when it could be read -/
  | id (value : Option Nat)
  | invalid (property : Property)

def Change.property : Change → Property
  | .name _ => .name
  | .parentId _ | .parentRef _ | .parentNull => .parentId
  | .isSubscribed _ => .isSubscribed
  | .role _ | .roleNull => .role
  | .sortOrder _ => .sortOrder
  | .shareWith _ => .shareWith
  | .id _ => .id
  | .invalid property => property

structure SetRequest where
  create : List (String × List Change)
  update : List (Nat × List Change)
  destroy : List Nat
  onDestroyRemoveEmails : Bool

def documentId (id : Nat) : Nat := id % 2 ^ 32

/-- What the operations ask the rest of the server. -/
structure Server where
  config : Config
  /-- `acl_validate` -/
  aclValidate : List AclGrant → Option SetError
  /-- `is_large_batch` -/
  isLarge : List Write → Bool
  order : CacheOrder

structure SetContext where
  token : AccessToken
  isShared : Bool
  created : List (String × Nat)
  mailboxIds : List Nat
  willDestroy : List Nat

/-! ## One mailbox -/

/-- One property, applied to the mailbox; the flag is set by access rights. -/
def applyChange (config : Config) (update : Option Nat) (ctx : SetContext)
    (state : Mailbox × Bool) (change : Change) : Except SetError (Mailbox × Bool) :=
  let changes := state.1
  match change with
  | .name value =>
    let value := trim value
    if value.isEmpty = false ∧ value.utf8ByteSize < config.mailboxNameMaxLen then
      .ok ({ changes with name := value }, state.2)
    else
      .error (((SetError.new .invalidProperties).withProperty .name).withDescription
        (if value.isEmpty = false then "Mailbox name is too long."
          else "Mailbox name cannot be empty."))
  | .parentId value => setParent value
  | .parentRef reference =>
    match ctx.created.lookup reference with
    | some id => setParent id
    | none =>
      .error ((SetError.new .notFound).withDescription
        ("Id reference \"" ++ reference ++ "\" not found."))
  | .parentNull => .ok ({ changes with parentId := 0 }, state.2)
  | .isSubscribed subscribe =>
    let accountId := ctx.token.accountId
    let subscribers :=
      if subscribe then
        if accountId ∈ changes.subscribers then changes.subscribers
        else changes.subscribers ++ [accountId]
      else changes.subscribers.filter fun id => decide (id ≠ accountId)
    .ok ({ changes with subscribers }, state.2)
  | .role role => .ok ({ changes with role }, state.2)
  | .roleNull => .ok ({ changes with role := .none }, state.2)
  | .sortOrder value => .ok ({ changes with sortOrder := some (value % 2 ^ 32) }, state.2)
  | .shareWith patch =>
    match patch changes.acls with
    | .ok acls => .ok ({ changes with acls }, true)
    | .error err => .error err
  | .id value =>
    match update with
    | some id => if value = some id then .ok state else immutable
    | none => immutable
  | .invalid property =>
    .error (((SetError.new .invalidProperties).withProperty property).withDescription
      "Invalid property or value.")
where
  setParent (value : Nat) : Except SetError (Mailbox × Bool) :=
    let parentId := documentId value
    if value ∈ ctx.willDestroy then
      .error ((SetError.new .willDestroy).withDescription "Parent ID will be destroyed.")
    else if parentId ∈ ctx.mailboxIds then
      .ok ({ state.1 with parentId := parentId + 1 }, state.2)
    else
      .error ((SetError.new .invalidProperties).withDescription "Parent ID does not exist.")
  immutable : Except SetError (Mailbox × Bool) :=
    .error (((SetError.new .invalidProperties).withProperty .id).withDescription
      "The id property is immutable.")

def applyChanges (config : Config) (update : Option Nat) (ctx : SetContext) :
    Mailbox × Bool → List Change → Except SetError (Mailbox × Bool)
  | state, [] => .ok state
  | state, change :: changes =>
    match applyChange config update ctx state change with
    | .error err => .error err
    | .ok state => applyChanges config update ctx state changes

/-- The walk from a new parent up to the root: `current` is the mailbox being moved. -/
def walkParents (mailboxes : Mailboxes) (ctx : SetContext) (current : Nat) :
    Nat → Nat → Nat → Except SetError Unit
  | 0, _, _ =>
    .error (((SetError.new .invalidProperties).withProperty .parentId).withDescription
      "Mailbox parent-child relationship is too deep.")
  | n + 1, depth, parentId =>
    if parentId = current then
      .error (((SetError.new .invalidProperties).withProperty .parentId).withDescription
        "Mailbox cannot be a parent of itself.")
    else if parentId = 0 then
      if depth = 0 ∧ ctx.isShared = true then
        .error ((SetError.new .forbidden).withDescription "You are not allowed to create root folders.")
      else .ok ()
    else
      match mailboxes.lookup (parentId - 1) with
      | some mailbox =>
        if depth = 0 ∧ ctx.isShared = true ∧
            effectiveAcl mailbox.acls ctx.token .createChild = false then
          .error ((SetError.new .forbidden).withDescription
            "You are not allowed to create sub mailboxes under this mailbox.")
        else walkParents mailboxes ctx current n (depth + 1) mailbox.parentId
      | none =>
        -- the parent is probably created within the same request
        if parentId - 1 ∈ ctx.mailboxIds then .ok ()
        else
          .error (((SetError.new .invalidProperties).withProperty .parentId).withDescription
            "Mailbox parent does not exist.")

/-- The role of a mailbox that is created, or whose role changes, must be free. -/
def checkRole (items : List (Sigma fun _ : Nat => Mailbox)) (update : Option (Nat × Mailbox))
    (changes : Mailbox) : Except SetError Unit :=
  if update.all fun current => decide (current.2.role ≠ changes.role) then
    if changes.role ≠ .none ∧ (items.any fun item => decide (item.2.role = changes.role)) then
      .error (((SetError.new .invalidProperties).withProperty .role).withDescription
        ("A mailbox with role '" ++ changes.role.asStr.getD "" ++ "' already exists."))
    else if update.any fun current => decide (current.1 ∈ [inboxId, trashId, junkId]) then
      .error (((SetError.new .invalidProperties).withProperty .role).withDescription
        "You are not allowed to change the role of Inbox, Junk or Trash folders.")
    else .ok ()
  else .ok ()

/-- The name of a mailbox that is created, or whose name changes, must be free below its
parent. -/
def checkName (config : Config) (items : List (Sigma fun _ : Nat => Mailbox))
    (update : Option (Nat × Mailbox)) (changes : Mailbox) : Except SetError Unit :=
  if changes.name.isEmpty = false then
    let lowerName := config.toLowercase changes.name
    if update.all fun current => decide (current.2.name ≠ changes.name) then
      match items.find? fun item => decide (config.toLowercase item.2.name = lowerName ∧
          item.2.parent.elim 0 (· + 1) = changes.parentId) with
      | some existing =>
        .error
          { (SetError.new .alreadyExists).withDescription
              ("A mailbox with name '" ++ changes.name ++ "' already exists.") with
            existingId := some existing.1 }
      | none => .ok ()
    else .ok ()
  else
    .error (((SetError.new .invalidProperties).withProperty .name).withDescription
      "Mailbox name cannot be empty.")

/-- A mailbox that is created, or whose parent changes, must not go below itself. -/
def checkParent (config : Config) (mailboxes : Mailboxes) (ctx : SetContext)
    (update : Option (Nat × Mailbox)) (changes : Mailbox) : Except SetError Unit :=
  if update.all fun current => decide (current.2.parentId ≠ changes.parentId) then
    walkParents mailboxes ctx ((update.map fun current => current.1 + 1).getD u32Max)
      config.mailboxMaxDepth 0 changes.parentId
  else .ok ()

def checkAcls (server : Server) (hasAclChanges : Bool) (changes : Mailbox) : Except SetError Unit :=
  if hasAclChanges = true ∧ changes.acls ≠ [] then
    match server.aclValidate changes.acls with
    | some err => .error err
    | none => .ok ()
  else .ok ()

def mailboxSetItem (server : Server) (mailboxes : Mailboxes) (ctx : SetContext)
    (update : Option (Nat × Mailbox)) (changes : List Change) : Except SetError Mailbox := do
  let start := (update.map Prod.snd).getD (Mailbox.new "")
  let (mailbox, hasAclChanges) ←
    applyChanges server.config (update.map Prod.fst) ctx (start, false) changes
  checkParent server.config mailboxes ctx update mailbox
  checkRole (server.order.items mailboxes) update mailbox
  checkName server.config (server.order.items mailboxes) update mailbox
  checkAcls server hasAclChanges mailbox
  return mailbox

/-! ## A request -/

structure SetResponse where
  created : List (String × Nat)
  notCreated : List (String × SetError)
  updated : List Nat
  notUpdated : List (Nat × SetError)
  destroyed : List Nat
  notDestroyed : List (Nat × SetError)

/-- The loop over the creates: the id counter, the mailboxes known so far and the batch. -/
structure CreateRun where
  lastId : Nat
  created : List (String × Nat)
  mailboxIds : List Nat
  writes : List Write
  notCreated : List (String × SetError)

def createStep (server : Server) (mailboxes : Mailboxes) (ctx : SetContext) (run : CreateRun)
    (object : String × List Change) : CreateRun :=
  if run.mailboxIds.length ≥ server.config.maxMailboxes then
    { run with
      notCreated := run.notCreated ++ [(object.1, (SetError.new .overQuota).withDescription
        ("There are too many mailboxes, " ++ "please delete some before adding a new one."))] }
  else
    match mailboxSetItem server mailboxes
        { ctx with created := run.created, mailboxIds := run.mailboxIds } none object.2 with
    | .error err => { run with notCreated := run.notCreated ++ [(object.1, err)] }
    | .ok mailbox =>
      let id := run.lastId + 1
      { lastId := id
        created := (object.1, id) :: run.created
        mailboxIds := List.insert id run.mailboxIds
        writes := run.writes ++ [⟨id, mailbox, mailbox.parent, none⟩]
        notCreated := run.notCreated }

/-- Whether an update touches nothing but the subscription. -/
def subscriptionOnly (changes : List Change) : Bool :=
  changes.all fun change => decide (change.property ∈ [Property.isSubscribed, Property.id])

def checkUpdateAcl (ctx : SetContext) (mailbox : Mailbox) (changes : List Change) :
    Except SetError Unit :=
  if ctx.isShared then
    if subscriptionOnly changes then
      if effectiveAcl mailbox.acls ctx.token .read then .ok ()
      else .error ((SetError.new .forbidden).withDescription
        "You are not allowed to access this mailbox.")
    else if effectiveAcl mailbox.acls ctx.token .modify = false then
      .error ((SetError.new .forbidden).withDescription "You are not allowed to modify this mailbox.")
    else if (changes.any fun change => decide (change.property = .shareWith)) ∧
        effectiveAcl mailbox.acls ctx.token .share = false then
      .error ((SetError.new .forbidden).withDescription
        "You are not allowed to change the permissions of this mailbox.")
    else .ok ()
  else .ok ()

/-- One update: the write it asks for, or why it is refused. -/
def updateItem (server : Server) (mailboxes : Mailboxes) (ctx : SetContext)
    (object : Nat × List Change) : Except SetError Write :=
  if object.1 ∈ ctx.willDestroy then .error (SetError.new .willDestroy)
  else
    match mailboxes.lookup (documentId object.1) with
    | none => .error (SetError.new .notFound)
    | some current => do
      checkUpdateAcl ctx current object.2
      let mailbox ← mailboxSetItem server mailboxes ctx (some (documentId object.1, current)) object.2
      return ⟨documentId object.1, mailbox, mailbox.parent, some current⟩

def acceptedUpdates (server : Server) (mailboxes : Mailboxes) (ctx : SetContext)
    (objects : List (Nat × List Change)) : List (Nat × Write) :=
  objects.filterMap fun object =>
    match updateItem server mailboxes ctx object with
    | .ok write => some (object.1, write)
    | .error _ => none

def refusedUpdates (server : Server) (mailboxes : Mailboxes) (ctx : SetContext)
    (objects : List (Nat × List Change)) : List (Nat × SetError) :=
  objects.filterMap fun object =>
    match updateItem server mailboxes ctx object with
    | .ok _ => none
    | .error err => some (object.1, err)

/-! ## Destroying a mailbox -/

inductive MailboxDestroyError where
  | cannotDestroy
  | forbidden
  | hasChildren
  | hasEmails
  | notFound
  deriving DecidableEq

def MailboxDestroyError.toSetError : MailboxDestroyError → SetError
  | .cannotDestroy => (SetError.new .forbidden).withDescription
      "You are not allowed to delete Inbox, Junk or Trash folders."
  | .forbidden => (SetError.new .forbidden).withDescription "You are not allowed to delete this mailbox."
  | .hasChildren => (SetError.new .mailboxHasChild).withDescription "Mailbox has at least one children."
  | .hasEmails => (SetError.new .mailboxHasEmail).withDescription "Mailbox is not empty."
  | .notFound => SetError.new .notFound

/-- `mailbox_destroy`; `hasMessages` tells the mailboxes with messages in them. -/
def mailboxDestroy (server : Server) (hasMessages : Nat → Bool) (token : AccessToken)
    (removeEmails : Bool) (account : Account) (id : Nat) :
    Except MailboxDestroyError Account :=
  if id ∈ [inboxId, trashId, junkId] then .error .cannotDestroy
  else if (server.order.items account.mailboxes).any fun item =>
      decide (item.2.cachedParentId = id) then .error .hasChildren
  else if hasMessages id ∧ removeEmails = false then .error .hasEmails
  else
    match account.mailboxes.lookup id with
    | none => .error .notFound
    | some mailbox =>
      if token.isShared account.accountId ∧ (effectiveAcl mailbox.acls token .delete = false ∨
            (removeEmails = true ∧ effectiveAcl mailbox.acls token .removeItems = false)) then
        .error .forbidden
      else .ok { account with mailboxes := account.mailboxes.erase id }

def destroyStep (server : Server) (hasMessages : Nat → Bool) (token : AccessToken)
    (removeEmails : Bool) (run : Account × SetResponse) (id : Nat) : Account × SetResponse :=
  match mailboxDestroy server hasMessages token removeEmails run.1 (documentId id) with
  | .ok account => (account, { run.2 with destroyed := run.2.destroyed ++ [id] })
  | .error err =>
    (run.1, { run.2 with notDestroyed := run.2.notDestroyed ++ [(id, err.toSetError)] })

/-! ## The whole request -/

def createRun (server : Server) (token : AccessToken) (account : Account)
    (request : SetRequest) : CreateRun :=
  request.create.foldl (createStep server account.mailboxes
      ⟨token, token.isShared account.accountId, [], account.mailboxes.keys, request.destroy⟩)
    ⟨account.lastId, [], account.mailboxes.keys, [], []⟩

def updateContext (server : Server) (token : AccessToken) (account : Account)
    (request : SetRequest) : SetContext :=
  let run := createRun server token account request
  ⟨token, token.isShared account.accountId, run.created, run.mailboxIds, request.destroy⟩

/-- The mailboxes after the creates of a request, and whether they were written. -/
def afterCreates (server : Server) (token : AccessToken) (account : Account)
    (request : SetRequest) : Mailboxes × Bool :=
  commitBatch server.isLarge account.mailboxes (createRun server token account request).writes

def requestUpdates (server : Server) (token : AccessToken) (account : Account)
    (request : SetRequest) : List (Nat × Write) :=
  acceptedUpdates server (afterCreates server token account request).1
    (updateContext server token account request) request.update

/-- `mailbox_set`. A batch of creates that cannot be written ends the request with an error. -/
def mailboxSet (server : Server) (hasMessages : Nat → Bool) (token : AccessToken)
    (account : Account) (request : SetRequest) : Account × Option SetResponse :=
  let run := createRun server token account request
  let created := afterCreates server token account request
  if created.2 = false then
    ({ account with mailboxes := created.1, lastId := run.lastId }, none)
  else
    let ctx := updateContext server token account request
    let updates := requestUpdates server token account request
    let updated := commitBatch server.isLarge created.1 (updates.map Prod.snd)
    let ids := updates.map Prod.fst
    let refused := refusedUpdates server created.1 ctx request.update
    let response : SetResponse :=
      { created := run.created
        notCreated := run.notCreated
        updated := if updated.2 then ids else []
        notUpdated :=
          if updated.2 then refused
          else refused ++ ids.map fun id => (id, (SetError.new .forbidden).withDescription
            "Another process modified this mailbox, please try again.")
        destroyed := []
        notDestroyed := [] }
    let result := request.destroy.foldl
      (destroyStep server hasMessages token request.onDestroyRemoveEmails)
      ({ account with mailboxes := updated.1, lastId := run.lastId }, response)
    (result.1, some result.2)

/-! ## What is accepted -/

theorem updateItem_ok {server : Server} {mailboxes : Mailboxes} {ctx : SetContext}
    {object : Nat × List Change} {write : Write}
    (h : updateItem server mailboxes ctx object = .ok write) :
    ∃ current, mailboxes.lookup write.id = some current ∧
      mailboxSetItem server mailboxes ctx (some (write.id, current)) object.2 = .ok write.mailbox ∧
      write.assertParent = write.mailbox.parent ∧ write.assertCurrent = some current := by
  unfold updateItem at h
  split at h
  · cases h
  · cases hm : mailboxes.lookup (documentId object.1) with
    | none => simp [hm] at h
    | some current =>
      simp only [hm] at h
      obtain ⟨-, -, h⟩ := Fallible.bind_eq_ok.mp h
      obtain ⟨mailbox, hitem, h⟩ := Fallible.bind_eq_ok.mp h
      obtain rfl := Except.ok.inj h
      exact ⟨current, hm, hitem, rfl, rfl⟩

theorem mem_requestUpdates {server : Server} {token : AccessToken} {account : Account}
    {request : SetRequest} {write : Write}
    (h : write ∈ (requestUpdates server token account request).map Prod.snd) :
    ∃ current changes, (afterCreates server token account request).1.lookup write.id = some current ∧
      mailboxSetItem server (afterCreates server token account request).1
        (updateContext server token account request) (some (write.id, current)) changes =
          .ok write.mailbox ∧
      write.assertParent = write.mailbox.parent ∧ write.assertCurrent = some current := by
  obtain ⟨update, hupdate, rfl⟩ := List.mem_map.mp h
  obtain ⟨object, -, heq⟩ := List.mem_filterMap.mp hupdate
  cases hitem : updateItem server (afterCreates server token account request).1
      (updateContext server token account request) object with
  | error err => simp [hitem] at heq
  | ok write =>
    simp only [hitem, Option.some.injEq] at heq
    subst heq
    obtain ⟨current, hok⟩ := updateItem_ok hitem
    exact ⟨current, object.2, hok⟩

end Bearmail.Folder
