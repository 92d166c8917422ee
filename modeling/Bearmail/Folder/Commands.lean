import Bearmail.Folder.Set
import Bearmail.Folder.Tree

/-!
# CREATE, RENAME and DELETE

The mailbox commands of `imap/src/op/create.rs`, `imap/src/op/rename.rs` and
`imap/src/op/delete.rs`, for one account. A session knows the mailboxes by the names that
`fetch_account_mailboxes` of `imap/src/core/mailbox.rs` makes of their paths, which it reads
again before each command. The mailboxes of another account have its prefix in front; a
command that names another account than the one modelled leaves this one as it is.
-/

namespace Bearmail.Folder

open Bearmail.Imap (trim)

/-! ## Errors -/

inductive ImapCode where
  | cannot
  | alreadyExists
  | noPerm
  | overQuota
  | nonExistent
  | tryCreate
  | hasChildren
  | useAttr
  deriving DecidableEq

/-- The error of a command, that it could not be written, or that it is about another account. -/
inductive ImapError where
  | error (details : String) (code : Option ImapCode)
  | assertionFailed
  | otherAccount
  deriving DecidableEq

/-! ## Names -/

structure Session where
  token : AccessToken
  /-- what stands before the names of a shared account -/
  accountPrefix : Option String
  /-- whether an account that the session lists before this one has a mailbox of this name -/
  elsewhere : String → Bool
  /-- the order of the nodes when paths are built -/
  nodeOrder : List Item → List Nat

def Session.visible (session : Session) (account : Account) (m : Mailbox) : Bool :=
  session.token.isMember account.accountId || effectiveAcl m.acls session.token .read

/-- The mailbox with a special use; the last one listed, when there are several. -/
def specialUse (items : List Item) (use : SpecialUse) : Option Nat :=
  if use = .none then none
  else (items.reverse.find? fun item => decide (item.2.role = use)).map Sigma.fst

/-- The name of a mailbox may be that of a default folder, which stands for the mailbox with
its special use. -/
def effectiveMailboxId (config : Config) (items : List Item) (name : String) (id : Nat) : Nat :=
  ((config.defaultFolders.find? fun folder =>
      decide (folder.name = name ∨ name ∈ folder.aliases)).bind fun folder =>
    specialUse items folder.specialUse).getD id

def mailboxNames (server : Server) (session : Session) (account : Account) :
    List (String × Nat) :=
  let items := server.order.items account.mailboxes
  let paths := buildTree items (session.nodeOrder items)
  let shown := items.filter fun item => session.visible account item.2
  (shown.map fun item =>
    let path := (paths item.1).getD ""
    let name := session.accountPrefix.elim path fun p => p ++ "/" ++ path
    (name, effectiveMailboxId server.config shown name item.1)).reverse

/-- `get_mailbox_by_name`: the inbox is found under any spelling, but not in a shared account,
whose names all have a prefix. -/
def getMailboxByName (session : Session) (names : List (String × Nat)) (name : String) :
    Option Nat :=
  if eqIgnoreAsciiCase name "inbox" then
    if session.accountPrefix = none then
      (names.find? fun entry => decide (entry.2 = inboxId)).map Prod.snd
    else none
  else names.lookup name

/-! ## The path of a new mailbox -/

def splitSlash : List Char → List Char → List String
  | part, [] => [String.ofList part.reverse]
  | part, c :: cs =>
    if c = '/' then String.ofList part.reverse :: splitSlash [] cs else splitSlash (c :: part) cs

def stripPrefix (name : String) : Option String :=
  match name.toList with
  | '/' :: rest => some (String.ofList rest)
  | _ => none

def stripSuffix (name : String) : Option String :=
  match name.toList.reverse with
  | '/' :: rest => some (String.ofList rest.reverse)
  | _ => none

def cleanName (mailboxName : String) : String :=
  let name := trim mailboxName
  let name := (stripPrefix name).elim name trim
  (stripSuffix name).elim name trim

def pathItems (config : Config) : List String → Except ImapError (List String)
  | [] => .ok []
  | item :: items =>
    let item := trim item
    if item.isEmpty then .error (.error "Invalid empty path item." none)
    else if item.utf8ByteSize > config.mailboxNameMaxLen then
      .error (.error "Mailbox name is too long." none)
    else
      match pathItems config items with
      | .error err => .error err
      | .ok rest => .ok (item :: rest)

def parsePath (config : Config) (mailboxName : String) : Except ImapError (List String) :=
  let name := cleanName mailboxName
  if name.isEmpty then
    .error (.error ("Invalid folder name '" ++ mailboxName ++ "'.") none)
  else if '/' ∈ name.toList then
    match pathItems config (splitSlash [] name.toList) with
    | .error err => .error err
    | .ok path =>
      if path.length > config.mailboxMaxDepth then
        .error (.error "Mailbox path is too deep." none)
      else .ok path
  else .ok [name]

def joinPath (path : List String) : String := "/".intercalate path

def normalizeInbox (item : String) : String :=
  if eqIgnoreAsciiCase item "INBOX" then "INBOX" else item

def locateAccount (config : Config) (session : Session) (path : List String) :
    Except ImapError (List String) :=
  match path with
  | [] => .error .otherAccount
  | first :: rest =>
    if first = config.sharedFolder then
      match rest with
      | user :: root :: rest =>
        if session.accountPrefix = some (first ++ "/" ++ user) then
          .ok (first :: user :: normalizeInbox root :: rest)
        else .error .otherAccount
      | _ =>
        .error (.error "Mailboxes under root shared folders are not allowed." (some .cannot))
    else if session.accountPrefix = none then .ok (normalizeInbox first :: rest)
    else .error .otherAccount

/-- The longest part of a path that exists, and what is below it; the path is given backwards. -/
def findParent (names : List (String × Nat)) (accountPrefix : Option String) :
    List String → List String → Option Nat × List String
  | [], create => (none, create)
  | item :: rest, create =>
    let name := joinPath (item :: rest).reverse
    match names.lookup name with
    | some id => (some id, create)
    | none =>
      if accountPrefix = some name then (none, create)
      else findParent names accountPrefix rest (item :: create)

structure CreateParams where
  path : List String
  parentMailboxId : Option Nat
  deriving DecidableEq

/-- Whether a mailbox may be created below the parent that was found. -/
def checkCreateAcl (session : Session) (account : Account) (parent : Option Nat) :
    Except ImapError Unit :=
  match parent with
  | some id =>
    if session.token.isMember account.accountId then .ok ()
    else
      match account.mailboxes.lookup id with
      | none => .error (.error "Mailbox no longer exists." none)
      | some mailbox =>
        if effectiveAcl mailbox.acls session.token .createChild then .ok ()
        else .error (.error "You are not allowed to create sub mailboxes under this mailbox."
          (some .noPerm))
  | none =>
    if session.token.accountId ≠ account.accountId ∧
        session.token.isMember account.accountId = false then
      .error (.error "You are not allowed to create root folders under shared folders." (some .cannot))
    else .ok ()

def checkCreateRole (server : Server) (account : Account) (role : Option SpecialUse) :
    Except ImapError Unit :=
  match role with
  | none => .ok ()
  | some role =>
    if (server.order.items account.mailboxes).any fun item => decide (item.2.role = role) then
      .error (.error ("A mailbox with role '" ++ role.asStr.getD "" ++ "' already exists.")
        (some .useAttr))
    else .ok ()

def validateMailboxCreate (server : Server) (session : Session) (account : Account)
    (mailboxName : String) (role : Option SpecialUse) : Except ImapError CreateParams := do
  let names := mailboxNames server session account
  let path ← parsePath server.config mailboxName
  let path ← locateAccount server.config session path
  if names.lookup (joinPath path) ≠ none then
    throw (.error ("Mailbox '" ++ joinPath path ++ "' already exists.") (some .alreadyExists))
  let (parent, create) :=
    if path.length > 1 then findParent names session.accountPrefix path.reverse []
    else (none, path)
  checkCreateAcl session account parent
  checkCreateRole server account role
  return ⟨create, parent⟩

/-! ## The commands -/

def checkQuota (server : Server) (account : Account) (n : Nat) : Except ImapError Unit :=
  if (server.order.items account.mailboxes).length + n > server.config.maxMailboxes then
    .error (.error ("There are too many mailboxes, " ++
      "please delete some before adding a new one.") (some .overQuota))
  else .ok ()

/-- One mailbox for each part of a path, below `parentId`. The ids are handed out backwards
from `next`; the last mailbox gets the role. -/
def pathWrites (role : Option SpecialUse) : List String → Nat → Nat → List Write
  | [], _, _ => []
  | item :: items, next, parentId =>
    let mailbox := { Mailbox.new item with
      parentId
      role := if items.isEmpty then role.getD .none else .none }
    ⟨next, mailbox, none, none⟩ :: pathWrites role items (next - 1) (next + 1)

def lastParent : List String → Nat → Nat → Nat
  | [], _, parentId => parentId
  | _ :: items, next, _ => lastParent items (next - 1) (next + 1)

/-- The account after a command, with the error that the client is told. -/
abbrev CommandResult := Account × Option ImapError

def commitCommand (server : Server) (account : Account) (writes : List Write) : CommandResult :=
  let committed := commitBatch server.isLarge account.mailboxes writes
  ({ account with mailboxes := committed.1 },
    if committed.2 then none else some .assertionFailed)

/-- What `create_folder` checks before it writes. -/
def createParams (server : Server) (session : Session) (account : Account) (mailboxName : String)
    (role : Option SpecialUse) : Except ImapError CreateParams := do
  let params ← validateMailboxCreate server session account mailboxName role
  checkQuota server account params.path.length
  return params

def createFolder (server : Server) (session : Session) (account : Account)
    (mailboxName : String) (role : Option SpecialUse) : CommandResult :=
  match createParams server session account mailboxName role with
  | .error err => (account, some err)
  | .ok params =>
    let account := account.assignDocumentIds params.path.length
    commitCommand server account
      (pathWrites role params.path account.lastId (params.parentMailboxId.elim 0 (· + 1)))

def renameSource (server : Server) (session : Session) (account : Account)
    (mailboxName : String) : Except ImapError (Nat × Mailbox) :=
  let notFound : ImapError :=
    .error ("Mailbox '" ++ mailboxName ++ "' not found.") (some .nonExistent)
  if session.elsewhere mailboxName then
    .error (.error "Cannot move mailboxes between accounts." (some .cannot))
  else
    match (mailboxNames server session account).lookup mailboxName with
    | none => .error notFound
    | some id =>
      match account.mailboxes.lookup id with
      | none => .error notFound
      | some mailbox =>
        if session.token.isShared account.accountId ∧
            effectiveAcl mailbox.acls session.token .modify = false then
          .error (.error "You are not allowed to rename this mailbox." (some .noPerm))
        else .ok (id, mailbox)

/-- What a rename writes: the new folders on the way, and the mailbox at its new place. -/
def renameWrites (params : CreateParams) (account : Account) (id : Nat) (mailbox : Mailbox) :
    List Write :=
  let path := params.path.dropLast
  let parentId := params.parentMailboxId.elim 0 (· + 1)
  pathWrites none path account.lastId parentId ++
    [⟨id, { mailbox with
        name := params.path.getLast?.getD ""
        parentId := lastParent path account.lastId parentId }, none, some mailbox⟩]

/-- What `rename_folder` checks before it writes. -/
def renameParams (server : Server) (session : Session) (account : Account)
    (mailboxName newMailboxName : String) : Except ImapError (CreateParams × Nat × Mailbox) := do
  let params ← validateMailboxCreate server session account newMailboxName none
  let source ← renameSource server session account mailboxName
  if params.path.dropLast ≠ [] then
    checkQuota server account params.path.dropLast.length
  return (params, source)

def renameFolder (server : Server) (session : Session) (account : Account)
    (mailboxName newMailboxName : String) : CommandResult :=
  match renameParams server session account mailboxName newMailboxName with
  | .error err => (account, some err)
  | .ok (params, id, mailbox) =>
    let account := account.assignDocumentIds params.path.dropLast.length
    commitCommand server account (renameWrites params account id mailbox)

def MailboxDestroyError.toImapError : MailboxDestroyError → ImapError
  | .cannotDestroy => .error "You cannot delete system mailboxes" (some .noPerm)
  | .forbidden => .error "You do not have enough permissions to delete this mailbox" (some .noPerm)
  | .hasChildren => .error "Mailbox has children" (some .hasChildren)
  | .hasEmails => .error "Mailbox has emails" (some .hasChildren)
  | .notFound => .error "Mailbox not found" (some .nonExistent)

def deleteFolder (server : Server) (hasMessages : Nat → Bool) (session : Session)
    (account : Account) (mailboxName : String) : CommandResult :=
  match getMailboxByName session (mailboxNames server session account) mailboxName with
  | none => (account, some (.error "Mailbox does not exist." (some .tryCreate)))
  | some id =>
    match mailboxDestroy server hasMessages session.token true account id with
    | .ok account => (account, none)
    | .error err => (account, some err.toImapError)

end Bearmail.Folder
