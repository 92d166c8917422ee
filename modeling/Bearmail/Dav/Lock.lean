import Mathlib.Data.List.Nodup
import Mathlib.Data.Nat.Bitwise

/-!
# Locks

`dav/src/common/lock.rs`: the lock tables, LOCK, refresh and UNLOCK requests (`handle_lock_request`)
and the check of the locks and of the If headers for any request (`validate_headers`).

A path is its text, with its names between slashes. A lock table is a map from paths to locks; it
belongs to an account and a collection. What a request finds out about resources in other places (the
URI of an If header, an etag, the last change) is in its environment. The tables are read through
caches that last for one request, so a request reads the tables themselves here. The store drops a
table long after its last lock has expired.
-/

namespace Bearmail.Dav.Lock

abbrev Text := List Char

/-! ## Tokens -/

def davlockPrefix : Text := "urn:stalwart:davlock:".toList

def davsyncPrefix : Text := "urn:stalwart:davsync:".toList

def stripPrefix (start text : Text) : Option Text :=
  if start.isPrefixOf text then some (text.drop start.length) else none

def hexDigit (c : Char) : Option Nat :=
  if '0' ≤ c ∧ c ≤ '9' then some (c.toNat - '0'.toNat)
  else if 'a' ≤ c ∧ c ≤ 'f' then some (c.toNat - 'a'.toNat + 10)
  else if 'A' ≤ c ∧ c ≤ 'F' then some (c.toNat - 'A'.toNat + 10)
  else none

def fromStrRadix (text : Text) : Option Nat :=
  let digits := (stripPrefix ['+'] text).getD text
  if digits = [] then none
  else digits.foldlM (fun value c => do
    let next := 16 * value + (← hexDigit c)
    if next < 2 ^ 64 then some next else none) 0

def lockUrn (lockId : Nat) : Text := davlockPrefix ++ Nat.toDigits 16 lockId

def tryUnwrapLock (token : Text) : Option Nat := (stripPrefix davlockPrefix token).bind fromStrRadix

def syncUrn (id : Nat) : Text := davsyncPrefix ++ Nat.toDigits 16 id

def tryExtractSyncId (token : Text) : Option Text :=
  (stripPrefix davsyncPrefix token).map fun text => text.takeWhile (· ≠ ':')

/-! ## Lock tables -/

structure LockItem where
  lockId : Nat
  owner : Nat
  expires : Nat
  depthInfinity : Bool
  exclusive : Bool
  ownerDav : Option Text
deriving DecidableEq

def LockItem.default : LockItem := ⟨0, 0, 0, false, false, none⟩

def LockItem.urn (lock : LockItem) : Text := lockUrn lock.lockId

structure LockData where
  locks : List (Text × List LockItem)
  distinct : (locks.map Prod.fst).Nodup
deriving DecidableEq

def LockData.entries (data : LockData) : List (Text × LockItem) :=
  data.locks.flatMap fun group => group.2.map fun lock => (group.1, lock)

/-- The parts of a path before a slash, the longest first; the path is given from its end. -/
def partsRev : Text → List Text
  | [] => []
  | c :: rest => if c = '/' then rest :: partsRev rest else partsRev rest

/-- The values of `resource_part` in the loop of `find_locks`. -/
def resourceParts (resource : Text) : List Text :=
  resource :: (partsRev resource.reverse).map List.reverse

def LockData.findLocks (data : LockData) (now : Nat) (resource : Text) (includeChildren : Bool) :
    List (Text × LockItem) :=
  ((resourceParts resource).flatMap fun part =>
    (((data.locks.lookup part).getD []).filter fun lock =>
      decide (now < lock.expires) && (resource == part || lock.depthInfinity)).map
        fun lock => (part, lock)) ++
  if includeChildren then
    data.locks.flatMap fun group =>
      if (resource ++ ['/']).isPrefixOf group.1 then
        (group.2.filter fun lock => decide (now < lock.expires)).map fun lock => (group.1, lock)
      else []
  else []

def pushGroups (path : Text) (lock : LockItem) :
    List (Text × List LockItem) → List (Text × List LockItem)
  | [] => [(path, [lock])]
  | (other, items) :: rest =>
    if other = path then (other, items ++ [lock]) :: rest
    else (other, items) :: pushGroups path lock rest

def modifyItems (lockId : Nat) (f : LockItem → LockItem) : List LockItem → Option (List LockItem)
  | [] => none
  | lock :: rest =>
    if lock.lockId = lockId then some (f lock :: rest)
    else (modifyItems lockId f rest).map (lock :: ·)

def modifyGroups (lockId : Nat) (f : LockItem → LockItem) :
    List (Text × List LockItem) → Option (List (Text × List LockItem))
  | [] => none
  | (path, items) :: rest =>
    match modifyItems lockId f items with
    | some changed => some ((path, changed) :: rest)
    | none => (modifyGroups lockId f rest).map ((path, items) :: ·)

/-- The first lock that has the id is removed, and its path when that was the last lock there. The
order of the locks of a path, which `swap_remove` changes, does not matter. -/
def removeGroups (lockId : Nat) : List (Text × List LockItem) → Option (List (Text × List LockItem))
  | [] => none
  | (path, items) :: rest =>
    if items.any fun lock => lock.lockId == lockId then
      let left := items.eraseP fun lock => lock.lockId == lockId
      some (if left = [] then rest else (path, left) :: rest)
    else (removeGroups lockId rest).map ((path, items) :: ·)

theorem keys_pushGroups (path : Text) (lock : LockItem) (groups : List (Text × List LockItem)) :
    (pushGroups path lock groups).map Prod.fst =
      if path ∈ groups.map Prod.fst then groups.map Prod.fst
      else groups.map Prod.fst ++ [path] := by
  induction groups with
  | nil => rfl
  | cons group rest ih =>
    obtain ⟨other, items⟩ := group
    by_cases h : other = path
    · simp [pushGroups, h]
    · have hne : path ≠ other := fun heq => h heq.symm
      simp only [pushGroups, if_neg h, List.map_cons, ih, List.mem_cons, hne, false_or]
      split <;> rfl

theorem keys_modifyGroups {lockId : Nat} {f : LockItem → LockItem}
    {groups changed : List (Text × List LockItem)}
    (h : modifyGroups lockId f groups = some changed) :
    changed.map Prod.fst = groups.map Prod.fst := by
  induction groups generalizing changed with
  | nil => cases h
  | cons group rest ih =>
    simp only [modifyGroups] at h
    split at h
    · cases h
      rfl
    · obtain ⟨tail, htail, rfl⟩ := Option.map_eq_some_iff.mp h
      simp [ih htail]

theorem keys_removeGroups {lockId : Nat} {groups left : List (Text × List LockItem)}
    (h : removeGroups lockId groups = some left) :
    (left.map Prod.fst).Sublist (groups.map Prod.fst) := by
  induction groups generalizing left with
  | nil => cases h
  | cons group rest ih =>
    obtain ⟨path, items⟩ := group
    simp only [removeGroups] at h
    split at h
    · cases h
      split
      · exact List.sublist_cons_self _ _
      · exact List.Sublist.refl _
    · obtain ⟨tail, htail, rfl⟩ := Option.map_eq_some_iff.mp h
      exact (ih htail).cons_cons path

def LockData.push (data : LockData) (path : Text) (lock : LockItem) : LockData where
  locks := pushGroups path lock data.locks
  distinct := by
    rw [keys_pushGroups]
    split
    · exact data.distinct
    · rename_i h
      exact List.nodup_append.mpr ⟨data.distinct, List.nodup_singleton _, by
        rintro a ha b hb rfl
        exact h (List.mem_singleton.mp hb ▸ ha)⟩

def LockData.modify (data : LockData) (lockId : Nat) (f : LockItem → LockItem) : Option LockData :=
  match h : modifyGroups lockId f data.locks with
  | none => none
  | some changed => some ⟨changed, by rw [keys_modifyGroups h]; exact data.distinct⟩

def LockData.removeLock (data : LockData) (lockId : Nat) : Option LockData :=
  match h : removeGroups lockId data.locks with
  | none => none
  | some left => some ⟨left, data.distinct.sublist (keys_removeGroups h)⟩

def retain (now : Nat) (group : Text × List LockItem) : Text × List LockItem :=
  (group.1, group.2.filter fun lock => decide (now < lock.expires))

def LockData.removeExpired (data : LockData) (now : Nat) : LockData where
  locks := (data.locks.map (retain now)).filter fun group => !group.2.isEmpty
  distinct := by
    have h : ((data.locks.map (retain now)).map Prod.fst).Nodup := by
      simpa [List.map_map, Function.comp_def, retain] using data.distinct
    exact h.sublist (List.filter_sublist.map _)

/-! ## Requests -/

inductive Collection where
  | email
  | mailbox
  | thread
  | identity
  | emailSubmission
  | sieveScript
  | pushSubscription
  | principal
  | calendar
  | calendarEvent
  | addressBook
  | contactCard
  | fileNode
  | calendarEventNotification
  | none
deriving DecidableEq

def Collection.mainCollection : Collection → Collection
  | .email => .mailbox
  | .calendarEvent => .calendar
  | .contactCard => .addressBook
  | collection => collection

def Collection.childCollection : Collection → Option Collection
  | .mailbox => some .email
  | .calendar => some .calendarEvent
  | .addressBook => some .contactCard
  | .fileNode => some .fileNode
  | .calendarEventNotification => some .calendarEventNotification
  | _ => Option.none

abbrev LockKey := Nat × Collection

abbrev LockStore := LockKey → Option LockData

inductive Condition where
  | stateToken (isNot : Bool) (token : Text)
  | eTag (isNot : Bool) (tag : Text)
  /-- `Exists` -/
  | existence (isNot : Bool)
deriving DecidableEq

def Condition.isNoneMatch : Condition → Bool
  | .eTag isNot _ | .existence isNot => isNot
  | .stateToken _ _ => false

structure If where
  resource : Option Text
  list : List Condition
deriving DecidableEq

inductive Depth where
  | zero
  | one
  | infinity
  | none
deriving DecidableEq

inductive Timeout where
  | infinite
  | second (seconds : Nat)
  | none
deriving DecidableEq

structure RequestHeaders where
  baseUri : Option Text
  depth : Depth
  timeout : Timeout
  lockToken : Option Text
  overwriteFail : Bool
  if_ : List If

inductive DavMethod where
  | GET
  | PUT
  | POST
  | DELETE
  | HEAD
  | PATCH
  | PROPFIND
  | PROPPATCH
  | REPORT
  | MKCOL
  | MKCALENDAR
  | COPY
  | MOVE
  | LOCK
  | UNLOCK
  | OPTIONS
  | ACL
deriving DecidableEq

inductive DavError where
  | code (status : Nat)
  | lockTokenSubmitted (hrefs : List Text)
  | lockTokenMatchesRequestUri
deriving DecidableEq

structure ResourceState where
  accountId : Nat
  collection : Collection
  documentId : Option Nat
  etag : Option Text
  lockTokens : List Text
  syncToken : Option Text
  path : Text

def ResourceState.lockKey (resource : ResourceState) : LockKey :=
  (resource.accountId, resource.collection.mainCollection)

def ResourceState.ofPlace (accountId : Nat) (collection : Collection) (path : Text) :
    ResourceState :=
  ⟨accountId, collection, none, none, [], none, path⟩

/-- What a request is told about other resources. -/
structure Environment where
  /-- account, collection and path of a URI -/
  validateUri : Text → Option (Option Nat × Collection × Option Text)
  hasAccess : Nat → Collection → Bool
  /-- the document at a path -/
  mapUriResource : Nat → Collection → Text → Option Nat
  etag : Nat → Collection → Nat → Option Text
  highestChangeId : Nat → Collection → Nat

/-! ## `validate_headers` -/

section ValidateHeaders

variable (env : Environment) (store : LockStore) (now : Nat) (headers : RequestHeaders)

def trimEndSlashes (text : Text) : Text := (text.reverse.dropWhile (· = '/')).reverse

/-- Whether the token of a lock stands in an If header for its path. -/
def submitted (lockPath : Text) (lock : LockItem) : Bool :=
  headers.if_.any fun if_ =>
    (match if_.resource with
      | none => true
      | some resource => lockPath.isSuffixOf (trimEndSlashes resource)) &&
    if_.list.any fun condition =>
      match condition with
      | .stateToken _ token => token == lock.urn
      | _ => false

def href (lockPath : Text) : Text := headers.baseUri.getD [] ++ ['/'] ++ lockPath

/-- The loop over the resources that the request changes. -/
def checkLocks (method : DavMethod) : Nat → List ResourceState → Except DavError Unit
  | _, [] => .ok ()
  | position, resource :: rest =>
    if position = 0 ∧ method = .COPY then checkLocks method (position + 1) rest
    else
      match store resource.lockKey with
      | none => checkLocks method (position + 1) rest
      | some data =>
        let found := data.findLocks now resource.path true
        -- a submitted token ends the loop over the locks and that over the resources
        if found.any fun lock => submitted headers lock.1 lock.2 then .ok ()
        else if found.isEmpty then checkLocks method (position + 1) rest
        else .error (.lockTokenSubmitted (found.map fun lock => href headers lock.1))

def lockResponse (method : DavMethod) (resources : List ResourceState) : Except DavError Unit :=
  if method = .GET ∨ method = .HEAD ∨ method = .LOCK ∨ method = .UNLOCK then .ok ()
  else checkLocks store now headers method 0 resources

/-- The resource that an If header is about: its place among the resources, or none. -/
def locate (resources : List ResourceState) (if_ : If) : List ResourceState × Option Nat :=
  match if_.resource with
  | some uri =>
    match env.validateUri uri with
    | some (some accountId, collection, some path) =>
      let collection :=
        if collection ≠ .fileNode ∧ '/' ∈ path then collection.childCollection.getD collection
        else collection
      match resources.findIdx? fun resource => resource.accountId == accountId &&
          resource.collection == collection && resource.path == path with
      | some position => (resources, some position)
      | none =>
        if env.hasAccess accountId collection then
          (resources ++ [.ofPlace accountId collection path], some resources.length)
        else (resources, none)
    | _ => (resources, none)
  | none => (resources, if resources.isEmpty then none else some 0)

def needsSyncToken : Condition → Bool
  | .stateToken _ token => davsyncPrefix.isPrefixOf token
  | _ => false

def needsLockToken : Condition → Bool
  | .stateToken _ token => !davsyncPrefix.isPrefixOf token
  | _ => false

def needsEtag : Condition → Bool
  | .stateToken _ _ => false
  | _ => true

def ResourceState.fetchEtag (state : ResourceState) : ResourceState :=
  let documentId := state.documentId.getD
    ((env.mapUriResource state.accountId state.collection state.path).getD (2 ^ 32 - 1))
  { state with
    documentId := some documentId
    etag := if documentId ≠ 2 ^ 32 - 1 then env.etag state.accountId state.collection documentId
      else none }

def ResourceState.fetchLockTokens (state : ResourceState) : ResourceState :=
  match store state.lockKey with
  | none => state
  | some data =>
    { state with lockTokens := (data.findLocks now state.path false).map fun lock => lock.2.urn }

def ResourceState.fetchSyncToken (state : ResourceState) : ResourceState :=
  { state with syncToken := some (syncUrn (env.highestChangeId state.accountId state.collection)) }

def ResourceState.fill (list : List Condition) (state : ResourceState) : ResourceState :=
  if state.collection = .none then state
  else
    let state := if list.any needsEtag && state.etag.isNone then state.fetchEtag env else state
    let state := if list.any needsLockToken && state.lockTokens.isEmpty then
      state.fetchLockTokens store now else state
    if list.any needsSyncToken && state.syncToken.isNone then state.fetchSyncToken env else state

def Condition.holds (state : ResourceState) : Condition → Bool
  | .stateToken isNot token =>
    match tryExtractSyncId token with
    | some id => (state.syncToken.bind tryExtractSyncId == some id) ^^ isNot
    | none => state.lockTokens.contains token ^^ isNot
  | .eTag isNot tag => (state.etag == some tag) ^^ isNot
  | .existence isNot => state.etag.isSome ^^ isNot

def resourceNotFound : ResourceState := .ofPlace (2 ^ 32 - 1) .none []

def evaluate : List ResourceState → List If → Bool
  | _, [] => false
  | resources, if_ :: rest =>
    if if_.list.isEmpty then evaluate resources rest
    else
      let (resources, position) := locate env resources if_
      match position with
      | none => if_.list.all (·.holds resourceNotFound) || evaluate resources rest
      | some position =>
        let state := ((resources[position]?).getD resourceNotFound).fill env store now if_.list
        if_.list.all (·.holds state) || evaluate (resources.set position state) rest

/-- What is there at the last resource must not be overwritten. -/
def overwriteRefused (method : DavMethod) (resources : List ResourceState) : Bool :=
  decide (method = .COPY ∨ method = .MOVE ∨ method = .POST ∨ method = .PUT ∨ method = .PATCH) &&
    headers.overwriteFail &&
    resources.getLast?.any fun resource =>
      resource.etag.isSome || resource.documentId.any fun id => id != 2 ^ 32 - 1

def validateHeaders (method : DavMethod) (resources : List ResourceState) :
    Except DavError Unit :=
  if (method = .GET ∨ method = .HEAD) ∧ headers.if_.isEmpty then .ok ()
  else if overwriteRefused headers method resources then .error (.code 412)
  else
    let response := lockResponse store now headers method resources
    if headers.if_.isEmpty then response
    else if evaluate env store now resources headers.if_ then response
    else if (method = .GET ∨ method = .HEAD) ∧
        headers.if_.any fun if_ => if_.list.any Condition.isNoneMatch then .error (.code 304)
    else .error (.code 412)

end ValidateHeaders

/-! ## `handle_lock_request` -/

structure LockInfo where
  exclusive : Bool
  owner : Option Text

inductive LockRequest where
  | lock (info : LockInfo)
  | unlock
  | refresh

structure Config where
  deadPropertySize : Option Nat
  maxLocksPerUser : Nat
  maxLockTimeout : Nat

/-- A request, with what it reads from the clock and from the random source. -/
structure LockCall where
  env : Environment
  headers : RequestHeaders
  request : LockRequest
  /-- the account that makes the request -/
  accountId : Nat
  /-- account, collection and path of its URI, or why it is refused -/
  resource : Except DavError (Nat × Collection × Text)
  random : Nat
  /-- the clock when locks are looked for, when the lock is written, and when expired locks are
  removed -/
  checked : Nat
  now : Nat
  cleaned : Nat
  ordered : checked ≤ now ∧ now ≤ cleaned

section HandleLockRequest

variable (config : Config) (store : LockStore) (call : LockCall)

def LockCall.ifLockToken : Nat :=
  ((call.headers.if_.flatMap If.list).findSome? fun condition =>
    match condition with
    | .stateToken _ token => tryUnwrapLock token
    | _ => none).getD 0

def LockCall.isInfinity : Bool := call.headers.depth = .infinity

def LockCall.conflicts (info : LockInfo) (path : Text) (entry : Text × LockItem) : Bool :=
  call.ifLockToken != entry.2.lockId &&
  (entry.2.exclusive || info.exclusive) &&
  (entry.1.length == path.length || entry.2.depthInfinity && decide (entry.1.length < path.length) ||
    call.isInfinity && decide (path.length < entry.1.length))

def ownerTooLarge (info : LockInfo) : Bool :=
  info.owner.any fun owner => decide (config.deadPropertySize.getD 512 < owner.length)

def LockCall.checkLock (data : LockData) (info : LockInfo) (path : Text) : Except DavError Unit :=
  let failed := (data.findLocks call.checked path true).filter (call.conflicts info path)
  if !failed.isEmpty then
    .error (.lockTokenSubmitted (failed.map fun entry => href call.headers entry.1))
  else if ownerTooLarge config info then .error (.code 413)
  else if decide (0 < config.maxLocksPerUser) && decide (config.maxLocksPerUser ≤
      (data.entries.filter fun entry => entry.2.owner == call.accountId).length) then
    .error (.code 429)
  else .ok ()

def LockCall.expires : Nat :=
  call.now + match call.headers.timeout with
    | .second seconds => min seconds config.maxLockTimeout
    | _ => config.maxLockTimeout

/-- How a lock is written: a refresh moves its end, a LOCK request writes all of it. -/
def LockCall.write (lock : LockItem) : LockItem :=
  match call.request with
  | .lock info =>
    { lockId := call.random ^^^ call.expires config
      owner := call.accountId
      expires := call.expires config
      depthInfinity := call.isInfinity
      exclusive := info.exclusive
      ownerDav := info.owner }
  | _ => { lock with expires := call.expires config }

def LockCall.writeLock (data : LockData) (path : Text) : Except DavError LockData :=
  if 0 < call.ifLockToken then
    match data.modify call.ifLockToken (call.write config) with
    | some changed => .ok changed
    | none => .error (.code 412)
  else .ok (data.push path (call.write config .default))

/-- The table that is read, after the headers and the locks of others are checked. -/
def LockCall.readLocks (accountId : Nat) (collection : Collection) (path : Text) :
    Except DavError LockData :=
  let resources := [ResourceState.ofPlace accountId collection path]
  match store (accountId, collection.mainCollection), call.request with
  | some data, .lock info => do
    validateHeaders call.env store call.checked call.headers .LOCK resources
    call.checkLock config data info path
    return data
  | some data, .refresh => do
    validateHeaders call.env store call.checked call.headers .LOCK resources
    return data
  | some data, .unlock => do
    validateHeaders call.env store call.checked call.headers .UNLOCK resources
    return data
  | none, .unlock => .error .lockTokenMatchesRequestUri
  | none, _ => do
    validateHeaders call.env store call.checked call.headers .LOCK resources
    return ⟨[], List.nodup_nil⟩

/-- The table behind a request, with expired locks still in it. -/
def LockCall.writeLocks (data : LockData) (path : Text) : Except DavError LockData :=
  match call.request with
  | .unlock =>
    match call.headers.lockToken.bind tryUnwrapLock with
    | none => .error (.code 400)
    | some lockId =>
      match data.removeLock lockId with
      | some left => .ok left
      | none => .error .lockTokenMatchesRequestUri
  | .lock info =>
    match call.writeLock config data path with
    | .error error => .error error
    | .ok changed => if ownerTooLarge config info then .error (.code 413) else .ok changed
  | .refresh => call.writeLock config data path

def handleLockRequest : Except DavError LockStore := do
  let (accountId, collection, path) ← call.resource
  let data ← call.readLocks config store accountId collection path
  let written ← call.writeLocks config data path
  let left := written.removeExpired call.cleaned
  return Function.update store (accountId, collection.mainCollection)
    (if left.locks.isEmpty then none else some left)

end HandleLockRequest

end Bearmail.Dav.Lock
