import Bearmail.Jmap.Query
import Bearmail.Search.Query

/-!
# Queries for e-mails

`email_query` of `jmap/src/email/query.rs`: the filters and comparators of a request become those of
the search index and sets of documents from the message cache, and what the index answers is cut to
threads and to the window that was asked for.

What the cache has of a message is its thread, its mailboxes and its keywords. `Language::detect` and
`HeaderName::parse` are parameters, as is the rights check of a mailbox.
-/

namespace Bearmail

/-! ## Search filters (`store/src/search/document.rs`) -/

namespace Search

def SearchFilter.cond (field : EmailSearchField) (op : SearchOperator) (value : SearchValue) :
    SearchFilter :=
  .operator (.email field) op value

def stripQuotes (quote : Char) (text : String) : Option String :=
  match text.toList with
  | [] => none
  | c :: rest =>
    if c = quote ∧ rest.getLast? = some quote then some (String.ofList rest.dropLast) else none

def SearchFilter.hasText (field : EmailSearchField) (text : String) (language : Language) :
    SearchFilter :=
  match (stripQuotes '"' text).or (stripQuotes '\'' text) with
  | some exactText =>
    .cond field (if language ≠ .none then .equal else .contains) (.text exactText language)
  | none => .cond field .contains (.text text language)

/-- A search index. No document is answered twice. -/
structure SearchBackend where
  queryAccount : SearchQuery → Except QueryError (List Nat)
  nodup : ∀ query ids, queryAccount query = .ok ids → ids.Nodup

theorem queryAccount_nodup {H : Type} [DecidableEq H] {nlp : Nlp H} {store : SearchStore H}
    {query : SearchQuery} {ids : List Nat} (h : queryAccount nlp store query = .ok ids) :
    ids.Nodup := by
  unfold queryAccount at h
  dsimp only at h
  split at h
  · cases h
  · split at h
    · split at h
      · cases h
        exact nodup_sortResults _ _ _
      · cases h
    · cases h
      exact nodup_sortResults _ _ _

/-- `SearchStore::query_account` with the search index of the store itself. -/
def internalFts {H : Type} [DecidableEq H] (nlp : Nlp H) (store : SearchStore H) : SearchBackend where
  queryAccount query := if query.mask = ∅ then .ok [] else Search.queryAccount nlp store query
  nodup := by
    intro query ids h
    split at h
    · cases h
      exact List.nodup_nil
    · exact queryAccount_nodup h

end Search

variable {results : List Nat}

namespace Jmap

open Search

variable {K : Type}

/-! ## Message cache -/

structure MessageCache (K : Type) where
  documentId : Nat
  threadId : Nat
  mailboxes : List Nat
  keywords : List K
  documentId_lt : documentId < 2 ^ 32

/-- The messages of an account, with the change ids of the cache. -/
structure MessageStoreCache (K : Type) where
  items : List (MessageCache K)
  ids : CacheIds

namespace MessageStoreCache

variable (cache : MessageStoreCache K)

def documents (p : MessageCache K → Bool) : Bitmap :=
  ((cache.items.filter p).map MessageCache.documentId).toFinset

def emailById (documentId : Nat) : Option (MessageCache K) :=
  cache.items.find? fun item => decide (item.documentId = documentId)

def inMailbox (mailboxId : Nat) : Bitmap :=
  cache.documents fun item => decide (mailboxId ∈ item.mailboxes)

def inThread (threadId : Nat) : Bitmap :=
  cache.documents fun item => decide (item.threadId = threadId)

section Keywords

variable [DecidableEq K]

def withKeyword (keyword : K) : Bitmap := cache.documents fun item => decide (keyword ∈ item.keywords)

def withoutKeyword (keyword : K) : Bitmap :=
  cache.documents fun item => !decide (keyword ∈ item.keywords)

/-- One message in the loop of `thread_keywords`, with the documents that have been found to match
and those that have been found not to. -/
def threadKeyword (keywordDocIds : Bitmap) (matchAll : Bool) (found : Bitmap × Bitmap)
    (item : MessageCache K) : Bitmap × Bitmap :=
  let (matchedIds, notMatchedIds) := found
  let id := item.documentId
  if id ∉ keywordDocIds ∨ id ∈ matchedIds ∨ id ∈ notMatchedIds then found
  else
    let threadDocIds := cache.inThread item.threadId
    let intersection := threadDocIds ∩ keywordDocIds
    if (matchAll = true ∧ intersection = threadDocIds) ∨ (matchAll = false ∧ intersection ≠ ∅) then
      (matchedIds ∪ threadDocIds, notMatchedIds)
    else if intersection ≠ ∅ then (matchedIds, notMatchedIds ∪ intersection)
    else found

def threadKeywords (keyword : K) (matchAll : Bool) : Bitmap :=
  let keywordDocIds := cache.withKeyword keyword
  if keywordDocIds = ∅ then keywordDocIds
  else (cache.items.foldl (cache.threadKeyword keywordDocIds matchAll) (∅, ∅)).1

end Keywords

def sharedMessages (readable : List Nat) : Bitmap :=
  readable.foldl (fun shared mailboxId => shared ∪ cache.inMailbox mailboxId) ∅

end MessageStoreCache

/-! ## Requests -/

inductive EmailFilter (K : Type) where
  | inMailbox (mailbox : Nat)
  | inMailboxOtherThan (mailboxes : List Nat)
  | before (date : Int)
  | after (date : Int)
  | minSize (size : Nat)
  | maxSize (size : Nat)
  | allInThreadHaveKeyword (keyword : K)
  | someInThreadHaveKeyword (keyword : K)
  | noneInThreadHaveKeyword (keyword : K)
  | hasKeyword (keyword : K)
  | notKeyword (keyword : K)
  | hasAttachment (hasAttach : Bool)
  | «from» (text : String)
  | to (text : String)
  | cc (text : String)
  | bcc (text : String)
  | subject (text : String)
  | body (text : String)
  | header (header : List String)
  | text (text : String)
  | sentBefore (date : Int)
  | sentAfter (date : Int)
  | inThread (id : Nat)
  | id (ids : List Nat)
  | other (name : String)

inductive EmailComparator (K : Type) where
  | receivedAt
  | size
  | «from»
  | to
  | subject
  | cc
  | sentAt
  | threadId
  | hasKeyword (keyword : K)
  | allInThreadHaveKeyword (keyword : K)
  | someInThreadHaveKeyword (keyword : K)
  | other (name : String)

def EmailFilter.isImmutable : EmailFilter K → Bool
  | .before _ | .after _ | .minSize _ | .maxSize _ | .hasAttachment _ | .from _ | .to _ | .cc _
  | .bcc _ | .subject _ | .body _ | .header _ | .text _ | .id _ | .sentBefore _ | .sentAfter _ => true
  | _ => false

def EmailComparator.isImmutable : EmailComparator K → Bool
  | .receivedAt | .size | .from | .to | .subject | .cc | .sentAt => true
  | _ => false

def Filter.isImmutable : Filter (EmailFilter K) → Bool
  | .property condition => condition.isImmutable
  | .and | .or | .not | .close => true

structure QueryArguments where
  collapseThreads : Option Bool

abbrev EmailQueryRequest (K : Type) := QueryRequest (EmailFilter K) (EmailComparator K) QueryArguments

inductive EmailQueryError where
  | invalidArguments (details : String)
  | unsupportedFilter (details : String)
  | unsupportedSort (details : String)
  | anchorNotFound
  | search (error : QueryError)
  deriving DecidableEq

structure QueryCore where
  /-- `Language::detect` with the default language -/
  detect : String → String × Language
  /-- `HeaderName::parse`: the name in lower case, and whether the header holds message ids -/
  parseHeader : String → Option (String × Bool)
  queryMaxResults : Nat
  changesMaxResults : Nat

structure Mailstore (K : Type) where
  accountId : Nat
  cache : MessageStoreCache K
  /-- for a reader who is not a member, the mailboxes with the right to read items -/
  readable : Option (List Nat)
  search : SearchBackend

/-! ## Filters and comparators -/

section Translation

variable [DecidableEq K] (core : QueryCore) (cache : MessageStoreCache K)

def headerFilter : List String → Except EmailQueryError (List SearchFilter)
  | [] => .error (.invalidArguments "Header name is missing.")
  | name :: rest =>
    match core.parseHeader name with
    | none => .ok []
    | some (headerName, isIdHeader) =>
      let op := if isIdHeader = true ∨ rest.head? = none then .equal else .contains
      .ok [.cond .headers op (.keyValues [(headerName, rest.head?.getD "")])]

def textFilter (text : String) : List SearchFilter :=
  let (text, language) := core.detect text
  [.or, .hasText .from text .none, .hasText .to text .none, .hasText .cc text .none,
    .hasText .bcc text .none, .hasText .subject text language, .hasText .body text language,
    .hasText .attachment text language, .endGroup]

def hasTextDetect (field : EmailSearchField) (text : String) : SearchFilter :=
  let (text, language) := core.detect text
  .hasText field text language

def EmailFilter.toSearch : EmailFilter K → Except EmailQueryError (List SearchFilter)
  | .text value => .ok (textFilter core value)
  | .from value => .ok [.hasText .from value .none]
  | .to value => .ok [.hasText .to value .none]
  | .cc value => .ok [.hasText .cc value .none]
  | .bcc value => .ok [.hasText .bcc value .none]
  | .subject value => .ok [hasTextDetect core .subject value]
  | .body value => .ok [hasTextDetect core .body value]
  | .header values => headerFilter core values
  | .inMailbox mailbox => .ok [.documentSet (cache.inMailbox (documentId mailbox))]
  | .inMailboxOtherThan mailboxes =>
    .ok [.documentSet (cache.documents fun item =>
      item.mailboxes.any fun mailboxId => !decide (mailboxId ∈ mailboxes.map documentId))]
  | .before date => .ok [.cond .receivedAt .lowerThan (.int date)]
  | .after date => .ok [.cond .receivedAt .greaterThan (.int date)]
  | .minSize size => .ok [.cond .size .greaterEqualThan (.uint size)]
  | .maxSize size => .ok [.cond .size .lowerThan (.uint size)]
  | .allInThreadHaveKeyword keyword => .ok [.documentSet (cache.threadKeywords keyword true)]
  | .someInThreadHaveKeyword keyword => .ok [.documentSet (cache.threadKeywords keyword false)]
  | .noneInThreadHaveKeyword keyword =>
    .ok [.not, .documentSet (cache.threadKeywords keyword false), .endGroup]
  | .hasKeyword keyword => .ok [.documentSet (cache.withKeyword keyword)]
  | .notKeyword keyword => .ok [.documentSet (cache.withoutKeyword keyword)]
  | .hasAttachment hasAttach => .ok [.cond .hasAttachment .equal (.boolean hasAttach)]
  | .id ids => .ok [.documentSet (ids.map documentId).toFinset]
  | .sentBefore date => .ok [.cond .sentAt .lowerThan (.int date)]
  | .sentAfter date => .ok [.cond .sentAt .greaterThan (.int date)]
  | .inThread thread => .ok [.documentSet (cache.inThread (documentId thread))]
  | .other name => .error (.unsupportedFilter name)

def Filter.toSearch : Filter (EmailFilter K) → Except EmailQueryError (List SearchFilter)
  | .property condition => condition.toSearch core cache
  | .and => .ok [.and]
  | .or => .ok [.or]
  | .not => .ok [.not]
  | .close => .ok [.endGroup]

def searchFilters : List (Filter (EmailFilter K)) → Except EmailQueryError (List SearchFilter)
  | [] => .ok []
  | filter :: rest => do
    let filters ← filter.toSearch core cache
    let others ← searchFilters rest
    return filters ++ others

def Comparator.toSearch (comparator : Comparator (EmailComparator K)) :
    Except EmailQueryError SearchComparator :=
  let field (field : EmailSearchField) : Except EmailQueryError SearchComparator :=
    .ok (.field (.email field) comparator.isAscending)
  let set (set : Bitmap) : Except EmailQueryError SearchComparator :=
    .ok (.documentSet set comparator.isAscending)
  match comparator.property with
  | .receivedAt => field .receivedAt
  | .size => field .size
  | .from => field .from
  | .to => field .to
  | .subject => field .subject
  | .sentAt => field .sentAt
  | .cc => field .cc
  | .hasKeyword keyword => set (cache.withKeyword keyword)
  | .allInThreadHaveKeyword keyword => set (cache.threadKeywords keyword true)
  | .someInThreadHaveKeyword keyword => set (cache.threadKeywords keyword false)
  | .threadId => .error (.unsupportedSort "threadId")
  | .other name => .error (.unsupportedSort name)

end Translation

/-! ## The query -/

def idOf (prefixId documentId : Nat) : Nat := prefixId * 2 ^ 32 + documentId

/-- The results that are in the cache, the first of each thread when threads are collapsed. -/
def listed (cache : MessageStoreCache K) (collapseThreads : Bool) : List Nat → List Nat → List Nat
  | [], _ => []
  | documentId :: results, seenThreadIds =>
    match cache.emailById documentId with
    | none => listed cache collapseThreads results seenThreadIds
    | some email =>
      if collapseThreads && decide (email.threadId ∈ seenThreadIds) then
        listed cache collapseThreads results seenThreadIds
      else
        idOf email.threadId documentId ::
          listed cache collapseThreads results (email.threadId :: seenThreadIds)

def totalResults (cache : MessageStoreCache K) (collapseThreads : Bool) (results : List Nat) : Nat :=
  if collapseThreads then
    ((results.filterMap cache.emailById).map MessageCache.threadId).dedup.length
  else results.length

def Mailstore.mask (store : Mailstore K) : Bitmap :=
  match store.readable with
  | some readable => store.cache.sharedMessages readable
  | none => store.cache.documents fun _ => true

def emailResponse (core : QueryCore) (request : EmailQueryRequest K) (store : Mailstore K)
    (results : List Nat) : Except EmailQueryError QueryResponse :=
  let collapseThreads := request.arguments.collapseThreads.getD false
  let builder := QueryResponseBuilder.new (totalResults store.cache collapseThreads results)
    core.queryMaxResults (store.cache.ids.getState false) request
  match (builder.addAll (listed store.cache collapseThreads results [])).build with
  | none => .error .anchorNotFound
  | some response => .ok response

def emailQuery [DecidableEq K] (core : QueryCore) (request : EmailQueryRequest K)
    (store : Mailstore K) : Except EmailQueryError QueryResponse := do
  let filters ← searchFilters core store.cache request.filter
  let comparators ← (request.sort.getD []).mapM (Comparator.toSearch store.cache)
  let query : SearchQuery :=
    { index := .email
      filters := filters ++ [(accountFilter store.accountId).toFilter]
      comparators
      mask := store.mask }
  match store.search.queryAccount query with
  | .error error => .error (.search error)
  | .ok results => emailResponse core request store results

theorem emailQuery_of_search [DecidableEq K] {core : QueryCore} {request : EmailQueryRequest K}
    {store : Mailstore K} {filters : List SearchFilter} {comparators : List SearchComparator}
    (hfilters : searchFilters core store.cache request.filter = .ok filters)
    (hsort : (request.sort.getD []).mapM (Comparator.toSearch store.cache) = .ok comparators)
    (hsearch : store.search.queryAccount
      ⟨.email, filters ++ [(accountFilter store.accountId).toFilter], comparators, store.mask⟩ =
        .ok results) :
    emailQuery core request store = emailResponse core request store results := by
  unfold emailQuery
  rw [hfilters, hsort]
  dsimp [bind, Except.bind]
  rw [hsearch]

/-! ## What is answered -/

section Answer

variable {cache : MessageStoreCache K}

theorem documentId_idOf {prefixId doc : Nat} (h : doc < 2 ^ 32) :
    documentId (idOf prefixId doc) = doc := by
  rw [documentId, idOf, Nat.add_comm, Nat.add_mul_mod_self_right, Nat.mod_eq_of_lt h]

theorem emailById_lt {doc : Nat} {email : MessageCache K} (h : cache.emailById doc = some email) :
    doc < 2 ^ 32 := by
  have heq := List.find?_some h
  rw [decide_eq_true_eq] at heq
  rw [← heq]
  exact email.documentId_lt

theorem listed_sublist (collapseThreads : Bool) (results seen : List Nat) :
    ((listed cache collapseThreads results seen).map documentId).Sublist results := by
  induction results generalizing seen with
  | nil => exact List.Sublist.slnil
  | cons doc results ih =>
    rw [listed]
    cases hemail : cache.emailById doc with
    | none => exact (ih seen).cons doc
    | some email =>
      dsimp only
      split
      · exact (ih seen).cons doc
      · rw [List.map_cons, documentId_idOf (emailById_lt hemail)]
        exact (ih _).cons_cons doc

theorem listed_nodup (h : results.Nodup) (collapseThreads : Bool) (seen : List Nat) :
    (listed cache collapseThreads results seen).Nodup :=
  List.Nodup.of_map documentId (h.sublist (listed_sublist collapseThreads results seen))

/-- A query without position and anchor answers every e-mail at most once, with the state of the
cache. -/
theorem emailResponse_fromStart {core : QueryCore} {request : EmailQueryRequest K}
    {store : Mailstore K} {response : QueryResponse} (hposition : request.position = none)
    (hanchor : request.anchor = none) (hnodup : results.Nodup)
    (h : emailResponse core request store results = .ok response) :
    response.ids.Nodup ∧ response.queryState = store.cache.ids.getState false := by
  unfold emailResponse at h
  have hstart := @QueryResponseBuilder.new_fromStart _ _ _
    (totalResults store.cache (request.arguments.collapseThreads.getD false) results)
    core.queryMaxResults (store.cache.ids.getState false) request hposition hanchor
  obtain ⟨hall, first, hfirst, hresponse⟩ := hstart.addAll
    (listed store.cache (request.arguments.collapseThreads.getD false) results [])
  dsimp only at h
  rw [hall.build, hresponse] at h
  cases h
  exact ⟨(listed_nodup hnodup _ []).sublist hfirst.sublist, rfl⟩

theorem emailQuery_fromStart [DecidableEq K] {core : QueryCore} {request : EmailQueryRequest K}
    {store : Mailstore K} {response : QueryResponse} (hposition : request.position = none)
    (hanchor : request.anchor = none) (h : emailQuery core request store = .ok response) :
    response.ids.Nodup ∧ response.queryState = store.cache.ids.getState false := by
  unfold emailQuery at h
  cases hfilters : searchFilters core store.cache request.filter with
  | error error =>
    rw [hfilters] at h
    cases h
  | ok filters =>
    cases hsort : (request.sort.getD []).mapM (Comparator.toSearch store.cache) with
    | error error =>
      rw [hfilters, hsort] at h
      cases h
    | ok comparators =>
      rw [hfilters, hsort] at h
      dsimp only [bind, Except.bind] at h
      split at h
      · cases h
      · rename_i results hresults
        exact emailResponse_fromStart hposition hanchor (store.search.nodup _ _ hresults) h

end Answer

end Jmap

end Bearmail
