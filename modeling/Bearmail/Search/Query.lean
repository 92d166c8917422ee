import Bearmail.Search.Desync
import Bearmail.Search.Index

/-!
# The store's own search backend

`Store::query_account` of `query.rs`: the evaluation loop with leaves that are looked
up in the index.
-/

namespace Bearmail.Search

open Nested
open List hiding set

/-! ## Errors -/

def SearchField.debug : SearchField → String
  | .accountId => "AccountId"
  | .documentId => "DocumentId"
  | .id => "Id"
  | .email field => "Email(" ++ email field ++ ")"
  | .calendar field => "Calendar(" ++ calendar field ++ ")"
  | .contact field => "Contact(" ++ contact field ++ ")"
  | .file .name => "File(Name)"
  | .file .content => "File(Content)"
  | .tracing .eventType => "Tracing(EventType)"
  | .tracing .queueId => "Tracing(QueueId)"
  | .tracing .keywords => "Tracing(Keywords)"
where
  email : EmailSearchField → String
    | .from => "From" | .to => "To" | .cc => "Cc" | .bcc => "Bcc" | .subject => "Subject"
    | .body => "Body" | .attachment => "Attachment" | .receivedAt => "ReceivedAt"
    | .sentAt => "SentAt" | .size => "Size" | .hasAttachment => "HasAttachment"
    | .headers => "Headers"
  calendar : CalendarSearchField → String
    | .title => "Title" | .description => "Description" | .location => "Location"
    | .owner => "Owner" | .attendee => "Attendee" | .start => "Start" | .uid => "Uid"
  contact : ContactSearchField → String
    | .member => "Member" | .kind => "Kind" | .name => "Name" | .nickname => "Nickname"
    | .organization => "Organization" | .email => "Email" | .phone => "Phone"
    | .onlineService => "OnlineService" | .address => "Address" | .note => "Note" | .uid => "Uid"

inductive QueryError where
  | missingAccountId
  | expectedText
  | emptyKeyValues
  | expectedNonKeyValue
  | notIndexed (field : SearchField)
  | unsupportedFilter
  deriving DecidableEq, Repr

def QueryError.details : QueryError → String
  | .missingAccountId => "Account ID must be specified before other filters"
  | .expectedText => "Expected text value for text field"
  | .emptyKeyValues => "called `Option::unwrap()` on a `None` value"
  | .expectedNonKeyValue => "Expected non key-value for non-text field"
  | .notIndexed field => "Field " ++ field.debug ++ " is not indexed"
  | .unsupportedFilter => "Unsupported filter in global search"

variable {H : Type} [DecidableEq H]

/-! ## Leaves -/

def SearchValue.fieldBytes (truncate : Bytes → Bytes) : SearchValue → Option Bytes
  | .text value _ => some (truncate value.toUTF8.toList)
  | .int v => some (beBytes 8 (v % 2 ^ 64).toNat)
  | .uint v => some (beBytes 8 v)
  | .boolean v => some [if v then 1 else 0]
  | .keyValues _ => none

/-- The terms one stemmed token of a `Contains` is looked up under. -/
def stemHashes (nlp : Nlp H) (token : String × Option String) : List H :=
  [nlp.cheekyHash token.1, nlp.cheekyHash (token.1 ++ "*")] ++
    (token.2.map fun stemmedWord => nlp.cheekyHash (stemmedWord ++ "*")).toList

def containsFrom (nlp : Nlp H) (keys : IndexKeys H) (field : Nat) :
    List (String × Option String) → Bitmap → BitmapCache H → Bitmap × BitmapCache H
  | [], result, cache => (result, cache)
  | token :: tokens, result, cache =>
    match mergeBitmaps keys (stemHashes nlp token) field true cache with
    | (some union, cache) =>
      if result = ∅ then containsFrom nlp keys field tokens union cache
      else if result ∩ union = ∅ then (∅, cache)
      else containsFrom nlp keys field tokens (result ∩ union) cache
    | (none, cache) => (∅, cache)

def queryText (nlp : Nlp H) (keys : IndexKeys H) (field : Nat) (op : SearchOperator)
    (value : String) (language : Language) (cache : BitmapCache H) :
    Option Bitmap × BitmapCache H :=
  if op = .equal then
    mergeBitmaps keys ((nlp.tokenizeText language value).map nlp.cheekyHash) field false cache
  else
    let (result, cache) := containsFrom nlp keys field (nlp.stemmer language value) ∅ cache
    (someNonempty result, cache)

/-- A header: a value is looked up by its words, a lone key by itself. -/
def queryJson (nlp : Nlp H) (keys : IndexKeys H) (field : Nat) (key value : String)
    (cache : BitmapCache H) : Option Bitmap × BitmapCache H :=
  if value ≠ "" then
    mergeBitmaps keys ((nlp.spaceTokenizer value).map fun word =>
      nlp.cheekyHash (key ++ " " ++ word)) field true cache
  else mergeBitmaps keys [nlp.cheekyHash key] field false cache

def SearchOperator.isTextual (op : SearchOperator) : Bool :=
  op = .contains ∨ op = .equal

def accountLeaf (nlp : Nlp H) (keys : IndexKeys H) :
    SearchLeaf → BitmapCache H → Except QueryError (Option (Option Bitmap) × BitmapCache H)
  | .documentSet set, cache => .ok (some (some set), cache)
  | .operator field op value, cache =>
    if field = .accountId then .ok (none, cache)
    else if field.isText && op.isTextual then
      match value with
      | .text value language =>
        let (result, cache) := queryText nlp keys field.u8Id op value language cache
        .ok (some result, cache)
      | _ => .error .expectedText
    else if field.isJson then
      match value with
      | .keyValues ((key, value) :: _) =>
        let (result, cache) := queryJson nlp keys field.u8Id key value cache
        .ok (some result, cache)
      | .keyValues [] => .error .emptyKeyValues
      | _ => .error .expectedText
    else if field.isIndexed then
      match value.fieldBytes (List.take searchIndexMaxFieldLen) with
      | some bytes => .ok (some (rangeToBitmap keys 4 field.u8Id bytes op), cache)
      | none => .error .expectedNonKeyValue
    else .error (.notIndexed field)

def accountBackend (nlp : Nlp H) (keys : IndexKeys H) : Backend (BitmapCache H) QueryError Nat where
  leaf := accountLeaf nlp keys
  group _ := .ok ()

/-! ## What a leaf asks for -/

/-- Whether document `d` has the text: all its words, or all its stems. A text
without words matches nothing. -/
def matchesText (nlp : Nlp H) (keys : IndexKeys H) (field : Nat) (op : SearchOperator)
    (value : String) (language : Language) (d : Nat) : Bool :=
  if op = .equal then
    let words := nlp.tokenizeText language value
    !words.isEmpty && words.all fun word => keys.hasTerm (nlp.cheekyHash word) field d
  else
    let tokens := nlp.stemmer language value
    !tokens.isEmpty && tokens.all fun token =>
      (stemHashes nlp token).any fun hash => keys.hasTerm hash field d

/-- Whether document `d` has the header, or one of the words in it. -/
def matchesJson (nlp : Nlp H) (keys : IndexKeys H) (field : Nat) (key value : String)
    (d : Nat) : Bool :=
  if value ≠ "" then
    (nlp.spaceTokenizer value).any fun word =>
      keys.hasTerm (nlp.cheekyHash (key ++ " " ++ word)) field d
  else keys.hasTerm (nlp.cheekyHash key) field d

/-- Whether document `d` has a value of the field that compares as asked. -/
def matchesField (keys : IndexKeys H) (field : Nat) (op : SearchOperator) (bytes : Bytes)
    (d : Nat) : Bool :=
  keys.fields.any fun k =>
    decide (k.field = field) && decide (k.id = d) && op.compares k.data bytes

def matchesOperator (nlp : Nlp H) (keys : IndexKeys H) (field : SearchField)
    (op : SearchOperator) (value : SearchValue) (d : Nat) : Bool :=
  if field.isText && op.isTextual then
    match value with
    | .text value language => matchesText nlp keys field.u8Id op value language d
    | _ => false
  else if field.isJson then
    match value with
    | .keyValues ((key, value) :: _) => matchesJson nlp keys field.u8Id key value d
    | _ => false
  else
    match value.fieldBytes (List.take searchIndexMaxFieldLen) with
    | some bytes => matchesField keys field.u8Id op bytes d
    | none => false

def IndexKeys.ids (keys : IndexKeys H) : Bitmap :=
  (keys.terms.map TermKey.id ++ keys.fields.map FieldKey.id).toFinset

def operatorDocuments (nlp : Nlp H) (keys : IndexKeys H) (field : SearchField)
    (op : SearchOperator) (value : SearchValue) : Bitmap :=
  keys.ids.filter fun d => matchesOperator nlp keys field op value d = true

/-- What each leaf contributes: the account selects the index and is no member. -/
def accountVal (nlp : Nlp H) (keys : IndexKeys H) : SearchLeaf → Option (Option Bitmap)
  | .documentSet set => some (some set)
  | .operator field op value =>
    if field = .accountId then none
    else some (someNonempty (operatorDocuments nlp keys field op value))

/-- Leaves that have a value of the kind the field wants and whose scan, if they
compare, covers the values that match. -/
def answerable (keys : IndexKeys H) : SearchLeaf → Bool
  | .documentSet _ => true
  | .operator field op value =>
    if field = .accountId then true
    else if field.isText && op.isTextual then
      match value with
      | .text _ _ => true
      | _ => false
    else if field.isJson then
      match value with
      | .keyValues (_ :: _) => true
      | _ => false
    else
      field.isIndexed &&
        match value.fieldBytes (List.take searchIndexMaxFieldLen) with
        | some bytes => scanCovers keys 4 field.u8Id bytes op
        | none => false

variable {d : Nat} {keys : IndexKeys H} {field : Nat}

theorem mem_ids_of_hasTerm {hash : H}
    (h : keys.hasTerm hash field d = true) : d ∈ keys.ids := by
  rw [IndexKeys.hasTerm, decide_eq_true_eq] at h
  rw [IndexKeys.ids, mem_toFinset, mem_append]
  exact Or.inl (mem_map.mpr ⟨_, h, rfl⟩)

variable {nlp : Nlp H} {op : SearchOperator}

theorem eq_operatorDocuments {field : SearchField} {value : SearchValue} {bm : Bitmap}
    (h : ∀ d, d ∈ bm ↔ matchesOperator nlp keys field op value d = true)
    (hids : ∀ d ∈ bm, d ∈ keys.ids) : bm = operatorDocuments nlp keys field op value := by
  ext d
  rw [operatorDocuments, Finset.mem_filter, ← h]
  exact ⟨fun hd => ⟨hids d hd, hd⟩, And.right⟩

/-- The tokens that are still to come, intersected with a running result that is
not empty any more. -/
theorem containsFrom_inter (nlp : Nlp H) (field : Nat)
    (tokens : List (String × Option String)) (result : Bitmap) (hr : result ≠ ∅)
    {cache : BitmapCache H} (hc : CacheOk keys cache) :
    ∃ cache', CacheOk keys cache' ∧ containsFrom nlp keys field tokens result cache =
      (tokens.foldl (fun bm token => bm ∩ someTerm keys field (stemHashes nlp token)) result,
        cache') := by
  have hempty (tokens : List (String × Option String)) :
      tokens.foldl (fun bm token => bm ∩ someTerm keys field (stemHashes nlp token)) ∅ = ∅ := by
    induction tokens with
    | nil => rfl
    | cons token tokens ih => simpa using ih
  induction tokens generalizing result cache with
  | nil => exact ⟨cache, hc, rfl⟩
  | cons token tokens ih =>
    obtain ⟨cache1, hc1, hm⟩ := mergeBitmaps_spec (stemHashes nlp token) field true hc
    by_cases hu : someTerm keys field (stemHashes nlp token) = ∅
    · refine ⟨cache1, hc1, ?_⟩
      simp [containsFrom, hm, hu, someNonempty, hempty]
    · by_cases hi : result ∩ someTerm keys field (stemHashes nlp token) = ∅
      · refine ⟨cache1, hc1, ?_⟩
        simp [containsFrom, hm, hu, hi, hr, someNonempty, hempty]
      · obtain ⟨cache', hc', hrun⟩ := ih _ hi hc1
        exact ⟨cache', hc', by simpa [containsFrom, hm, hu, hi, hr, someNonempty] using hrun⟩

theorem containsFrom_spec (nlp : Nlp H) (field : Nat)
    (tokens : List (String × Option String)) {cache : BitmapCache H} (hc : CacheOk keys cache) :
    ∃ bm cache', CacheOk keys cache' ∧ containsFrom nlp keys field tokens ∅ cache = (bm, cache') ∧
      ∀ d, d ∈ bm ↔ tokens ≠ [] ∧ ∀ token ∈ tokens, ∃ hash ∈ stemHashes nlp token,
        keys.hasTerm hash field d = true := by
  have hfold (tokens : List (String × Option String)) (bm : Bitmap) (d : Nat) :
      d ∈ tokens.foldl (fun bm token => bm ∩ someTerm keys field (stemHashes nlp token)) bm ↔
        d ∈ bm ∧ ∀ token ∈ tokens, ∃ hash ∈ stemHashes nlp token, keys.hasTerm hash field d = true := by
    induction tokens generalizing bm with
    | nil => simp
    | cons token tokens ih => simp [ih, mem_someTerm, and_assoc]
  cases tokens with
  | nil => exact ⟨∅, cache, hc, rfl, by simp⟩
  | cons token tokens =>
    obtain ⟨cache1, hc1, hm⟩ := mergeBitmaps_spec (stemHashes nlp token) field true hc
    by_cases hu : someTerm keys field (stemHashes nlp token) = ∅
    · refine ⟨∅, cache1, hc1, by simp [containsFrom, hm, hu, someNonempty], fun d => ?_⟩
      have hd : d ∉ someTerm keys field (stemHashes nlp token) := by simp [hu]
      rw [mem_someTerm] at hd
      simp only [Finset.notMem_empty, forall_mem_cons, false_iff]
      exact fun h => hd h.2.1
    · obtain ⟨cache', hc', hrun⟩ := containsFrom_inter nlp field tokens _ hu hc1
      refine ⟨tokens.foldl (fun bm token => bm ∩ someTerm keys field (stemHashes nlp token))
        (someTerm keys field (stemHashes nlp token)), cache', hc', ?_, fun d => ?_⟩
      · simpa [containsFrom, hm, hu, someNonempty] using hrun
      · rw [hfold, mem_someTerm]
        simp

theorem queryText_spec (nlp : Nlp H) (field : Nat) (op : SearchOperator)
    (value : String) (language : Language) {cache : BitmapCache H} (hc : CacheOk keys cache) :
    ∃ bm cache', CacheOk keys cache' ∧
      queryText nlp keys field op value language cache = (someNonempty bm, cache') ∧
      ∀ d, d ∈ bm ↔ matchesText nlp keys field op value language d = true := by
  by_cases hop : op = .equal
  · obtain ⟨cache', hc', hm⟩ := mergeBitmaps_spec
      ((nlp.tokenizeText language value).map nlp.cheekyHash) field false hc
    refine ⟨_, cache', hc', by simpa [queryText, hop] using hm, fun d => ?_⟩
    simp [matchesText, hop, mem_allTerms]
  · obtain ⟨bm, cache', hc', hm, hbm⟩ := containsFrom_spec nlp field (nlp.stemmer language value) hc
    refine ⟨bm, cache', hc', by simp [queryText, hop, hm], fun d => ?_⟩
    rw [hbm]
    simp [matchesText, hop]

theorem queryJson_spec (nlp : Nlp H) (field : Nat) (key value : String)
    {cache : BitmapCache H} (hc : CacheOk keys cache) :
    ∃ bm cache', CacheOk keys cache' ∧
      queryJson nlp keys field key value cache = (someNonempty bm, cache') ∧
      ∀ d, d ∈ bm ↔ matchesJson nlp keys field key value d = true := by
  by_cases hv : value = ""
  · obtain ⟨cache', hc', hm⟩ := mergeBitmaps_spec [nlp.cheekyHash key] field false hc
    refine ⟨_, cache', hc', by simpa [queryJson, hv] using hm, fun d => ?_⟩
    simp [matchesJson, hv, mem_allTerms]
  · obtain ⟨cache', hc', hm⟩ := mergeBitmaps_spec ((nlp.spaceTokenizer value).map fun word =>
      nlp.cheekyHash (key ++ " " ++ word)) field true hc
    refine ⟨_, cache', hc', by simpa [queryJson, hv] using hm, fun d => ?_⟩
    simp [matchesJson, hv, mem_someTerm]

theorem matchesText_mem_ids {value : String} {language : Language}
    (h : matchesText nlp keys field op value language d = true) : d ∈ keys.ids := by
  unfold matchesText at h
  split at h
  · simp only [Bool.and_eq_true, Bool.not_eq_true', isEmpty_eq_false_iff, all_eq_true] at h
    obtain ⟨word, hw⟩ := exists_mem_of_ne_nil _ h.1
    exact mem_ids_of_hasTerm (h.2 word hw)
  · simp only [Bool.and_eq_true, Bool.not_eq_true', isEmpty_eq_false_iff, all_eq_true, any_eq_true] at h
    obtain ⟨token, ht⟩ := exists_mem_of_ne_nil _ h.1
    obtain ⟨hash, -, hh⟩ := h.2 token ht
    exact mem_ids_of_hasTerm hh

theorem matchesJson_mem_ids {key value : String}
    (h : matchesJson nlp keys field key value d = true) : d ∈ keys.ids := by
  unfold matchesJson at h
  split at h
  · obtain ⟨word, -, hw⟩ := any_eq_true.mp h
    exact mem_ids_of_hasTerm hw
  · exact mem_ids_of_hasTerm h

omit [DecidableEq H] in
theorem mem_rangeDocuments {bytes : Bytes} :
    d ∈ rangeDocuments keys field bytes op ↔ matchesField keys field op bytes d = true := by
  simp only [rangeDocuments, matchesField, mem_toFinset, mem_map, mem_filter,
    any_eq_true, Bool.and_eq_true, decide_eq_true_eq]
  constructor
  · rintro ⟨k, ⟨hk, hf, hcmp⟩, hid⟩
    exact ⟨k, hk, ⟨hf, hid⟩, hcmp⟩
  · rintro ⟨k, hk, ⟨hf, hid⟩, hcmp⟩
    exact ⟨k, ⟨hk, hf, hcmp⟩, hid⟩

omit [DecidableEq H] in
theorem matchesField_mem_ids
    {bytes : Bytes} (h : matchesField keys field op bytes d = true) : d ∈ keys.ids := by
  simp only [matchesField, any_eq_true, Bool.and_eq_true, decide_eq_true_eq] at h
  obtain ⟨k, hk, ⟨-, rfl⟩, -⟩ := h
  rw [IndexKeys.ids, mem_toFinset, mem_append]
  exact Or.inr (mem_map.mpr ⟨k, hk, rfl⟩)

section Operators

variable (nlp : Nlp H) {keys : IndexKeys H} {field : SearchField} {op : SearchOperator}
  {value : SearchValue} {cache : BitmapCache H}

variable (hacc : field ≠ .accountId)
include hacc

theorem accountLeaf_text (htext : (field.isText && op.isTextual) = true)
    (ha : answerable keys (.operator field op value) = true) (hc : CacheOk keys cache) :
    ∃ cache', accountLeaf nlp keys (.operator field op value) cache =
      .ok (accountVal nlp keys (.operator field op value), cache') ∧ CacheOk keys cache' := by
  cases value with
  | text value language =>
    obtain ⟨bm, cache', hc', hq, hbm⟩ := queryText_spec nlp field.u8Id op value language hc
    have he : bm = operatorDocuments nlp keys field op (.text value language) :=
      eq_operatorDocuments (fun d => by simp [hbm, matchesOperator, htext])
        (fun d hd => matchesText_mem_ids ((hbm d).mp hd))
    refine ⟨cache', ?_, hc'⟩
    simp [accountLeaf, accountVal, hacc, htext, hq, he]
  | keyValues kv | int v | uint v | boolean v => simp [answerable, hacc, htext] at ha

theorem accountLeaf_json (htext : (field.isText && op.isTextual) = false) (hjson : field.isJson = true)
    (ha : answerable keys (.operator field op value) = true) (hc : CacheOk keys cache) :
    ∃ cache', accountLeaf nlp keys (.operator field op value) cache =
      .ok (accountVal nlp keys (.operator field op value), cache') ∧ CacheOk keys cache' := by
  cases value with
  | keyValues kv =>
    cases kv with
    | nil => simp [answerable, hacc, htext, hjson] at ha
    | cons entry kv =>
      obtain ⟨bm, cache', hc', hq, hbm⟩ := queryJson_spec nlp field.u8Id entry.1 entry.2 hc
      have he : bm = operatorDocuments nlp keys field op (.keyValues (entry :: kv)) :=
        eq_operatorDocuments (fun d => by
          simp [hbm, matchesOperator, htext, hjson])
          (fun d hd => matchesJson_mem_ids ((hbm d).mp hd))
      refine ⟨cache', ?_, hc'⟩
      simp [accountLeaf, accountVal, hacc, htext, hjson, hq, he]
  | text value language | int v | uint v | boolean v => simp [answerable, hacc, htext, hjson] at ha

theorem accountLeaf_field (htext : (field.isText && op.isTextual) = false) (hjson : field.isJson = false)
    (ha : answerable keys (.operator field op value) = true) :
    accountLeaf nlp keys (.operator field op value) cache =
      .ok (accountVal nlp keys (.operator field op value), cache) := by
  simp only [answerable, hacc, htext, hjson, if_false, Bool.false_eq_true, Bool.and_eq_true] at ha
  obtain ⟨hidx, ha⟩ := ha
  cases hbytes : value.fieldBytes (List.take searchIndexMaxFieldLen) with
  | none => simp [hbytes] at ha
  | some bytes =>
    rw [hbytes] at ha
    have he : rangeDocuments keys field.u8Id bytes op = operatorDocuments nlp keys field op value :=
      eq_operatorDocuments (fun d => by
        simp [mem_rangeDocuments, matchesOperator, htext, hjson, hbytes])
        (fun d hd => matchesField_mem_ids (mem_rangeDocuments.mp hd))
    simp [accountLeaf, accountVal, hacc, htext, hjson, hidx, hbytes, rangeToBitmap_eq ha, he]

omit hacc

end Operators

/-- Every answerable leaf contributes the documents that match it, whatever was
evaluated before it. -/
theorem accountSpec (nlp : Nlp H) (keys : IndexKeys H) :
    LeafSpec (accountVal nlp keys) (accountBackend nlp keys) (CacheOk keys)
      (fun a => answerable keys a = true) where
  leaf := by
    intro a cache ha hc
    cases a with
    | documentSet set => exact ⟨cache, rfl, hc⟩
    | operator field op value =>
      by_cases hacc : field = .accountId
      · exact ⟨cache, by simp [accountBackend, accountLeaf, accountVal, hacc], hc⟩
      · cases htext : field.isText && op.isTextual with
        | true => exact accountLeaf_text nlp hacc htext ha hc
        | false =>
          cases hjson : field.isJson with
          | true => exact accountLeaf_json nlp hacc htext hjson ha hc
          | false => exact ⟨cache, accountLeaf_field nlp hacc htext hjson ha, hc⟩

/-! ## `query_account` -/

def u32Max : Nat := 2 ^ 32 - 1

def SearchFilter.accountId? : SearchFilter → Option Nat
  | .operator .accountId _ (.uint id) => some (id % 2 ^ 32)
  | _ => none

/-- The account of a query: the first one its filters name. -/
def accountOf (fs : List SearchFilter) : Nat :=
  (fs.findSome? SearchFilter.accountId?).getD u32Max

def SearchComparator.resolve (keys : IndexKeys H) : SearchComparator → SearchComparator
  | .field f ascending => .sortedSet (sortOrder keys 4 f.u8Id) ascending
  | c => c

def sortResults (keys : IndexKeys H) (results : Bitmap) (comparators : List SearchComparator) :
    List Nat :=
  if results.card > 1 ∧ comparators ≠ [] then
    QueryResults.intoSorted ⟨results, comparators.map (·.resolve keys)⟩
  else results.sort (· ≤ ·)

def queryAccount (nlp : Nlp H) (store : SearchStore H) (q : SearchQuery) :
    Except QueryError (List Nat) :=
  let accountId := accountOf q.filters
  if accountId = u32Max then .error .missingAccountId
  else
    let keys := store q.index (.account accountId)
    if q.filters.length > 1 then
      match evalLoop (accountBackend nlp keys) q.mask q.filters false (fun _ => none)
          ⟨.and, none⟩ [] with
      | .ok state => .ok (sortResults keys (state.bm.getD ∅ ∩ q.mask) q.comparators)
      | .error e => .error e
    else .ok (sortResults keys q.mask q.comparators)

omit [DecidableEq H] in
theorem mem_sortResults (keys : IndexKeys H) (results : Bitmap)
    (comparators : List SearchComparator) (d : Nat) :
    d ∈ sortResults keys results comparators ↔ d ∈ results := by
  unfold sortResults
  split
  · exact QueryResults.mem_intoSorted _ d
  · exact Finset.mem_sort _

omit [DecidableEq H] in
theorem nodup_sortResults (keys : IndexKeys H) (results : Bitmap)
    (comparators : List SearchComparator) : (sortResults keys results comparators).Nodup := by
  unfold sortResults
  split
  · exact QueryResults.nodup_intoSorted _
  · exact Finset.sort_nodup _ _

def Enumerates (ids : List Nat) (set : Bitmap) : Prop := ids.Nodup ∧ ids.toFinset = set

omit [DecidableEq H] in
theorem enumerates_sortResults (keys : IndexKeys H) (results : Bitmap)
    (comparators : List SearchComparator) :
    Enumerates (sortResults keys results comparators) results := by
  refine ⟨nodup_sortResults keys results comparators, ?_⟩
  ext d
  rw [mem_toFinset, mem_sortResults]

theorem cacheOk_empty (keys : IndexKeys H) : CacheOk keys (fun _ => none) := by
  intro hash field bm h
  simp at h

theorem queryAccount_of_run {store : SearchStore H} {q : SearchQuery}
    {accountId : Nat} {state : State Nat} (hacc : accountOf q.filters = accountId)
    (hid : accountId < u32Max) (hlen : 1 < q.filters.length)
    (h : evalLoop (accountBackend nlp (store q.index (.account accountId))) q.mask
      q.filters false (fun _ => none) ⟨.and, none⟩ [] = .ok state) :
    ∃ ids, queryAccount nlp store q = .ok ids ∧ Enumerates ids (state.bm.getD ∅ ∩ q.mask) := by
  refine ⟨_, ?_, enumerates_sortResults (store q.index (.account accountId)) _ q.comparators⟩
  simp [queryAccount, hacc, Nat.ne_of_lt hid, hlen, h]

theorem reference_single {f : Forest SearchLeaf}
    (mask : Bitmap) (hlen : (filters f).length ≤ 1) (hacc : accountOf (filters f) ≠ u32Max) :
    reference mask (accountVal nlp keys) f = mask := by
  cases f with
  | nil => simp [filters, Forest.render, accountOf] at hacc
  | leaf a rest =>
    cases rest with
    | nil =>
      cases a with
      | documentSet set =>
        simp [filters, Forest.render, SearchLeaf.toFilter, accountOf, SearchFilter.accountId?] at hacc
      | operator field op value =>
        by_cases hf : field = .accountId
        · simp [reference, Forest.values, leafSet, accountVal, hf, Op.combine]
        · refine absurd ?_ hacc
          cases field <;> simp_all [filters, Forest.render, SearchLeaf.toFilter, accountOf,
            SearchFilter.accountId?]
    | leaf b rest | group o members rest => simp [filters, Forest.render] at hlen
  | group o members rest =>
    simp [filters_group] at hlen

/-- The answer to a query whose leaves can be answered and whose list stays in
step with its brackets. -/
theorem queryAccount_eq_reference {store : SearchStore H} {q : SearchQuery}
    {f : Forest SearchLeaf} {accountId : Nat} (hq : q.filters = filters f)
    (hacc : accountOf (filters f) = accountId) (hid : accountId < u32Max)
    (hok : ∀ a ∈ f.leaves, answerable (store q.index (.account accountId)) a = true)
    (hsync : topInSync q.mask (accountVal nlp (store q.index (.account accountId))) f none = true)
    (hpop : populated (accountVal nlp (store q.index (.account accountId))) f = true)
    (hmem : (filters f).length ≤ 1 ∨
      hasMember (accountVal nlp (store q.index (.account accountId))) f = true) :
    ∃ ids, queryAccount nlp store q = .ok ids ∧ Enumerates ids
      (reference q.mask (accountVal nlp (store q.index (.account accountId))) f) := by
  by_cases hlen : (filters f).length ≤ 1
  · refine ⟨_, ?_, enumerates_sortResults (store q.index (.account accountId)) _ q.comparators⟩
    have hn : ¬ 1 < (filters f).length := by omega
    have hne : accountOf (filters f) ≠ u32Max := by
      rw [hacc]
      exact Nat.ne_of_lt hid
    simp [queryAccount, hq, hacc, Nat.ne_of_lt hid, hn, reference_single q.mask hlen hne]
  · have hmem' := hmem.resolve_left hlen
    have hrun := evalLoop_top (accountSpec nlp (store q.index (.account accountId)))
      f (accepted_of_leaves (fun _ => rfl) f hok) none _ (cacheOk_empty _) hsync
    rw [← running_inter_mask f hpop hmem']
    rw [← hq] at hrun hacc hlen
    exact queryAccount_of_run hacc hid (by omega) hrun

/-! ## Groups inside other queries -/

/-- A query of one account: a group inside `Or` groups that each end with one more set. -/
def accountQuery (accountId : Nat) (us : List Bitmap) (op : Op) (f : Forest SearchLeaf) :
    Forest SearchLeaf :=
  .leaf (accountFilter accountId) (.inside (us.map .documentSet) (.group op f .nil))

theorem accountOf_accountQuery {accountId : Nat} (hid : accountId < u32Max) (us : List Bitmap)
    (op : Op) (f : Forest SearchLeaf) :
    accountOf (filters (accountQuery accountId us op f)) = accountId := by
  exact Nat.mod_eq_of_lt (by unfold u32Max at hid; omega)

theorem inside_group (us : List SearchLeaf) (op : Op) (f : Forest SearchLeaf) :
    ∃ op' f', Forest.inside us (.group op f .nil) = .group op' f' .nil := by
  induction us generalizing op f with
  | nil => exact ⟨op, f, rfl⟩
  | cons u us ih => exact ih .or _

omit [DecidableEq H] in
theorem leaves_inside (us : List Bitmap) (op : Op) (f : Forest SearchLeaf)
    (hok : ∀ a ∈ f.leaves, answerable keys a = true) :
    ∀ a ∈ (Forest.inside (us.map .documentSet) (.group op f .nil)).leaves, answerable keys a = true := by
  induction us generalizing op f with
  | nil => simpa [Forest.inside, Forest.leaves] using hok
  | cons u us ih =>
    refine ih .or (.group op f (.leaf (.documentSet u) .nil)) ?_
    intro a ha
    rcases mem_append.mp ha with ha | ha
    · exact hok a ha
    · obtain rfl : a = .documentSet u := by simpa [Forest.leaves] using ha
      rfl

section Contexts

variable {nlp : Nlp H} {store : SearchStore H} {index : SearchIndex}
  {comparators : List SearchComparator} {mask : Bitmap} {accountId : Nat} {op : Op}
  {f : Forest SearchLeaf}

/-- A group that stays in step is evaluated as the reference says, wherever it stands. -/
theorem queryAccount_of_inSync (hid : accountId < u32Max)
    (hok : ∀ a ∈ f.leaves, answerable (store index (.account accountId)) a = true)
    (hpop : populated (accountVal nlp (store index (.account accountId))) (.group op f .nil) = true)
    (hin : inSync mask (accountVal nlp (store index (.account accountId))) f op none = true)
    (us : List Bitmap) :
    ∃ ids, queryAccount nlp store
        ⟨index, filters (accountQuery accountId us op f), comparators, mask⟩ = .ok ids ∧
      Enumerates ids (reference mask (accountVal nlp (store index (.account accountId)))
        (accountQuery accountId us op f)) := by
  obtain ⟨op', f', hg⟩ := inside_group (us.map .documentSet) op f
  have hskip : accountVal nlp (store index (.account accountId)) (accountFilter accountId) = none :=
    rfl
  apply queryAccount_eq_reference rfl (accountOf_accountQuery hid us op f) hid
  · intro a ha
    rcases mem_cons.mp ha with rfl | ha
    · rfl
    · exact leaves_inside us op f hok a ha
  · have hs := inSync_inside (fun _ => rfl) us op f hin
    simpa [accountQuery, topInSync, hskip] using hs
  · exact populated_inside us op f hpop
  · right
    simp [accountQuery, hg, hasMember]

theorem queryAccount_empty (hid : accountId < u32Max)
    (hok : ∀ a ∈ f.leaves, answerable (store index (.account accountId)) a = true)
    (hin : inSync mask (accountVal nlp (store index (.account accountId))) f op none = false) :
    ∃ us, mask ∈ us ∧ queryAccount nlp store
      ⟨index, filters (accountQuery accountId us op f), comparators, mask⟩ = .ok [] := by
  have hn : inSync mask (accountVal nlp (store index (.account accountId)))
      (.group op f .nil) .or none = false := by
    simp [inSync, hin]
  have hplain : PlainSets (accountBackend nlp (store index (.account accountId))) :=
    ⟨rfl, fun _ _ => rfl⟩
  have hgroup : ∀ a ∈ (Forest.group op f .nil).leaves,
      answerable (store index (.account accountId)) a = true := by
    simpa [Forest.leaves] using hok
  obtain ⟨us, hus, state, hbm, hrun⟩ := evalLoop_inside_empty (accountSpec nlp
    (store index (.account accountId))) hplain
    (accepted_of_leaves (fun _ => rfl) (.group op f .nil) hgroup) (cacheOk_empty _) hn
  have hlen : 1 < (filters (accountQuery accountId us op f)).length := by
    obtain ⟨op', f', hg⟩ := inside_group (us.map .documentSet) op f
    simp [accountQuery, hg, filters, Forest.render]
  refine ⟨us, hus, ?_⟩
  have hfull : evalLoop (accountBackend nlp (store index (.account accountId))) mask
      (filters (accountQuery accountId us op f)) false (fun _ => none) ⟨.and, none⟩ [] =
        .ok state := by
    refine Eq.trans ?_ hrun
    exact evalLoop_leaf_continue (accountBackend nlp (store index (.account accountId))) mask _
      (fun _ => none) ⟨.and, none⟩ [] (a := accountFilter accountId) rfl
  obtain ⟨ids, hids, -, hset⟩ : ∃ ids, queryAccount nlp store
      ⟨index, filters (accountQuery accountId us op f), comparators, mask⟩ = .ok ids ∧
        Enumerates ids (state.bm.getD ∅ ∩ mask) :=
    queryAccount_of_run (accountOf_accountQuery hid us op f) hid hlen hfull
  rw [hbm] at hset
  obtain rfl : ids = [] := by simpa using hset
  exact hids

end Contexts

/-- An index with two messages, of sizes 10 and 20, in account 7. -/
def sizesStore : SearchStore String
  | .email, .account 7 =>
    { terms := [], fields := [⟨12, beBytes 8 10, 1⟩, ⟨12, beBytes 8 20, 2⟩] }
  | _, _ => { terms := [], fields := [] }

/-- Words are cut at blanks; no language is stemmed and short terms are their own hash. -/
def plainNlp : Nlp String where
  tokenizeText _ text := text.splitOn " "
  stemmer _ text := (text.splitOn " ").map fun word => (word, none)
  spaceTokenizer text := text.splitOn " "
  cheekyHash word := word

def largerThan15 : Forest SearchLeaf :=
  .leaf (.operator (.email .size) .greaterThan (.uint 15)) (.leaf (.documentSet {1, 2}) .nil)

def nestedAndOfSizes : Forest SearchLeaf :=
  .group .or (.group .and (.leaf (.operator (.email .size) .greaterThan (.uint 30))
    (.group .or (.leaf (.operator (.email .size) .greaterThan (.uint 15)) .nil)
      (.leaf (.documentSet {1}) .nil))) .nil) .nil

end Bearmail.Search
