import Mathlib.Data.Finset.Sort
import Bearmail.Lib.Nested

/-!
# Search queries

The data model of `crates/store/src/search/mod.rs` and `fields.rs`: fields,
values, the flat filter list, comparators and the query. A roaring bitmap is a
finite set of document ids.
-/

namespace Bearmail.Search

open Nested

abbrev Bitmap := Finset Nat

inductive SearchIndex where
  | email | calendar | contacts | file | tracing | inMemory
  deriving DecidableEq, Repr

inductive SearchOperator where
  | lowerThan | lowerEqualThan | greaterThan | greaterEqualThan | equal | contains
  deriving DecidableEq, Repr

inductive EmailSearchField where
  | «from» | to | cc | bcc | subject | body | attachment | receivedAt | sentAt | size
  | hasAttachment | headers
  deriving DecidableEq, Repr

inductive CalendarSearchField where
  | title | description | location | owner | attendee | start | uid
  deriving DecidableEq, Repr

inductive ContactSearchField where
  | member | kind | name | nickname | organization | email | phone | onlineService | address
  | note | uid
  deriving DecidableEq, Repr

inductive FileSearchField where
  | name | content
  deriving DecidableEq, Repr

inductive TracingSearchField where
  | eventType | queueId | keywords
  deriving DecidableEq, Repr

inductive SearchField where
  | accountId
  | documentId
  | id
  | email (field : EmailSearchField)
  | calendar (field : CalendarSearchField)
  | contact (field : ContactSearchField)
  | file (field : FileSearchField)
  | tracing (field : TracingSearchField)
  deriving DecidableEq, Repr

/-- The languages a text value can be tagged with. -/
inductive Language where
  | esperanto | english | russian | mandarin | spanish | portuguese | italian | bengali | french
  | german | ukrainian | georgian | arabic | hindi | japanese | hebrew | yiddish | polish
  | amharic | javanese | korean | bokmal | danish | swedish | finnish | turkish | dutch
  | hungarian | czech | greek | bulgarian | belarusian | marathi | kannada | romanian | slovene
  | croatian | serbian | macedonian | lithuanian | latvian | estonian | tamil | vietnamese
  | urdu | thai | gujarati | uzbek | punjabi | azerbaijani | indonesian | telugu | persian
  | malayalam | oriya | burmese | nepali | sinhalese | khmer | turkmen | akan | zulu | shona
  | afrikaans | latin | slovak | catalan | tagalog | armenian | unknown | none
  deriving DecidableEq, Repr

/-- `Int` and `Uint` are 64-bit values in the source. -/
inductive SearchValue where
  | text (value : String) (language : Language)
  | keyValues (kv : List (String × String))
  | int (v : Int)
  | uint (v : Nat)
  | boolean (v : Bool)
  deriving DecidableEq, Repr

/-- The flat filter list: leaves, group openings and `End`. -/
inductive SearchFilter where
  | operator (field : SearchField) (op : SearchOperator) (value : SearchValue)
  | documentSet (set : Bitmap)
  | and
  | or
  | not
  | endGroup
  deriving DecidableEq

inductive SearchLeaf where
  | operator (field : SearchField) (op : SearchOperator) (value : SearchValue)
  | documentSet (set : Bitmap)
  deriving DecidableEq

def SearchLeaf.toFilter : SearchLeaf → SearchFilter
  | .operator field op value => .operator field op value
  | .documentSet set => .documentSet set

def SearchFilter.ofOp : Op → SearchFilter
  | .and => .and
  | .or => .or
  | .not => .not

def SearchFilter.token : SearchFilter → Token SearchLeaf
  | .operator field op value => .leaf (.operator field op value)
  | .documentSet set => .leaf (.documentSet set)
  | .and => .opening .and
  | .or => .opening .or
  | .not => .opening .not
  | .endGroup => .closing

@[simp] theorem SearchLeaf.token_toFilter (a : SearchLeaf) : a.toFilter.token = .leaf a := by
  cases a <;> rfl

@[simp] theorem SearchFilter.token_ofOp (op : Op) : (ofOp op).token = .opening op := by
  cases op <;> rfl

def accountFilter (accountId : Nat) : SearchLeaf := .operator .accountId .equal (.uint accountId)

def filters (f : Forest SearchLeaf) : List SearchFilter :=
  f.render SearchLeaf.toFilter .ofOp .endGroup

def readFilters (fs : List SearchFilter) : Option (Forest SearchLeaf) :=
  Forest.read (fs.map SearchFilter.token)

theorem filters_group (op : Op) (members rest : Forest SearchLeaf) : filters (.group op members rest) =
      .ofOp op :: (filters members ++ .endGroup :: filters rest) := rfl

theorem filters_group_append (op : Op) (members rest : Forest SearchLeaf) (fs : List SearchFilter) :
    filters (.group op members rest) ++ fs =
      .ofOp op :: (filters members ++ .endGroup :: (filters rest ++ fs)) := by
  simp [filters_group]

theorem map_token_filters (f : Forest SearchLeaf) : (filters f).map SearchFilter.token = f.tokens := by
  rw [filters, Forest.map_render]
  congr 1
  · funext a; simp
  · funext op; simp

theorem token_injective : Function.Injective SearchFilter.token := by
  intro a b h
  cases a <;> cases b <;> simp_all [SearchFilter.token]

theorem readFilters_eq_some {fs : List SearchFilter} {f : Forest SearchLeaf} :
    readFilters fs = some f ↔ fs = filters f := by
  constructor
  · intro h
    have ht := Forest.tokens_of_read h
    rw [← map_token_filters] at ht
    exact List.map_injective_iff.mpr token_injective ht
  · rintro rfl
    rw [readFilters, map_token_filters, Forest.read_tokens]

/-- `AHashMap<u32, u32>` of a sorted set: the position of every document that has one. -/
inductive SearchComparator where
  | field (field : SearchField) (ascending : Bool)
  | documentSet (set : Bitmap) (ascending : Bool)
  | sortedSet (set : Nat → Option Nat) (ascending : Bool)

structure SearchQuery where
  index : SearchIndex
  filters : List SearchFilter
  comparators : List SearchComparator
  mask : Bitmap

structure QueryResults where
  results : Bitmap
  comparators : List SearchComparator

/-! ## Field classes (`fields.rs`) -/

def EmailSearchField.isIndexed : EmailSearchField → Bool
  | .from | .to | .subject | .receivedAt | .sentAt | .size | .hasAttachment => true
  | _ => false

def EmailSearchField.isText : EmailSearchField → Bool
  | .from | .to | .cc | .bcc | .subject | .body | .attachment => true
  | _ => false

def CalendarSearchField.isIndexed : CalendarSearchField → Bool
  | .start | .uid => true
  | _ => false

def ContactSearchField.isIndexed : ContactSearchField → Bool
  | .uid | .kind => true
  | _ => false

def TracingSearchField.isIndexed : TracingSearchField → Bool
  | .queueId | .eventType => true
  | _ => false

def TracingSearchField.isText : TracingSearchField → Bool
  | .keywords => true
  | _ => false

def SearchField.isIndexed : SearchField → Bool
  | .email field => field.isIndexed
  | .calendar field => field.isIndexed
  | .contact field => field.isIndexed
  | .file _ => false
  | .tracing field => field.isIndexed
  | .accountId | .documentId | .id => false

def SearchField.isText : SearchField → Bool
  | .email field => field.isText
  | .calendar field => !field.isIndexed
  | .contact field => !field.isIndexed
  | .file _ => true
  | .tracing field => field.isText
  | .accountId | .documentId | .id => false

def SearchField.isJson : SearchField → Bool
  | .email .headers => true
  | _ => false

def SearchField.u8Id : SearchField → Nat
  | .accountId => 0
  | .documentId => 1
  | .id => 2
  | .email .from => 3
  | .email .to => 4
  | .email .cc => 5
  | .email .bcc => 6
  | .email .subject => 7
  | .email .body => 8
  | .email .attachment => 9
  | .email .receivedAt => 10
  | .email .sentAt => 11
  | .email .size => 12
  | .email .hasAttachment => 13
  | .email .headers => 14
  | .calendar .title => 3
  | .calendar .description => 4
  | .calendar .location => 5
  | .calendar .owner => 6
  | .calendar .attendee => 7
  | .calendar .start => 8
  | .calendar .uid => 9
  | .contact .member => 3
  | .contact .kind => 4
  | .contact .name => 5
  | .contact .nickname => 6
  | .contact .organization => 7
  | .contact .email => 8
  | .contact .phone => 9
  | .contact .onlineService => 10
  | .contact .address => 11
  | .contact .note => 12
  | .contact .uid => 13
  | .file .name => 3
  | .file .content => 4
  | .tracing .eventType => 3
  | .tracing .queueId => 4
  | .tracing .keywords => 5

/-! ## Sorting results (`local.rs`) -/

/-- The value a comparator sorts a document by; a field comparator is left to the backend. -/
def SearchComparator.rank : SearchComparator → Nat → Option (Nat × Bool)
  | .documentSet set ascending, a => some (if a ∈ set then 1 else 0, ascending)
  | .sortedSet set ascending, a =>
    some ((set a).getD (if ascending then 2 ^ 32 - 1 else 0), ascending)
  | .field _ _, _ => none

/-- `a` does not sort after `b`: the first comparator that tells them apart decides. -/
def notAfter : List SearchComparator → Nat → Nat → Bool
  | [], _, _ => true
  | c :: cs, a, b =>
    match c.rank a, c.rank b with
    | some (x, ascending), some (y, _) =>
      if x = y then notAfter cs a b
      else if ascending then decide (x < y) else decide (y < x)
    | _, _ => notAfter cs a b

/-- `into_sorted`: the ids in ascending order, then stably sorted by the comparators. -/
def QueryResults.intoSorted (r : QueryResults) : List Nat :=
  let results := r.results.sort (· ≤ ·)
  if results.isEmpty || r.comparators.isEmpty then results
  else results.mergeSort (notAfter r.comparators)

theorem QueryResults.mem_intoSorted (r : QueryResults) (d : Nat) : d ∈ r.intoSorted ↔ d ∈ r.results := by
  unfold intoSorted
  dsimp only
  split
  · exact Finset.mem_sort _
  · rw [List.mem_mergeSort, Finset.mem_sort]

theorem QueryResults.nodup_intoSorted (r : QueryResults) : r.intoSorted.Nodup := by
  unfold intoSorted
  dsimp only
  split
  · exact Finset.sort_nodup _ _
  · exact (List.mergeSort_perm _ _).nodup_iff.mpr (Finset.sort_nodup _ _)

end Bearmail.Search
