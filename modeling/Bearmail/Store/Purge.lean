import Bearmail.Store.KeyLayout
import Bearmail.Store.RocksDb
import Mathlib.Data.List.TakeWhile

/-!
# Purging e-mail submissions

`purge_email_submissions` of `email/src/message/delete.rs` scans the index of the times at which the
submissions of an account were sent, up to now less the hold period, and clears what it finds.
-/

namespace Bearmail.Store

/-- The tables, with the keys of each in the order in which an iterator visits them. -/
structure Database where
  kv : Kv
  keys : UInt8 → List (List UInt8)
  ascending : ∀ subspace, (keys subspace).Pairwise (· < ·)
  mem_keys : ∀ subspace key, key ∈ keys subspace ↔ kv subspace key ≠ none

/-- The keys that an ascending `iterate` hands to its caller. -/
def Database.range (db : Database) (start stop : ValueKey) : List (List UInt8) :=
  ((db.keys start.subspace).dropWhile fun key => key < start.serialize).takeWhile fun key =>
    ¬ (key < start.serialize ∨ stop.serialize < key)

theorem Database.mem_range {db : Database} {start stop : ValueKey} {key : List UInt8}
    (h : key ∈ db.range start stop) : ¬ key < start.serialize ∧ ¬ stop.serialize < key := by
  have hbetween := List.mem_takeWhile_imp h
  rw [decide_eq_true_eq] at hbetween
  exact not_or.mp hbetween

theorem Database.range_of_lt {db : Database} {start stop : ValueKey} (h : stop.serialize < start.serialize) :
    db.range start stop = [] := by
  refine List.eq_nil_iff_forall_not_mem.mpr fun key hkey => ?_
  obtain ⟨hstart, hstop⟩ := db.mem_range hkey
  exact hstop (Std.lt_of_lt_of_le h hstart)

/-! ## Submissions -/

def submissionMetadata : UInt8 := 49

def metadataKey (accountId documentId : UInt32) : ValueKey :=
  ⟨accountId, Collection.emailSubmission.toUInt8, documentId, .property submissionMetadata⟩

/-- The key under which the time at which a document is sent is indexed. -/
def sendAtKey (collection : Collection) (accountId documentId : UInt32) (sendAt : UInt64) : ValueKey :=
  ⟨accountId, collection.toUInt8, documentId, .indexProperty (.integer submissionMetadata sendAt)⟩

def saturatingSub (a b : UInt64) : UInt64 := if b ≤ a then a - b else 0

def deserializeDestroyId (key : List UInt8) : Except StoreError (UInt32 × UInt64) :=
  match lastBytes key 4 0, lastBytes key 8 4 with
  | some documentId, some sendAt => .ok ((front32 documentId).1, (front64 sendAt).1)
  | _, _ => .error (.dataCorruption key)

section

variable (xxh3 : List UInt8 → UInt64) (bytesOf : LogSet → List UInt8)

def purgeEmailSubmissions (db : Database) (accountId : UInt32) (holdPeriod now : UInt64) :
    Except StoreError Kv := do
  let destroyIds ← (db.range (sendAtKey .emailSubmission accountId 0 0)
    -- the end is not of the collection of submissions
    (sendAtKey .email accountId 0xffffffff (saturatingSub now holdPeriod))).mapM deserializeDestroyId
  if destroyIds = [] then .ok db.kv
  else
    let batch := (BatchBuilder.new.withAccountId accountId).withCollection .emailSubmission
    let batch := destroyIds.foldl (fun batch (documentId, sendAt) =>
      (((batch.withDocument documentId).clear (.property submissionMetadata)).clear
        (.indexProperty (.integer submissionMetadata sendAt))).commitPoint) batch
    (rocksDb xxh3 bytesOf).commitAll (batch.batches .segments) db.kv

/-! ## What is removed -/

/-- A submission that is stored and was sent early enough. -/
def Due (kv : Kv) (accountId : UInt32) (until_ : UInt64) (documentId : UInt32) (sendAt : UInt64) : Prop :=
  let key := sendAtKey .emailSubmission accountId documentId sendAt
  kv key.subspace key.serialize ≠ none ∧ sendAt ≤ until_

def DueCell (kv : Kv) (accountId : UInt32) (until_ : UInt64) (subspace : UInt8) (bytes : List UInt8) : Prop :=
  ∃ documentId sendAt, Due kv accountId until_ documentId sendAt ∧
    ∃ key ∈ [metadataKey accountId documentId, sendAtKey .emailSubmission accountId documentId sendAt],
      subspace = key.subspace ∧ bytes = key.serialize

/-- The cells of the submissions that are due are removed, and all others are as they were. -/
def Purges (db : Database) (accountId : UInt32) (holdPeriod now : UInt64) : Prop :=
  ∃ kv, purgeEmailSubmissions xxh3 bytesOf db accountId holdPeriod now = .ok kv ∧ ∀ subspace key,
      (DueCell db.kv accountId (saturatingSub now holdPeriod) subspace key → kv subspace key = none) ∧
      (¬ DueCell db.kv accountId (saturatingSub now holdPeriod) subspace key →
        kv subspace key = db.kv subspace key)

theorem email_lt_emailSubmission (accountId documentId documentId' : UInt32) (sendAt sendAt' : UInt64) :
    (sendAtKey .email accountId documentId sendAt).serialize <
      (sendAtKey .emailSubmission accountId documentId' sendAt').serialize := by
  simp only [sendAtKey, ValueKey.serialize, ValueClass.serialize, IndexPropertyClass.serialize,
    List.append_assoc]
  refine List.append_left_lt ?_
  exact List.Lex.rel (by decide)

theorem purgeEmailSubmissions_eq (db : Database) (accountId : UInt32) (holdPeriod now : UInt64) :
    purgeEmailSubmissions xxh3 bytesOf db accountId holdPeriod now = .ok db.kv := by
  rw [purgeEmailSubmissions, Database.range_of_lt (email_lt_emailSubmission ..)]
  rfl

theorem purges_iff (db : Database) (accountId : UInt32) (holdPeriod now : UInt64) :
    Purges xxh3 bytesOf db accountId holdPeriod now ↔
      ∀ documentId sendAt, ¬ Due db.kv accountId (saturatingSub now holdPeriod) documentId sendAt := by
  constructor
  · rintro ⟨kv, hpurge, hcells⟩ documentId sendAt hdue
    rw [purgeEmailSubmissions_eq] at hpurge
    cases hpurge
    refine hdue.1 ((hcells _ _).1 ⟨documentId, sendAt, hdue, _, ?_, rfl, rfl⟩)
    simp
  · intro hnone
    refine ⟨db.kv, purgeEmailSubmissions_eq .., fun subspace key => ⟨?_, fun _ => rfl⟩⟩
    rintro ⟨documentId, sendAt, hdue, -⟩
    exact absurd hdue (hnone documentId sendAt)

def oneSubmissionKeys : List (List UInt8) :=
  [(sendAtKey .emailSubmission 1 7 5).serialize, (metadataKey 1 7).serialize]

def oneSubmission : Database where
  kv subspace key :=
    if subspace = Subspace.property.toUInt8 ∧ oneSubmissionKeys.contains key then some (.bytes [])
    else none
  keys subspace := if subspace = Subspace.property.toUInt8 then oneSubmissionKeys else []
  ascending subspace := by
    split
    · decide
    · exact .nil
  mem_keys subspace key := by
    split <;> simp_all

theorem not_purges_oneSubmission : ¬ Purges xxh3 bytesOf oneSubmission 1 2592000 2592100 := by
  rintro ⟨kv, hpurge, hcells⟩
  cases hpurge
  have hdue : Due oneSubmission.kv 1 (saturatingSub 2592100 2592000) 7 5 := by
    refine ⟨?_, by decide⟩
    decide
  exact hdue.1 ((hcells _ _).1 ⟨7, 5, hdue, sendAtKey .emailSubmission 1 7 5, by simp, rfl, rfl⟩)

end

theorem not_purges : ¬ ∀ xxh3 bytesOf db accountId holdPeriod now,
    Purges xxh3 bytesOf db accountId holdPeriod now :=
  fun h => not_purges_oneSubmission (fun _ => 0) (fun _ => []) (h ..)

end Bearmail.Store
