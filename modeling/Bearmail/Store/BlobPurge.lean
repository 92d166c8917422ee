import Bearmail.Lib.Fallible
import Bearmail.Store.Purge
import Bearmail.Search.TermKeys

/-!
# Purging blobs

`purge_blobs` of `store/src/write/blob.rs` scans the keys of a shard, in which every blob is followed by
its links. What it decides to delete is modelled; the batch that then clears the keys is left out.
-/

namespace Bearmail.Store

open List
open Fallible (bind_eq_ok)

def hashOf (key : List UInt8) : BlobHash := Vector.ofFn fun i => key.getD i 0

/-- The objects of the registry that stand for temporary links are of the type `O`. -/
structure BlobPurgeState (O : Type) where
  lastHash : BlobHash
  lastHashIsLinked : Bool
  deleteKeys : List (Option UInt32 × BlobOp)
  deleteRegistry : List (UInt32 × O)
  totalDeleted : Nat
  totalActive : Nat

namespace BlobPurgeState

variable {O : Type}

/-- The hash of zeros counts as linked. -/
def new : BlobPurgeState O := ⟨.replicate 32 0, true, [], [], 0, 0⟩

def finalize (st : BlobPurgeState O) (newHash : BlobHash) : BlobPurgeState O :=
  if st.lastHashIsLinked then { st with totalActive := st.totalActive + 1, lastHash := newHash }
  else
    { st with
      totalDeleted := st.totalDeleted + 1, lastHash := newHash
      deleteKeys := st.deleteKeys ++ [(none, .commit st.lastHash)] }

def updateHash (st : BlobPurgeState O) (hash : BlobHash) : BlobPurgeState O :=
  if st.lastHash ≠ hash then { st.finalize hash with lastHashIsLinked := false } else st

variable (deserialize : List UInt8 → Except StoreError O) (now : UInt64)

def processKey (st : BlobPurgeState O) (key value : List UInt8) : Except StoreError (BlobPurgeState O) :=
  if key.length = 32 then .ok st
  else if key.length = 44 then
    let (accountId, tail) := front32 (key.drop 32)
    let till := (front64 tail).1
    if till ≤ now then do
      let link := BlobOp.link st.lastHash (.temporary till)
      let st := { st with deleteKeys := st.deleteKeys ++ [(some accountId, link)] }
      if value.length = 10 then
        .ok { st with deleteRegistry := st.deleteRegistry ++ [(accountId, ← deserialize value)] }
      else .ok st
    else .ok { st with lastHashIsLinked := true }
  else if key.length = 41 ∨ key.length = 40 then .ok { st with lastHashIsLinked := true }
  else .error (.dataCorruption key)

def processKeys (st : BlobPurgeState O) :
    List (List UInt8 × List UInt8) → Except StoreError (BlobPurgeState O)
  | [] => .ok st
  | (key, value) :: entries => do
    if key.length < 32 then .error (.dataCorruption key)
    else
      let st ← (st.updateHash (hashOf key)).processKey deserialize now key value
      st.processKeys entries

end BlobPurgeState

/-- The keys of a shard are those from its first hash to the last link of its last one. -/
def purgeStart (shard : UInt8) : ValueKey := .ofClass (.blob (.commit ((Vector.replicate 32 0).set 0 shard)))

def purgeStop (shard : UInt8) : ValueKey :=
  ⟨0xffffffff, 0xff, 0xffffffff, .blob (.link ((Vector.replicate 32 0xff).set 0 shard) .document)⟩

section

variable {O : Type} (deserialize : List UInt8 → Except StoreError O) (valueOf : List UInt8 → List UInt8)

def purgeBlobs (db : Database) (now : UInt64) (shard : UInt8) : Except StoreError (BlobPurgeState O) := do
  let keys := db.range (purgeStart shard) (purgeStop shard)
  let st ← BlobPurgeState.new.processKeys deserialize now (keys.map fun key => (key, valueOf key))
  .ok (st.finalize (.replicate 32 0))

end

/-! ## What is deleted -/

def BlobLink.live (now : UInt64) : BlobLink → Bool
  | .temporary till => now < till
  | _ => true

/-- The key is that of a link which has not expired. -/
def liveLink (now : UInt64) (key : List UInt8) : Bool :=
  match (readBlob key).cls with
  | .blob (.link _ link) => link.live now
  | _ => false

namespace BlobPurgeState

variable {O : Type} {deserialize : List UInt8 → Except StoreError O} {now : UInt64}
  {st st' : BlobPurgeState O} {key value : List UInt8}

/-- What one key adds. -/
structure Processed (now : UInt64) (st : BlobPurgeState O) (key : List UInt8) (st' : BlobPurgeState O) :
    Prop where
  lastHash : st'.lastHash = st.lastHash
  linked : st'.lastHashIsLinked = (st.lastHashIsLinked || liveLink now key)
  commits : ∀ hash, (none, .commit hash) ∈ st'.deleteKeys ↔ (none, .commit hash) ∈ st.deleteKeys
  links : ∀ accountId hash till, (some accountId, .link hash (.temporary till)) ∈ st'.deleteKeys ↔
    (some accountId, .link hash (.temporary till)) ∈ st.deleteKeys ∨
      till ≤ now ∧ readBlob key = ⟨accountId, 0, 0, .blob (.link hash (.temporary till))⟩

theorem processKey_processed (hlast : st.lastHash = hashOf key)
    (h : st.processKey deserialize now key value = .ok st') : Processed now st key st' := by
  unfold processKey at h
  split at h
  · rename_i hlength
    cases h
    have hread : readBlob key = .ofClass (.blob (.commit (hashOf key))) := by simp [readBlob, hlength, hashOf]
    exact ⟨rfl, by simp [liveLink, hread, ValueKey.ofClass], fun _ => Iff.rfl,
      by simp [hread, ValueKey.ofClass]⟩
  split at h
  · rename_i hlength
    have hread : readBlob key = ⟨(front32 (key.drop 32)).1, 0, 0,
        .blob (.link (hashOf key) (.temporary (front64 (front32 (key.drop 32)).2).1))⟩ := by
      simp [readBlob, hlength, hashOf]
    simp only at h
    generalize front32 (key.drop 32) = front at h hread
    obtain ⟨accountId, tail⟩ := front
    generalize (front64 tail).1 = till at h hread
    have hlive : liveLink now key = decide (now < till) := by simp [liveLink, hread, BlobLink.live]
    split at h
    · rename_i htill
      have hpushed : Processed now st key { st with
          deleteKeys := st.deleteKeys ++ [(some accountId, .link st.lastHash (.temporary till))] } := by
        refine ⟨rfl, by simp [hlive, UInt64.not_lt.mpr htill], by simp, fun a hash till' => ?_⟩
        simp only [mem_append, mem_singleton, hread]
        grind
      simp only at h
      split at h
      · obtain ⟨objectId, -, h⟩ := bind_eq_ok.mp h
        cases h
        exact ⟨hpushed.lastHash, hpushed.linked, hpushed.commits, hpushed.links⟩
      · cases h
        exact hpushed
    · rename_i htill
      cases h
      refine ⟨rfl, by simp [hlive, UInt64.not_le.mp htill], fun _ => Iff.rfl, fun a hash till' => ?_⟩
      simp only [hread]
      grind
  split at h
  · rename_i hlength
    cases h
    have hread : liveLink now key ∧ ∀ a hash till,
        readBlob key ≠ ⟨a, 0, 0, .blob (.link hash (.temporary till))⟩ := by
      rcases hlength with hlength | hlength <;>
        simp [liveLink, readBlob, hlength, ValueKey.ofClass, BlobLink.live]
    exact ⟨rfl, by simp [hread.1], fun _ => Iff.rfl, by simp [hread.2]⟩
  · cases h

theorem toList_hashOf (h : 32 ≤ key.length) : (hashOf key).toList = key.take 32 := by
  refine List.ext_getElem (by simp [h]) fun i hi _ => ?_
  simp only [hashOf, Vector.length_toList] at hi
  simp [hashOf, getD_eq_getElem?_getD, getElem?_eq_getElem (by omega : i < key.length)]

theorem isPrefix_iff (h : 32 ≤ key.length) (hash : BlobHash) : hash.toList <+: key ↔ hashOf key = hash := by
  rw [prefix_iff_eq_take, Vector.length_toList, ← toList_hashOf h, Vector.toList_inj, eq_comm]

theorem take_le_take {a b : List UInt8} (n : Nat) (h : a ≤ b) : a.take n ≤ b.take n := by
  induction n generalizing a b with
  | zero => simp
  | succ n ih =>
    cases a with
    | nil => simp
    | cons x a =>
      cases b with
      | nil => simp at h
      | cons y b =>
        rw [take_succ_cons, take_succ_cons, cons_le_cons_iff]
        exact (cons_le_cons_iff.mp h).imp id fun ⟨heq, hle⟩ => ⟨heq, ih hle⟩

theorem lastHash_updateHash (hash : BlobHash) : (st.updateHash hash).lastHash = hash := by
  unfold updateHash finalize
  grind

theorem mem_commits_finalize (hash newHash : BlobHash) :
    (none, .commit hash) ∈ (st.finalize newHash).deleteKeys ↔
      (none, .commit hash) ∈ st.deleteKeys ∨ hash = st.lastHash ∧ st.lastHashIsLinked = false := by
  unfold finalize
  split
  · simp [*]
  · simp [*]

theorem mem_links_finalize (a : UInt32) (op : BlobOp) (newHash : BlobHash) :
    (some a, op) ∈ (st.finalize newHash).deleteKeys ↔ (some a, op) ∈ st.deleteKeys := by
  unfold finalize
  split <;> simp

variable {valueOf : List UInt8 → List UInt8} {keys : List (List UInt8)}

/-- The keys of a blob follow each other, so that none of the hash before is still to come. -/
theorem mem_commits_processKeys (hsorted : keys.Pairwise (· < ·))
    (hle : ∀ key ∈ keys, 32 ≤ key.length → st.lastHash.toList ≤ key.take 32)
    (h : st.processKeys deserialize now (keys.map fun key => (key, valueOf key)) = .ok st')
    (hash newHash : BlobHash) : (none, .commit hash) ∈ (st'.finalize newHash).deleteKeys ↔
      (none, .commit hash) ∈ st.deleteKeys ∨
        (hash = st.lastHash ∧ st.lastHashIsLinked = false ∨
          hash ≠ st.lastHash ∧ ∃ key ∈ keys, hash.toList <+: key) ∧
        ∀ key ∈ keys, hash.toList <+: key → liveLink now key = false := by
  induction keys generalizing st with
  | nil =>
    cases h
    simp [mem_commits_finalize]
  | cons key keys ih =>
    rw [map_cons, processKeys] at h
    split at h
    · cases h
    rename_i hlength
    rw [Nat.not_lt] at hlength
    obtain ⟨st1, hkey, h⟩ := bind_eq_ok.mp h
    obtain ⟨hfirst, hsorted⟩ := pairwise_cons.mp hsorted
    have hdone := processKey_processed (lastHash_updateHash ..) hkey
    have hnext : ∀ key' ∈ keys, 32 ≤ key'.length → st1.lastHash.toList ≤ key'.take 32 := by
      intro key' hkey' _
      rw [hdone.lastHash, lastHash_updateHash, toList_hashOf hlength]
      exact take_le_take 32 (Std.le_of_lt (hfirst key' hkey'))
    rw [ih hsorted hnext h, hdone.commits, hdone.lastHash, hdone.linked, lastHash_updateHash]
    have hhead := isPrefix_iff hlength
    simp only [exists_mem_cons_iff, forall_mem_cons, hhead]
    by_cases hnew : st.lastHash = hashOf key
    · simp only [updateHash, hnew, ne_eq, not_true_eq_false, if_false, Bool.or_eq_false_iff]
      grind
    · have hgone : ∀ key' ∈ keys, ¬ st.lastHash.toList <+: key' := by
        intro key' hkey' hpre
        have htake := prefix_iff_eq_take.mp hpre
        rw [Vector.length_toList] at htake
        have hback : key.take 32 ≤ st.lastHash.toList := by
          rw [htake]
          exact take_le_take 32 (Std.le_of_lt (hfirst key' hkey'))
        have heq := List.le_antisymm (hle key (mem_cons_self ..) hlength) hback
        rw [← toList_hashOf hlength] at heq
        exact hnew (Vector.toList_inj.mp heq)
      simp only [updateHash, ne_eq, hnew, not_false_iff, if_true, mem_commits_finalize, Bool.false_or]
      grind

theorem hashOf_of_readBlob {accountId : UInt32} {hash : BlobHash} {link : BlobLink}
    (h : readBlob key = ⟨accountId, 0, 0, .blob (.link hash link)⟩) : hashOf key = hash := by
  have hcls := congrArg ValueKey.cls h
  unfold readBlob at hcls
  grind [hashOf, ValueKey.ofClass]

theorem mem_links_processKeys
    (h : st.processKeys deserialize now (keys.map fun key => (key, valueOf key)) = .ok st')
    (accountId : UInt32) (hash : BlobHash) (till : UInt64) :
    (some accountId, .link hash (.temporary till)) ∈ st'.deleteKeys ↔
      (some accountId, .link hash (.temporary till)) ∈ st.deleteKeys ∨
        till ≤ now ∧ ∃ key ∈ keys, hash.toList <+: key ∧
          readBlob key = ⟨accountId, 0, 0, .blob (.link hash (.temporary till))⟩ := by
  induction keys generalizing st with
  | nil =>
    cases h
    simp
  | cons key keys ih =>
    rw [map_cons, processKeys] at h
    split at h
    · cases h
    rename_i hlength
    obtain ⟨st1, hkey, h⟩ := bind_eq_ok.mp h
    have hread (hread : readBlob key = ⟨accountId, 0, 0, .blob (.link hash (.temporary till))⟩) :
        hash.toList <+: key :=
      (isPrefix_iff (Nat.not_lt.mp hlength) hash).mpr (hashOf_of_readBlob hread)
    have hupdate (a op) :
        (some a, op) ∈ (st.updateHash (hashOf key)).deleteKeys ↔ (some a, op) ∈ st.deleteKeys := by
      unfold updateHash
      split
      · exact mem_links_finalize ..
      · exact Iff.rfl
    rw [ih h, (processKey_processed (lastHash_updateHash ..) hkey).links, hupdate, exists_mem_cons_iff]
    grind

end BlobPurgeState

/-! ## The keys of a shard -/

section Scan

variable {α : Type} {p : α → Bool} {l : List α}

theorem takeWhile_eq_filter (h : l.Pairwise fun x y => p y → p x) : l.takeWhile p = l.filter p := by
  induction l with
  | nil => rfl
  | cons x l ih =>
    obtain ⟨hx, hl⟩ := pairwise_cons.mp h
    by_cases hp : p x = true
    · rw [takeWhile_cons_of_pos hp, filter_cons_of_pos hp, ih hl]
    · rw [takeWhile_cons_of_neg hp, filter_cons_of_neg hp, eq_comm, filter_eq_nil_iff]
      exact fun y hy hpy => hp (hx y hy hpy)

theorem dropWhile_eq_filter (h : l.Pairwise fun x y => p y → p x) :
    l.dropWhile p = l.filter fun x => !p x := by
  induction l with
  | nil => rfl
  | cons x l ih =>
    obtain ⟨hx, hl⟩ := pairwise_cons.mp h
    by_cases hp : p x = true
    · rw [dropWhile_cons_of_pos hp, filter_cons_of_neg (by simp [hp]), ih hl]
    · rw [dropWhile_cons_of_neg hp, filter_eq_self.mpr]
      intro y hy
      rcases mem_cons.mp hy with rfl | hy
      · simp [hp]
      · simpa using fun hpy => hp (hx y hy hpy)

end Scan

variable {db : Database} {start stop : ValueKey} {key : List UInt8}

theorem Database.mem_range_iff :
    key ∈ db.range start stop ↔
      key ∈ db.keys start.subspace ∧ start.serialize ≤ key ∧ key ≤ stop.serialize := by
  have hsorted := db.ascending start.subspace
  have hdrop : (db.keys start.subspace).dropWhile (fun key => key < start.serialize) =
      (db.keys start.subspace).filter fun key => ! decide (key < start.serialize) :=
    dropWhile_eq_filter (hsorted.imp fun hlt hy => by
      simpa using Std.lt_trans hlt (by simpa using hy))
  rw [Database.range, hdrop, takeWhile_eq_filter]
  · simp only [mem_filter]
    simp [List.not_lt, and_assoc]
  · refine (hsorted.filter _).imp_of_mem fun hx _ hlt hy => ?_
    have hx := (mem_filter.mp hx).2
    simp only [Bool.not_eq_true', decide_eq_false_iff_not, decide_eq_true_eq, not_or] at hx hy ⊢
    exact ⟨hx, fun hstop => hy.2 (Std.lt_trans hstop hlt)⟩

/-- The last hash of a shard, of which some links lie after the end of the scan. -/
def lastHashOf (shard : UInt8) : BlobHash := (Vector.replicate 32 0xff).set 0 shard

theorem mem_range_purge {shard : UInt8} {hash : BlobHash} (hlast : hash ≠ lastHashOf shard)
    (hpre : hash.toList <+: key) : key ∈ db.range (purgeStart shard) (purgeStop shard) ↔
      hash[0] = shard ∧ key ∈ db.keys (purgeStart shard).subspace := by
  obtain ⟨rest, rfl⟩ := hpre
  have hstart : (purgeStart shard).serialize = [shard] ++ replicate 31 0 := rfl
  obtain ⟨tail, hstop⟩ :
      ∃ tail, (purgeStop shard).serialize = [shard] ++ (replicate 31 255 ++ tail) :=
    ⟨be32 0xffffffff ++ [0xff] ++ be32 0xffffffff, by
      simp only [purgeStop, ValueKey.serialize, ValueClass.serialize, BlobOp.serialize, append_assoc]
      rfl⟩
  obtain ⟨bytes, hhash, hlength⟩ : ∃ bytes, hash.toList = [hash[0]] ++ bytes ∧ bytes.length = 31 := by
    refine ⟨hash.toList.drop 1, ?_, by simp⟩
    simpa using (cons_getElem_drop_succ (l := hash.toList) (n := 0) (h := by simp)).symm
  rw [Database.mem_range_iff, hstart, hstop, hhash, append_assoc]
  constructor
  · rintro ⟨hmem, hlo, hhi⟩
    exact ⟨by simpa using (eq_of_between (by rfl) hlo hhi).symm, hmem⟩
  · rintro ⟨hshard, hmem⟩
    rw [hshard]
    refine ⟨?_, append_left_le ?_, append_left_le ?_⟩
    · simpa [hshard] using hmem
    · exact Search.replicate_zero_le _ 31 (by simp [hlength])
    · have hne : bytes ≠ replicate 31 255 := by
        rintro rfl
        exact hlast (Vector.toList_inj.mp (by rw [hhash, hshard]; rfl))
      have hlo : bytes ++ [] ≤ replicate 31 255 ++ tail := calc
        _ ≤ replicate 31 255 ++ [] := by simpa using Search.le_replicate_max bytes 31 hlength.le
        _ ≤ replicate 31 255 ++ tail := append_left_le (List.nil_le tail)
      exact List.not_lt.mp fun hlt => hne (eq_of_between (by simp [hlength]) hlo (Std.le_of_lt hlt))

section

variable {O : Type} {deserialize : List UInt8 → Except StoreError O} {valueOf : List UInt8 → List UInt8}
  {now : UInt64} {shard : UInt8} {st : BlobPurgeState O}

/-- A blob is deleted exactly when it is stored without a link that still holds, and a temporary link when
it has expired. The last hash of a shard is left out: some of its links lie after the end of the scan. -/
theorem mem_deleteKeys_purgeBlobs (h : purgeBlobs deserialize valueOf db now shard = .ok st)
    (hash : BlobHash) (hlast : hash ≠ lastHashOf shard) :
    ((none, .commit hash) ∈ st.deleteKeys ↔ hash[0] = shard ∧ hash ≠ .replicate 32 0 ∧
      (∃ key ∈ db.keys Subspace.blobLink.toUInt8, hash.toList <+: key) ∧
        ∀ key ∈ db.keys Subspace.blobLink.toUInt8, hash.toList <+: key → liveLink now key = false) ∧
    ∀ accountId till, (some accountId, .link hash (.temporary till)) ∈ st.deleteKeys ↔
      hash[0] = shard ∧ till ≤ now ∧
        ∃ key ∈ db.keys Subspace.blobLink.toUInt8, hash.toList <+: key ∧
          readBlob key = ⟨accountId, 0, 0, .blob (.link hash (.temporary till))⟩ := by
  simp only [purgeBlobs] at h
  obtain ⟨st', hkeys, h⟩ := bind_eq_ok.mp h
  cases h
  have hsorted : (db.range (purgeStart shard) (purgeStop shard)).Pairwise (· < ·) :=
    (db.ascending (purgeStart shard).subspace).sublist ((takeWhile_sublist _).trans (dropWhile_sublist _))
  have hzero : ∀ key ∈ db.range (purgeStart shard) (purgeStop shard), 32 ≤ key.length →
      (@BlobPurgeState.new O).lastHash.toList ≤ key.take 32 :=
    fun key _ hlength => Search.replicate_zero_le _ 32 (by simp [hlength])
  have hmem {key} (hpre : hash.toList <+: key) := @mem_range_purge db key shard hash hlast hpre
  constructor
  · rw [BlobPurgeState.mem_commits_processKeys hsorted hzero hkeys]
    constructor
    · rintro (hmem | ⟨⟨-, hlinked⟩ | ⟨hne, key, hkey, hpre⟩, hdead⟩)
      · cases hmem
      · cases hlinked
      obtain ⟨hshard, hkey⟩ := (hmem hpre).mp hkey
      exact ⟨hshard, hne, ⟨key, hkey, hpre⟩,
        fun key' hkey' hpre' => hdead key' ((hmem hpre').mpr ⟨hshard, hkey'⟩) hpre'⟩
    · rintro ⟨hshard, hne, ⟨key, hkey, hpre⟩, hdead⟩
      exact .inr ⟨.inr ⟨hne, key, (hmem hpre).mpr ⟨hshard, hkey⟩, hpre⟩,
        fun key' hkey' hpre' => hdead key' ((hmem hpre').mp hkey').2 hpre'⟩
  · intro accountId till
    rw [BlobPurgeState.mem_links_finalize, BlobPurgeState.mem_links_processKeys hkeys]
    constructor
    · rintro (hmem | ⟨htill, key, hkey, hpre, hread⟩)
      · cases hmem
      obtain ⟨hshard, hkey⟩ := (hmem hpre).mp hkey
      exact ⟨hshard, htill, key, hkey, hpre, hread⟩
    · rintro ⟨hshard, htill, key, hkey, hpre, hread⟩
      exact .inr ⟨htill, key, (hmem hpre).mpr ⟨hshard, hkey⟩, hpre, hread⟩

end

def sevens : BlobHash := .replicate 32 7

/-- The keys of a blob whose one link has expired, and of one that a document has. -/
def twoBlobKeys : List (List UInt8) :=
  [BlobOp.commit sevens, .link sevens (.temporary 5), .commit (sevens.set 31 8),
    .link (sevens.set 31 8) .document].map fun op => op.serialize 1 0 3

def twoBlobs : Database where
  kv subspace key :=
    if subspace = Subspace.blobLink.toUInt8 ∧ twoBlobKeys.contains key then some (.bytes []) else none
  keys subspace := if subspace = Subspace.blobLink.toUInt8 then twoBlobKeys else []
  ascending subspace := by
    split
    · decide
    · exact .nil
  mem_keys subspace key := by
    split <;> simp_all

def purgedBlobs : BlobPurgeState Unit :=
  ⟨.replicate 32 0, true, [(some 1, .link sevens (.temporary 5)), (none, .commit sevens)], [], 1, 2⟩

theorem mem_deleteKeys_purgeBlobs_twoBlobs :
    purgeBlobs (fun _ => .ok ()) (fun _ => []) twoBlobs 10 7 = .ok purgedBlobs ∧ sevens ≠ lastHashOf 7 ∧
      ∀ key ∈ twoBlobs.keys Subspace.blobLink.toUInt8, sevens.toList <+: key → liveLink 10 key = false := by
  have hrun : purgeBlobs (fun _ => .ok ()) (fun _ => []) twoBlobs 10 7 = .ok purgedBlobs := rfl
  have hlast : sevens ≠ lastHashOf 7 := by decide
  exact ⟨hrun, hlast, ((mem_deleteKeys_purgeBlobs hrun sevens hlast).1.mp (by simp [purgedBlobs])).2.2.2⟩

end Bearmail.Store
