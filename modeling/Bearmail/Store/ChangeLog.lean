import Mathlib.Data.Finset.Basic
import Bearmail.Lib.BigEndian
import Bearmail.Lib.Leb128
import Bearmail.Lib.VecMap
import Bearmail.Store.Collections
import Bearmail.Sync.Log

/-!
# The changes of a commit

`store/src/write/log.rs`: what a commit changes is kept in sets of ids, for each collection, and written
with the ids of a set in whatever order the set gives.
-/

namespace Bearmail.Store

open Bearmail.Sync (LogEntry)

structure Changes where
  itemInserts : Finset UInt64
  itemUpdates : Finset UInt64
  itemDeletes : Finset UInt64
  containerInserts : Finset UInt32
  containerUpdates : Finset UInt32
  containerDeletes : Finset UInt32
  containerPropertyChanges : Finset UInt32
  deriving DecidableEq

inductive VanishedItem where
  | name (bytes : List UInt8)
  | id (n : UInt64)
  | idPair (a b : UInt32)
  deriving DecidableEq

structure ChangeLogBuilder where
  changes : VecMap SyncCollection Changes
  vanished : VecMap VanishedCollection (List VanishedItem)

namespace Changes

def empty : Changes := ⟨∅, ∅, ∅, ∅, ∅, ∅, ∅⟩

/-! ## Logging -/

def logContainerInsert (changes : Changes) (documentId : UInt32) : Changes :=
  if documentId ∈ changes.containerDeletes then
    { changes with
      containerDeletes := changes.containerDeletes.erase documentId
      containerUpdates := insert documentId changes.containerUpdates }
  else { changes with containerInserts := insert documentId changes.containerInserts }

def logItemInsert (changes : Changes) (id : UInt64) : Changes :=
  if id ∈ changes.itemDeletes then
    { changes with
      itemDeletes := changes.itemDeletes.erase id
      itemUpdates := insert id changes.itemUpdates }
  else { changes with itemInserts := insert id changes.itemInserts }

def logContainerUpdate (changes : Changes) (documentId : UInt32) : Changes :=
  { changes with containerUpdates := insert documentId changes.containerUpdates }

def logContainerPropertyUpdate (changes : Changes) (documentId : UInt32) : Changes :=
  { changes with
    containerPropertyChanges := insert documentId changes.containerPropertyChanges }

def logItemUpdate (changes : Changes) (id : UInt64) : Changes :=
  { changes with itemUpdates := insert id changes.itemUpdates }

def logContainerDelete (changes : Changes) (documentId : UInt32) : Changes :=
  { changes with
    containerUpdates := changes.containerUpdates.erase documentId
    containerPropertyChanges := changes.containerPropertyChanges.erase documentId
    containerDeletes := insert documentId changes.containerDeletes }

def logItemDelete (changes : Changes) (id : UInt64) : Changes :=
  { changes with
    itemUpdates := changes.itemUpdates.erase id
    itemDeletes := insert id changes.itemDeletes }

def hasContainerChanges (changes : Changes) : Bool :=
  !decide (changes.containerInserts = ∅) || !decide (changes.containerUpdates = ∅) ||
    !decide (changes.containerPropertyChanges = ∅) || !decide (changes.containerDeletes = ∅)

def hasItemChanges (changes : Changes) : Bool :=
  !decide (changes.itemInserts = ∅) || !decide (changes.itemUpdates = ∅) ||
    !decide (changes.itemDeletes = ∅)

end Changes

/-- The id of an item that a container has is made of both ids. -/
def buildId (container : Option UInt32) (documentId : UInt32) : UInt64 :=
  match container with
  | some container => container.toUInt64 <<< 32 ||| documentId.toUInt64
  | none => documentId.toUInt64

inductive LogCall where
  | containerInsert (collection : SyncCollection) (documentId : UInt32)
  | itemInsert (collection : SyncCollection) (container : Option UInt32) (documentId : UInt32)
  | containerUpdate (collection : SyncCollection) (documentId : UInt32)
  | containerPropertyUpdate (collection : SyncCollection) (documentId : UInt32)
  | itemUpdate (collection : SyncCollection) (container : Option UInt32) (documentId : UInt32)
  | containerDelete (collection : SyncCollection) (documentId : UInt32)
  | itemDelete (collection : SyncCollection) (container : Option UInt32) (documentId : UInt32)
  | vanishedItem (collection : VanishedCollection) (item : VanishedItem)
  deriving DecidableEq

def LogCall.collection : LogCall → LogCollection
  | .containerInsert collection _ | .itemInsert collection _ _ | .containerUpdate collection _
  | .containerPropertyUpdate collection _ | .itemUpdate collection _ _
  | .containerDelete collection _ | .itemDelete collection _ _ => .sync collection
  | .vanishedItem collection _ => .vanished collection

namespace ChangeLogBuilder

def empty : ChangeLogBuilder := ⟨.empty, .empty⟩

def change (builder : ChangeLogBuilder) (collection : SyncCollection) (f : Changes → Changes) :
    ChangeLogBuilder :=
  { builder with changes := builder.changes.modify .empty f collection }

def log (builder : ChangeLogBuilder) : LogCall → ChangeLogBuilder
  | .containerInsert collection documentId =>
    builder.change collection fun changes => changes.logContainerInsert documentId
  | .itemInsert collection container documentId =>
    builder.change collection fun changes => changes.logItemInsert (buildId container documentId)
  | .containerUpdate collection documentId =>
    builder.change collection fun changes => changes.logContainerUpdate documentId
  | .containerPropertyUpdate collection documentId =>
    builder.change collection fun changes => changes.logContainerPropertyUpdate documentId
  | .itemUpdate collection container documentId =>
    builder.change collection fun changes => changes.logItemUpdate (buildId container documentId)
  | .containerDelete collection documentId =>
    builder.change collection fun changes => changes.logContainerDelete documentId
  | .itemDelete collection container documentId =>
    builder.change collection fun changes => changes.logItemDelete (buildId container documentId)
  | .vanishedItem collection item =>
    { builder with vanished := builder.vanished.modify [] (fun items => items ++ [item]) collection }

end ChangeLogBuilder

/-! ## Bytes -/

/-- An entry lists the ids of the sets, in some order. The size of a set is a machine word. -/
structure Changes.Lists (changes : Changes) (entry : LogEntry) : Prop where
  containerInserts :
    (entry.containerInserts : Multiset Nat) = changes.containerInserts.val.map UInt32.toNat
  containerUpdates :
    (entry.containerUpdates : Multiset Nat) = changes.containerUpdates.val.map UInt32.toNat
  containerPropertyChanges : (entry.containerPropertyChanges : Multiset Nat) =
    changes.containerPropertyChanges.val.map UInt32.toNat
  containerDeletes :
    (entry.containerDeletes : Multiset Nat) = changes.containerDeletes.val.map UInt32.toNat
  itemInserts : (entry.itemInserts : Multiset Nat) = changes.itemInserts.val.map UInt64.toNat
  itemUpdates : (entry.itemUpdates : Multiset Nat) = changes.itemUpdates.val.map UInt64.toNat
  itemDeletes : (entry.itemDeletes : Multiset Nat) = changes.itemDeletes.val.map UInt64.toNat
  sizes : ∀ ids ∈ [entry.containerInserts, entry.containerUpdates, entry.containerPropertyChanges,
    entry.containerDeletes, entry.itemInserts, entry.itemUpdates, entry.itemDeletes],
    ids.length < 2 ^ 64

def serialize (entry : LogEntry) : List UInt8 :=
  [entry.containerInserts.length, entry.containerUpdates.length,
    entry.containerPropertyChanges.length, entry.containerDeletes.length, entry.itemInserts.length,
    entry.itemUpdates.length, entry.itemDeletes.length].flatMap Leb128.encode ++
  (entry.containerInserts ++ entry.containerUpdates ++ entry.containerPropertyChanges ++
    entry.containerDeletes).flatMap Leb128.encode ++
  (entry.itemInserts ++ entry.itemUpdates ++ entry.itemDeletes).flatMap Leb128.encode

def VanishedItem.serialize : VanishedItem → List UInt8
  | .name bytes => bytes ++ [0]
  | .id n => BigEndian.toBytes 8 n.toNat
  | .idPair a b => BigEndian.toBytes 4 a.toNat ++ BigEndian.toBytes 4 b.toNat

def VanishedItem.serializedSize : VanishedItem → Nat
  | .name bytes => bytes.length + 1
  | .id _ | .idPair .. => 8

end Bearmail.Store
