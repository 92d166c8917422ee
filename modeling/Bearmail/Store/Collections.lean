import Mathlib.Logic.Function.Basic

/-!
# Collections

`types/src/collection.rs`: the logs of an account. The log of vanished names has a number of its own, so
that its keys are not those of a log of changes.
-/

namespace Bearmail.Store

inductive SyncCollection where
  | email
  | thread
  | calendar
  | addressBook
  | fileNode
  | identity
  | emailSubmission
  | sieveScript
  | calendarEventNotification
  | shareNotification
  | none
  deriving DecidableEq

inductive VanishedCollection where
  | email
  | calendar
  | addressBook
  | fileNode
  deriving DecidableEq

def SyncCollection.vanishedCollection : SyncCollection → Option VanishedCollection
  | .email => some .email
  | .calendar => some .calendar
  | .addressBook => some .addressBook
  | .fileNode => some .fileNode
  | _ => Option.none

inductive LogCollection where
  | sync (collection : SyncCollection)
  | vanished (collection : VanishedCollection)
  deriving DecidableEq

def SyncCollection.toUInt8 : SyncCollection → UInt8
  | .email => 0
  | .thread => 1
  | .calendar => 2
  | .addressBook => 3
  | .fileNode => 4
  | .identity => 5
  | .emailSubmission => 6
  | .sieveScript => 7
  | .calendarEventNotification => 8
  | .shareNotification => 9
  | .none => 10

def VanishedCollection.toUInt8 : VanishedCollection → UInt8
  | .email => 251
  | .calendar => 252
  | .addressBook => 253
  | .fileNode => 254

def LogCollection.toUInt8 : LogCollection → UInt8
  | .sync collection => collection.toUInt8
  | .vanished collection => collection.toUInt8

theorem LogCollection.toUInt8_injective : Function.Injective LogCollection.toUInt8 := by
  rintro (a | a) (b | b) h
  · cases a <;> cases b <;> first | rfl | cases h
  · cases a <;> cases b <;> cases h
  · cases a <;> cases b <;> cases h
  · cases a <;> cases b <;> first | rfl | cases h

end Bearmail.Store
