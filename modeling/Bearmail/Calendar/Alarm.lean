import Bearmail.Lib.Earliest

/-!
# The next alarm of an event

`next_alarm` of `groupware/src/calendar/alarm.rs`, which is asked when an alarm has gone off, and the search for
the next alarm when an event is expanded (`dates.rs`). An event has groups of instances; the alarms of a
component are due for each of its instances.
-/

namespace Bearmail.Calendar

open Earliest
open List Option

/-- The time zones, which the calendar library knows. -/
structure Zones where
  Tz : Type
  fromId : Nat → Option Tz
  asId : Tz → Nat
  isFloating : Tz → Bool
  /-- `resolve_local`: the earliest point in time with a local time. -/
  resolveLocal : Tz → Int → Option Int
  monotone : ∀ tz {a b x y}, a ≤ b → resolveLocal tz a = some x → resolveLocal tz b = some y → x ≤ y

variable (zones : Zones) (defaultTz : zones.Tz)

inductive AlarmDelta where
  | start (delta : Int)
  | «end» (delta : Int)
  | fixedUtc (timestamp : Int)
  | fixedFloating (timestamp : Int)

def AlarmDelta.toTimestamp (start «end» : Int) : AlarmDelta → Option Int
  | .start delta => some (start + delta)
  | .end delta => some («end» + delta)
  | .fixedUtc timestamp => some timestamp
  | .fixedFloating timestamp => zones.resolveLocal defaultTz timestamp

structure Alarm where
  id : Nat
  parentId : Nat
  delta : AlarmDelta
  isEmailAlert : Bool

/-- The instances of a component with one duration. A reader finds their offsets in the bytes of the range, a
single one or a packed list. -/
structure ComponentTimeRange where
  id : Nat
  startTz : Nat
  endTz : Nat
  duration : Int
  instances : List Nat

structure CalendarEventData where
  /-- `is_recurrent_or_override` of the components. -/
  isRecurrentOrOverride : Nat → Bool
  timeRanges : List ComponentTimeRange
  alarms : List Alarm
  baseOffset : Int

inductive CalendarAlarmType where
  | email (eventStart : Int) (eventStartTz : Nat) (eventEnd : Int) (eventEndTz : Nat)
  | display (recurrenceId : Option Int)

structure CalendarAlarm where
  alarmId : Nat
  eventId : Nat
  alarmTime : Int
  typ : CalendarAlarmType

/-- Start and end of an instance, as local times and as points in time. -/
structure Instance where
  start : Int
  «end» : Int
  startNaive : Int
  endNaive : Int
  startTz : zones.Tz
  endTz : zones.Tz

namespace CalendarEventData

variable {zones} (data : CalendarEventData)

def due (alarm : Alarm) (inst : Instance zones) : Option CalendarAlarm :=
  (alarm.delta.toTimestamp zones defaultTz inst.start inst.end).map fun alarmTime =>
    { alarmId := alarm.id
      eventId := alarm.parentId
      alarmTime
      typ :=
        if alarm.isEmailAlert then
          .email inst.startNaive (zones.asId inst.startTz) inst.endNaive (zones.asId inst.endTz)
        else .display (if data.isRecurrentOrOverride alarm.parentId then some inst.startNaive else none) }

def zone (id : Nat) : Option zones.Tz :=
  (zones.fromId id).map fun tz => if zones.isFloating tz && !zones.isFloating defaultTz then defaultTz else tz

/-- An instance of a range; `none` for a local time that does not exist. -/
def resolve (range : ComponentTimeRange) (startTz endTz : zones.Tz) (offset : Nat) : Option (Instance zones) :=
  let startNaive := offset + data.baseOffset
  let endNaive := startNaive + range.duration
  match zones.resolveLocal startTz startNaive, zones.resolveLocal endTz endNaive with
  | some start, some «end» => some ⟨start, «end», startNaive, endNaive, startTz, endTz⟩
  | _, _ => none

/-- The loop of `next_alarm`. In a range it goes on behind the first alarm that is sooner. -/
def nextFrom (startTime : Int) : List ComponentTimeRange → Option CalendarAlarm → Option CalendarAlarm
  | [], next => next
  | range :: ranges, next =>
    match data.alarms.find? (·.parentId == range.id) with
    | none => nextFrom startTime ranges next
    | some alarm =>
      match zone defaultTz range.startTz, zone defaultTz range.endTz with
      | some startTz, some endTz =>
        let sooner :=
          ((range.instances.filterMap (data.resolve range startTz endTz)).filterMap (data.due defaultTz alarm)).find?
            (sooner CalendarAlarm.alarmTime startTime next)
        nextFrom startTime ranges (sooner.or next)
      | _, _ => none

def nextAlarm (startTime : Int) : Option CalendarAlarm :=
  if data.alarms.isEmpty then none else data.nextFrom defaultTz startTime data.timeRanges none

/-- For each instance of a component, each alarm of the component. -/
def allAlarms (instances : List (Nat × Instance zones)) : List CalendarAlarm :=
  instances.flatMap fun (compId, inst) =>
    (data.alarms.filter (·.parentId == compId)).filterMap fun alarm => data.due defaultTz alarm inst

def expandedNextAlarm (now : Int) (expanded : List (Nat × Instance zones)) : Option CalendarAlarm :=
  (data.allAlarms defaultTz expanded).foldl
    (fun next alarm => if sooner CalendarAlarm.alarmTime now next alarm then some alarm else next) none

/-! ## The alarms of an event -/

def instancesOf (range : ComponentTimeRange) : List (Instance zones) :=
  match zone defaultTz range.startTz, zone defaultTz range.endTz with
  | some startTz, some endTz => range.instances.filterMap (data.resolve range startTz endTz)
  | _, _ => []

/-- The instances of the event, with their components. -/
def instances : List (Nat × Instance zones) :=
  data.timeRanges.flatMap fun range => (data.instancesOf defaultTz range).map (range.id, ·)

def firstAlarms (range : ComponentTimeRange) : List CalendarAlarm :=
  ((data.alarms.find? (·.parentId == range.id)).toList).flatMap fun alarm =>
    (data.instancesOf defaultTz range).filterMap (data.due defaultTz alarm)

end CalendarEventData

/-- An event as it is stored: its zones have ids, and the instances of a range are sorted. -/
structure StoredEvent extends CalendarEventData where
  known : ∀ range ∈ timeRanges, (zones.fromId range.startTz).isSome ∧ (zones.fromId range.endTz).isSome
  sorted : ∀ range ∈ timeRanges, range.instances.Pairwise (· ≤ ·)

/-- From `now` on the next alarm is the earliest of all, at the time that an expansion of the same instances
finds, and no alarm is passed over when each search starts at the time of the alarm before. -/
structure RemindsAfter (event : StoredEvent zones) (now : Int) : Prop where
  earliest : IsEarliest CalendarAlarm.alarmTime now (event.allAlarms defaultTz (event.instances defaultTz))
    (event.nextAlarm defaultTz now)
  agrees : ∀ expanded : List (Nat × Instance zones),
    (expanded.map fun (compId, inst) => (compId, inst.start, inst.end)).Perm
      ((event.instances defaultTz).map fun (compId, inst) => (compId, inst.start, inst.end)) →
    (event.expandedNextAlarm defaultTz now expanded).map CalendarAlarm.alarmTime =
      (event.nextAlarm defaultTz now).map CalendarAlarm.alarmTime
  goesOff : ∀ alarm ∈ event.allAlarms defaultTz (event.instances defaultTz), now < alarm.alarmTime →
    GoesOff CalendarAlarm.alarmTime (event.nextAlarm defaultTz) now alarm.alarmTime

variable {zones defaultTz} {event : StoredEvent zones}

/-! ## The first alarm of a component -/

theorem AlarmDelta.toTimestamp_mono {delta : AlarmDelta} {start start' «end» end' t t' : Int}
    (hstart : start ≤ start') (hend : «end» ≤ end') (h : delta.toTimestamp zones defaultTz start «end» = some t)
    (h' : delta.toTimestamp zones defaultTz start' end' = some t') : t ≤ t' := by
  cases delta with
  | start delta =>
    cases h
    cases h'
    exact Int.add_le_add_right hstart _
  | «end» delta =>
    cases h
    cases h'
    exact Int.add_le_add_right hend _
  | fixedUtc timestamp | fixedFloating timestamp => exact le_of_eq (Option.some.inj (h.symm.trans h'))

namespace CalendarEventData

variable {data : CalendarEventData} {range : ComponentTimeRange} {alarm : Alarm} {startTz endTz : zones.Tz}

theorem alarmTime_of_due {inst : Instance zones} {calendarAlarm : CalendarAlarm}
    (h : data.due defaultTz alarm inst = some calendarAlarm) :
    alarm.delta.toTimestamp zones defaultTz inst.start inst.end = some calendarAlarm.alarmTime := by
  obtain ⟨alarmTime, htime, rfl⟩ := map_eq_some_iff.mp h
  exact htime

theorem resolve_eq_some {offset : Nat} {inst : Instance zones}
    (h : data.resolve range startTz endTz offset = some inst) :
    zones.resolveLocal startTz (offset + data.baseOffset) = some inst.start ∧
      zones.resolveLocal endTz (offset + data.baseOffset + range.duration) = some inst.end := by
  simp only [resolve] at h
  split at h
  · next hstart hend =>
    cases h
    exact ⟨hstart, hend⟩
  · cases h

theorem pairwise_due (hsorted : range.instances.Pairwise (· ≤ ·)) :
    ((range.instances.filterMap (data.resolve range startTz endTz)).filterMap (data.due defaultTz alarm)).Pairwise
      (·.alarmTime ≤ ·.alarmTime) := by
  refine pairwise_filterMap.mpr (pairwise_filterMap.mpr (hsorted.imp ?_))
  rintro offset offset' hle inst hinst inst' hinst' first hfirst second hsecond
  obtain ⟨hstart, hend⟩ := resolve_eq_some hinst
  obtain ⟨hstart', hend'⟩ := resolve_eq_some hinst'
  exact AlarmDelta.toTimestamp_mono (zones.monotone _ (by omega) hstart hstart')
    (zones.monotone _ (by omega) hend hend') (alarmTime_of_due hfirst) (alarmTime_of_due hsecond)

theorem nextFrom_earliest {startTime : Int} {ranges : List ComponentTimeRange}
    (hknown : ∀ range ∈ ranges, (zones.fromId range.startTz).isSome ∧ (zones.fromId range.endTz).isSome)
    (hsorted : ∀ range ∈ ranges, range.instances.Pairwise (· ≤ ·)) {seen : List CalendarAlarm}
    {next : Option CalendarAlarm} (h : IsEarliest CalendarAlarm.alarmTime startTime seen next) :
    IsEarliest CalendarAlarm.alarmTime startTime (seen ++ ranges.flatMap (data.firstAlarms defaultTz))
      (data.nextFrom defaultTz startTime ranges next) := by
  induction ranges generalizing seen next with
  | nil => simpa [nextFrom] using h
  | cons range ranges ih =>
    obtain ⟨hrange, hknown⟩ := forall_mem_cons.mp hknown
    obtain ⟨hinstances, hsorted⟩ := forall_mem_cons.mp hsorted
    rw [nextFrom, flatMap_cons, ← append_assoc]
    cases halarm : data.alarms.find? (·.parentId == range.id) with
    | none => simpa [firstAlarms, halarm] using ih hknown hsorted h
    | some alarm =>
      obtain ⟨startTz, hstart⟩ := isSome_iff_exists.mp hrange.1
      obtain ⟨endTz, hend⟩ := isSome_iff_exists.mp hrange.2
      simp only [firstAlarms, instancesOf, halarm, zone, hstart, hend, map_some, toList_some,
        flatMap_singleton]
      exact ih hknown hsorted (h.find? (pairwise_due hinstances))

end CalendarEventData

open CalendarEventData

theorem nextAlarm_earliest (event : StoredEvent zones) (now : Int) :
    IsEarliest CalendarAlarm.alarmTime now (event.timeRanges.flatMap (event.firstAlarms defaultTz))
      (event.nextAlarm defaultTz now) := by
  have hnone : IsEarliest CalendarAlarm.alarmTime now [] none := fun _ h => absurd h not_mem_nil
  rw [nextAlarm]
  split
  · next hempty =>
    have halarms : event.alarms = [] := List.isEmpty_iff.mp hempty
    simp [firstAlarms, halarms, IsEarliest]
  · exact nextFrom_earliest event.known event.sorted hnone

theorem mem_allAlarms {data : CalendarEventData} {instances : List (Nat × Instance zones)} {alarm : CalendarAlarm} :
    alarm ∈ data.allAlarms defaultTz instances ↔ ∃ compId inst, (compId, inst) ∈ instances ∧
      ∃ a ∈ data.alarms, a.parentId = compId ∧ data.due defaultTz a inst = some alarm := by
  simp [allAlarms, and_assoc]

theorem firstAlarms_subset (data : CalendarEventData) :
    data.timeRanges.flatMap (data.firstAlarms defaultTz) ⊆ data.allAlarms defaultTz (data.instances defaultTz) := by
  rintro alarm halarm
  obtain ⟨range, hrange, halarm⟩ := mem_flatMap.mp halarm
  simp only [firstAlarms, mem_flatMap, mem_toList, mem_filterMap] at halarm
  obtain ⟨a, ha, inst, hinst, hdue⟩ := halarm
  refine mem_allAlarms.mpr ⟨range.id, inst, ?_, a, List.mem_of_find?_eq_some ha, ?_, hdue⟩
  · exact mem_flatMap.mpr ⟨range, hrange, List.mem_map_of_mem hinst⟩
  · simpa using List.find?_some ha

theorem alarmTimes_of_perm {data : CalendarEventData} {expanded instances : List (Nat × Instance zones)}
    (h : (expanded.map fun (compId, inst) => (compId, inst.start, inst.end)) ⊆
      instances.map fun (compId, inst) => (compId, inst.start, inst.end)) :
    (data.allAlarms defaultTz expanded).map CalendarAlarm.alarmTime ⊆
      (data.allAlarms defaultTz instances).map CalendarAlarm.alarmTime := by
  rintro t ht
  obtain ⟨alarm, halarm, rfl⟩ := List.mem_map.mp ht
  obtain ⟨compId, inst, hinst, a, ha, hparent, hdue⟩ := mem_allAlarms.mp halarm
  obtain ⟨⟨compId', inst'⟩, hinst', heq⟩ := List.mem_map.mp (h (List.mem_map_of_mem hinst))
  obtain ⟨rfl, hstart, hend⟩ : compId' = compId ∧ inst'.start = inst.start ∧ inst'.end = inst.end := by
    simpa using heq
  have htime := alarmTime_of_due hdue
  rw [← hstart, ← hend] at htime
  obtain ⟨alarm', hdue'⟩ : ∃ alarm', data.due defaultTz a inst' = some alarm' := by
    rw [due, htime]
    exact ⟨_, rfl⟩
  refine List.mem_map.mpr ⟨alarm', mem_allAlarms.mpr ⟨compId', inst', hinst', a, ha, hparent, hdue'⟩, ?_⟩
  exact Option.some.inj ((alarmTime_of_due hdue').symm.trans htime)

theorem firstAlarm_of_goesOff {now t : Int}
    (h : GoesOff CalendarAlarm.alarmTime (event.nextAlarm defaultTz) now t) :
    ∃ first ∈ event.timeRanges.flatMap (event.firstAlarms defaultTz), first.alarmTime = t := by
  induction h with
  | @first now alarm hnext =>
    have hearliest := @nextAlarm_earliest zones defaultTz event now
    rw [hnext] at hearliest
    exact ⟨alarm, hearliest.1, rfl⟩
  | later _ _ ih => exact ih

/-- From a time on no reminder is passed over iff each is due at the time of a first alarm. -/
theorem remindsAfter_iff (event : StoredEvent zones) (now : Int) :
    RemindsAfter zones defaultTz event now ↔
      ∀ alarm ∈ event.allAlarms defaultTz (event.instances defaultTz), now < alarm.alarmTime →
        ∃ first ∈ event.timeRanges.flatMap (event.firstAlarms defaultTz), first.alarmTime = alarm.alarmTime := by
  constructor
  · exact fun h alarm halarm hnow => firstAlarm_of_goesOff (h.goesOff alarm halarm hnow)
  · intro h
    have hearliest : ∀ later, now ≤ later → IsEarliest CalendarAlarm.alarmTime later
        (event.allAlarms defaultTz (event.instances defaultTz)) (event.nextAlarm defaultTz later) :=
      fun later hlater => (nextAlarm_earliest event later).mono (firstAlarms_subset event.toCalendarEventData)
        fun alarm halarm hnow => h alarm halarm (lt_of_le_of_lt hlater hnow)
    refine ⟨hearliest now (le_refl now), fun expanded hperm => ?_, fun alarm => goesOff hearliest⟩
    have hnone : IsEarliest CalendarAlarm.alarmTime now [] none := fun _ h => absurd h not_mem_nil
    have hexpanded : IsEarliest CalendarAlarm.alarmTime now (event.allAlarms defaultTz expanded)
        (event.expandedNextAlarm defaultTz now expanded) :=
      hnone.foldl _
    exact hexpanded.times.unique (hearliest now (le_refl now)).times fun t =>
      ⟨fun ht => alarmTimes_of_perm hperm.subset ht, fun ht => alarmTimes_of_perm hperm.symm.subset ht⟩

/-! ## Two alarms of one component -/

abbrev utc : Zones := ⟨Unit, fun _ => some (), fun _ => 0, fun _ => false, fun _ => some, fun _ _ _ _ _ h hx hy =>
  Option.some.inj hx ▸ Option.some.inj hy ▸ h⟩

/-- An event with a reminder ten minutes before it starts, and one an hour before. -/
def twoAlarms : StoredEvent utc where
  isRecurrentOrOverride _ := false
  timeRanges := [⟨1, 0, 0, 3600, [0]⟩]
  alarms := [⟨2, 1, .start (-600), false⟩, ⟨3, 1, .start (-3600), false⟩]
  baseOffset := 10000
  known _ _ := ⟨rfl, rfl⟩
  sorted := List.forall_mem_singleton.mpr (List.pairwise_singleton _ _)

theorem not_remindsAfter_twoAlarms : ¬RemindsAfter utc () twoAlarms 0 := by
  intro h
  have hmem : ⟨3, 1, 6400, .display none⟩ ∈ twoAlarms.allAlarms () (twoAlarms.instances ()) :=
    (@mem_allAlarms utc () _ _ _).mpr ⟨1, ⟨10000, 13600, 10000, 13600, (), ()⟩, mem_cons_self,
      ⟨3, 1, .start (-3600), false⟩, mem_cons_of_mem _ mem_cons_self, rfl, rfl⟩
  exact absurd (h.earliest.2.2 _ hmem (by decide)) (by decide)

end Bearmail.Calendar
