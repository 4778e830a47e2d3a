import ObjectHeap.Table.Update

/-!
# The journal

Tables, heap and machine report what they do as events, in the order in which it happens. An event
is data; `Event.line` is how it is written. The events about single objects are *details*: there is
one for each allocation, mark, visit and release, so a reader sees them only on request.
-/

set_option autoImplicit false

namespace ObjectHeap

/-- The outcome of a collection. -/
structure CycleSummary where
  /-- The number of the collection, from 1. -/
  cycle : Nat
  bytesBefore : Nat
  bytesAfter : Nat
  /-- How many interned strings were dropped. -/
  stringsDropped : Nat
  /-- The bytes above which the next collection is due. -/
  threshold : Nat
  deriving DecidableEq, Repr

inductive Event
  /-- A table went from one number of buckets to another. -/
  | grew (small large : Nat)
  /-- An object was put into a slot and charged for. -/
  | allocated (slot bytes : Nat)
  /-- An object was reached for the first time. -/
  | marked (slot : Nat)
  /-- The references of an object are about to be marked. -/
  | blackened (slot : Nat)
  /-- An object was released. -/
  | freed (slot : Nat)
  | cycleBegan
  | cycleEnded (summary : CycleSummary)
  /-- The machine drops this many globals, and its stack. -/
  | machineReset (globals : Nat)
  deriving DecidableEq, Repr

namespace Event

/-- The event is about a single object. -/
def isDetail : Event → Bool
  | .allocated .. | .marked _ | .blackened _ | .freed _ => true
  | .grew .. | .cycleBegan | .cycleEnded _ | .machineReset _ => false

def level : Event → String
  | .cycleBegan | .cycleEnded _ | .machineReset _ => "DEBUG"
  | .grew .. | .allocated .. | .marked _ | .blackened _ | .freed _ => "TRACE"

/-- The part that reports the event. -/
def target : Event → String
  | .grew .. => "table"
  | .machineReset _ => "vm"
  | .allocated .. | .marked _ | .blackened _ | .freed _ | .cycleBegan | .cycleEnded _ => "gc"

def message : Event → String
  | .grew small large => s!"grow {small} -> {large}"
  | .allocated slot bytes => s!"#{slot} allocate {bytes} bytes"
  | .marked slot => s!"#{slot} mark"
  | .blackened slot => s!"#{slot} blacken"
  | .freed slot => s!"#{slot} free"
  | .cycleBegan => "-- gc begin"
  | .cycleEnded s =>
    s!"-- gc end #{s.cycle}: collected {s.bytesBefore - s.bytesAfter} bytes " ++
    s!"(from {s.bytesBefore} to {s.bytesAfter}), {s.stringsDropped} strings unreachable, " ++
    s!"next at {s.threshold}"
  | .machineReset globals => s!"reset with {globals} globals"

/-- The event as a line of the journal. -/
def line (e : Event) : String := e.level ++ " " ++ e.target ++ ": " ++ e.message

/-- The slot that the event releases. -/
def released? : Event → Option Nat
  | .freed slot => some slot
  | .grew .. | .allocated .. | .marked _ | .blackened _ | .cycleBegan | .cycleEnded _
  | .machineReset _ => none

/-- The growths of a table between two of its states. -/
def growths (before after : Table) : List Event :=
  (Table.growthSteps before.capacity after.capacity).map fun (small, large) => .grew small large

end Event

/-- The lines of a journal, with or without the details. -/
def journalLines (details : Bool) (events : List Event) : List String :=
  (events.filter fun e => details || !e.isDetail).map Event.line

end ObjectHeap
