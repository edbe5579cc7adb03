import ArchivAgent.Table.Table
import ArchivAgent.Transition.Run

/-!
# Metrics

`archiv-metrics/src/lib.rs`. The eight counters are atomics of their own: a call of `record` adds
to one after the other, a call of `flush` swaps one after the other. An event is one atomic
operation of one call. `samples`, `added`, `window` and `begun` remember what has happened: a
counter's window is the number of times it has been swapped.
-/

namespace ArchivAgent

inductive Counter where
  | eventsIn
  | eventsSampledOut
  | eventsExported
  | bytesIn
  | bytesDropped
  | bytesExported
  | redactionCount
  | failopenCount
  deriving DecidableEq, Repr

/-- In the order of `record` and of `drain`. -/
def Counter.all : List Counter :=
  [.eventsIn, .eventsSampledOut, .eventsExported, .bytesIn, .bytesDropped, .bytesExported, .redactionCount,
    .failopenCount]

/-- One request in the current window. -/
structure Sample where
  eventsIn : Nat
  eventsSampledOut : Nat
  eventsExported : Nat
  bytesIn : Nat
  bytesExported : Nat
  redactionCount : Nat
  failedOpen : Bool
  deriving DecidableEq, Repr

def Sample.bytesDropped (s : Sample) : Nat := s.bytesIn - s.bytesExported

def Sample.get (s : Sample) : Counter → Nat
  | .eventsIn => s.eventsIn
  | .eventsSampledOut => s.eventsSampledOut
  | .eventsExported => s.eventsExported
  | .bytesIn => s.bytesIn
  | .bytesDropped => s.bytesDropped
  | .bytesExported => s.bytesExported
  | .redactionCount => s.redactionCount
  | .failopenCount => s.failedOpen.toNat

structure Aggregate where
  seq : Nat
  windowStartMs : Int
  windowEndMs : Int
  policyVersion : Nat
  eventsIn : Nat
  eventsSampledOut : Nat
  eventsExported : Nat
  bytesIn : Nat
  bytesDropped : Nat
  bytesExported : Nat
  redactionCount : Nat
  failopenCount : Nat
  deriving DecidableEq, Repr

def Aggregate.get (a : Aggregate) : Counter → Nat
  | .eventsIn => a.eventsIn
  | .eventsSampledOut => a.eventsSampledOut
  | .eventsExported => a.eventsExported
  | .bytesIn => a.bytesIn
  | .bytesDropped => a.bytesDropped
  | .bytesExported => a.bytesExported
  | .redactionCount => a.redactionCount
  | .failopenCount => a.failopenCount

/-- A value for each counter: `WindowCounters`, or the `DrainedCounts` of a flush. -/
abbrev Counts := Counter → Nat

def Counts.set (counts : Counts) (c : Counter) (n : Nat) : Counts := fun c' => if c' = c then n else counts c'

def Aggregate.of (seq : Nat) (windowStartMs windowEndMs : Int) (policyVersion : Nat) (d : Counts) : Aggregate :=
  { seq, windowStartMs, windowEndMs, policyVersion
    eventsIn := d .eventsIn
    eventsSampledOut := d .eventsSampledOut
    eventsExported := d .eventsExported
    bytesIn := d .bytesIn
    bytesDropped := d .bytesDropped
    bytesExported := d .bytesExported
    redactionCount := d .redactionCount
    failopenCount := d .failopenCount }

/-- A call of `record`, and the counters it has still to add to. -/
structure Recording where
  sample : Sample
  todo : List Counter
  /-- The window of its first counter when it added to it. -/
  window : Nat

/-- A call of `flush`, and the counters it has still to swap. -/
structure Flushing where
  windowStartMs : Int
  windowEndMs : Int
  taken : Counts
  todo : List Counter
  /-- The window of its first counter when it swapped it. -/
  window : Nat

structure Metrics where
  counters : Counts
  seq : Nat
  policyVersion : Nat

def Metrics.new (policyVersion : Nat) : Metrics := ⟨fun _ => 0, 0, policyVersion⟩

structure Meter extends Metrics where
  records : Table Nat Recording := ∅
  flushes : Table Nat Flushing := ∅
  returned : List Aggregate := []
  /-- Of every call of `record`. -/
  samples : List Sample := []
  /-- The sum of the adds to a counter. -/
  added : Counts := fun _ => 0
  window : Counts := fun _ => 0
  /-- The calls of `record` that have begun to add, each with its window. -/
  begun : List (Nat × Sample) := []

inductive MeterEvent where
  | record (id : Nat) (sample : Sample)
  | add (id : Nat)
  | recorded (id : Nat)
  | flush (id : Nat) (windowStartMs windowEndMs : Int)
  | swap (id : Nat)
  | flushed (id : Nat)
  deriving DecidableEq, Repr

namespace Meter

def new (policyVersion : Nat) : Meter := { Metrics.new policyVersion with }

def beginsAt (s : Meter) (todo : List Counter) (c : Counter) (window : Nat) : Nat :=
  if todo = Counter.all then s.window c else window

/-- `fetch_add` -/
def add (s : Meter) (id : Nat) (r : Recording) (c : Counter) (rest : List Counter) : Meter :=
  { s with
    counters := s.counters.set c ((s.counters c + r.sample.get c) % 2 ^ 64)
    records := s.records.insert id { r with todo := rest, window := s.beginsAt r.todo c r.window }
    added := s.added.set c (s.added c + r.sample.get c)
    begun := if r.todo = Counter.all then s.begun ++ [(s.window c, r.sample)] else s.begun }

/-- `swap` with 0 -/
def swap (s : Meter) (id : Nat) (f : Flushing) (c : Counter) (rest : List Counter) : Meter :=
  { s with
    counters := s.counters.set c 0
    flushes := s.flushes.insert id
      { f with taken := f.taken.set c (s.counters c), todo := rest, window := s.beginsAt f.todo c f.window }
    window := s.window.set c (s.window c + 1) }

def aggregate (s : Meter) (f : Flushing) : Aggregate :=
  .of s.seq f.windowStartMs f.windowEndMs s.policyVersion f.taken

/-- The flush takes its number, and returns. -/
def flushed (s : Meter) (id : Nat) (f : Flushing) : Meter :=
  { s with
    seq := (s.seq + 1) % 2 ^ 64
    flushes := s.flushes.erase id
    returned := s.returned ++ [s.aggregate f] }

def step (s : Meter) : MeterEvent → Option Meter
  | .record id sample =>
    match s.records.lookup id with
    | some _ => none
    | none => some { s with records := s.records.insert id ⟨sample, Counter.all, 0⟩, samples := s.samples ++ [sample] }
  | .add id => do
    let r ← s.records.lookup id
    match r.todo with
    | c :: rest => some (s.add id r c rest)
    | [] => none
  | .recorded id => do
    let r ← s.records.lookup id
    if r.todo = [] then some { s with records := s.records.erase id } else none
  | .flush id windowStartMs windowEndMs =>
    match s.flushes.lookup id with
    | some _ => none
    | none => some { s with flushes := s.flushes.insert id ⟨windowStartMs, windowEndMs, fun _ => 0, Counter.all, 0⟩ }
  | .swap id => do
    let f ← s.flushes.lookup id
    match f.todo with
    | c :: rest => some (s.swap id f c rest)
    | [] => none
  | .flushed id => do
    let f ← s.flushes.lookup id
    if f.todo = [] then some (s.flushed id f) else none

def run (s : Meter) (es : List MeterEvent) : Option Meter := Transition.run step s es

inductive Step (s : Meter) : MeterEvent → Meter → Prop where
  | record {id sample} (fresh : s.records.lookup id = none) :
      Step s (.record id sample)
        { s with records := s.records.insert id ⟨sample, Counter.all, 0⟩, samples := s.samples ++ [sample] }
  | add {id r c rest} (here : s.records.lookup id = some r) (todo : r.todo = c :: rest) :
      Step s (.add id) (s.add id r c rest)
  | recorded {id r} (here : s.records.lookup id = some r) (done : r.todo = []) :
      Step s (.recorded id) { s with records := s.records.erase id }
  | flush {id windowStartMs windowEndMs} (fresh : s.flushes.lookup id = none) :
      Step s (.flush id windowStartMs windowEndMs)
        { s with flushes := s.flushes.insert id ⟨windowStartMs, windowEndMs, fun _ => 0, Counter.all, 0⟩ }
  | swap {id f c rest} (here : s.flushes.lookup id = some f) (todo : f.todo = c :: rest) :
      Step s (.swap id) (s.swap id f c rest)
  | flushed {id f} (here : s.flushes.lookup id = some f) (done : f.todo = []) : Step s (.flushed id) (s.flushed id f)

theorem step_cases {s s' : Meter} {e : MeterEvent} (h : s.step e = some s') : Step s e s' := by
  cases e with
  | record id sample =>
    simp only [step] at h
    split at h <;> cases h
    exact .record ‹_›
  | add id =>
    obtain ⟨r, here, h⟩ := Option.bind_eq_some_iff.mp h
    split at h <;> cases h
    exact .add here ‹_›
  | recorded id =>
    obtain ⟨r, here, h⟩ := Option.bind_eq_some_iff.mp h
    split at h <;> cases h
    exact .recorded here ‹_›
  | flush id windowStartMs windowEndMs =>
    simp only [step] at h
    split at h <;> cases h
    exact .flush ‹_›
  | swap id =>
    obtain ⟨f, here, h⟩ := Option.bind_eq_some_iff.mp h
    split at h <;> cases h
    exact .swap here ‹_›
  | flushed id =>
    obtain ⟨f, here, h⟩ := Option.bind_eq_some_iff.mp h
    split at h <;> cases h
    exact .flushed here ‹_›

end Meter

end ArchivAgent
