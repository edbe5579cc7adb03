import ArchivAgent.Metrics.Conservation
import ArchivAgent.Transition.Rank
import Mathlib.Data.List.Chain

/-!
# The flush loop

`src/metrics.rs`, `run_flush_loop`: a flush at every tick and one more after the shutdown signal,
each window beginning where the one before it ended. The wall clock is an argument and may go
back; the sink may fail. Calls of `record` go on beside the loop.
-/

namespace ArchivAgent

inductive FlushPhase where
  | waiting
  | flushing (windowEnd : Int) (final : Bool)
  /-- `flush` has returned; the sink is asked. -/
  | delivering (agg : Aggregate) (windowEnd : Int) (final : Bool)
  | stopped
  deriving DecidableEq, Repr

/-- The loop and what it records; `deliveries` is what the sink was given, with its answer. -/
structure FlushLoop where
  meter : Meter
  windowStart : Int
  phase : FlushPhase := .waiting
  deliveries : List (Aggregate × Bool) := []

inductive FlushEvent where
  | record (e : MeterEvent)
  | tick (now : Int)
  | shutdown (now : Int)
  | swap
  | flushed
  | deliver (ok : Bool)
  deriving DecidableEq, Repr

def MeterEvent.records : MeterEvent → Bool
  | .record _ _ | .add _ | .recorded _ => true
  | .flush .. | .swap _ | .flushed _ => false

namespace FlushLoop

def call : Nat := 0

def step (s : FlushLoop) : FlushEvent → Option FlushLoop
  | .record e => if e.records then (s.meter.step e).map fun meter => { s with meter } else none
  | .tick now => match s.phase with
    | .waiting => (s.meter.step (.flush call s.windowStart now)).map fun meter =>
      { s with meter, phase := .flushing now false }
    | _ => none
  | .shutdown now => match s.phase with
    | .waiting => (s.meter.step (.flush call s.windowStart now)).map fun meter =>
      { s with meter, phase := .flushing now true }
    | _ => none
  | .swap => match s.phase with
    | .flushing _ _ => (s.meter.step (.swap call)).map fun meter => { s with meter }
    | _ => none
  | .flushed => match s.phase with
    | .flushing windowEnd final => do
      let f ← s.meter.flushes.lookup call
      let meter ← s.meter.step (.flushed call)
      some { s with meter, phase := .delivering (s.meter.aggregate f) windowEnd final }
    | _ => none
  | .deliver ok => match s.phase with
    | .delivering agg windowEnd final =>
      let s := { s with deliveries := s.deliveries ++ [(agg, ok)] }
      -- a failure is logged and swallowed
      some (if final then { s with phase := .stopped } else { s with windowStart := windowEnd, phase := .waiting })
    | _ => none

def run (s : FlushLoop) (es : List FlushEvent) : Option FlushLoop := Transition.run step s es

/-- The first tick fires at once; the loop reads the clock after it. -/
def start (policyVersion : Nat) (now : Int) : FlushLoop where
  meter := .new policyVersion
  windowStart := now

/-! ### What a step does -/

inductive Step (s : FlushLoop) : FlushEvent → FlushLoop → Prop where
  | record {e meter} (mine : e.records = true) (one : s.meter.step e = some meter) : Step s (.record e) { s with meter }
  | tick {now meter} (waiting : s.phase = .waiting) (one : s.meter.step (.flush call s.windowStart now) = some meter) :
      Step s (.tick now) { s with meter, phase := .flushing now false }
  | shutdown {now meter} (waiting : s.phase = .waiting) (one : s.meter.step (.flush call s.windowStart now) = some meter) :
      Step s (.shutdown now) { s with meter, phase := .flushing now true }
  | swap {windowEnd final meter} (flushing : s.phase = .flushing windowEnd final)
      (one : s.meter.step (.swap call) = some meter) : Step s .swap { s with meter }
  | flushed {windowEnd final f} (flushing : s.phase = .flushing windowEnd final)
      (here : s.meter.flushes.lookup call = some f) (one : s.meter.step (.flushed call) = some (s.meter.flushed call f)) :
      Step s .flushed { s with
        meter := s.meter.flushed call f, phase := .delivering (s.meter.aggregate f) windowEnd final }
  | deliver {agg windowEnd ok} (delivering : s.phase = .delivering agg windowEnd false) :
      Step s (.deliver ok) { s with
        deliveries := s.deliveries ++ [(agg, ok)], windowStart := windowEnd, phase := .waiting }
  | last {agg windowEnd ok} (delivering : s.phase = .delivering agg windowEnd true) :
      Step s (.deliver ok) { s with deliveries := s.deliveries ++ [(agg, ok)], phase := .stopped }

theorem step_cases {s s' : FlushLoop} {e : FlushEvent} (h : s.step e = some s') : Step s e s' := by
  cases e with
  | record e =>
    simp only [step] at h
    split at h
    · obtain ⟨meter, one, rfl⟩ := Option.map_eq_some_iff.mp h
      exact .record ‹_› one
    · cases h
  | tick now =>
    simp only [step] at h
    split at h
    · obtain ⟨meter, one, rfl⟩ := Option.map_eq_some_iff.mp h
      exact .tick ‹_› one
    · cases h
  | shutdown now =>
    simp only [step] at h
    split at h
    · obtain ⟨meter, one, rfl⟩ := Option.map_eq_some_iff.mp h
      exact .shutdown ‹_› one
    · cases h
  | swap =>
    simp only [step] at h
    split at h
    · obtain ⟨meter, one, rfl⟩ := Option.map_eq_some_iff.mp h
      exact .swap ‹_› one
    · cases h
  | flushed =>
    simp only [step] at h
    split at h
    · obtain ⟨f, here, h⟩ := Option.bind_eq_some_iff.mp h
      obtain ⟨meter, one, h⟩ := Option.bind_eq_some_iff.mp h
      cases h
      cases Meter.step_cases one with
      | flushed there =>
        cases here.symm.trans there
        exact .flushed ‹_› here one
    · cases h
  | deliver ok =>
    simp only [step] at h
    split at h
    · rename_i agg windowEnd final delivering
      cases final with
      | false =>
        cases h
        exact .deliver delivering
      | true =>
        cases h
        exact .last delivering
    · cases h

/-! ### The windows -/

/-- The aggregate that is about to go to the sink. -/
def inHand (s : FlushLoop) : List Aggregate :=
  match s.phase with
  | .delivering agg _ _ => [agg]
  | _ => []

/-- The window of the flush in progress is the loop's own. -/
def Bounded (s : FlushLoop) : Prop :=
  match s.phase with
  | .flushing windowEnd _ => ∃ f, s.meter.flushes.lookup call = some f ∧ f.windowStartMs = s.windowStart ∧
      f.windowEndMs = windowEnd
  | .delivering agg windowEnd _ => s.meter.flushes.lookup call = none ∧ agg.windowStartMs = s.windowStart ∧
      agg.windowEndMs = windowEnd
  | .waiting | .stopped => s.meter.flushes.lookup call = none

/-- Each window begins where the one before it ended, the first where the loop began. -/
structure Tiled (began : Int) (s : FlushLoop) : Prop where
  emitted : s.deliveries.map (·.1) ++ s.inHand = s.meter.returned
  alone : ∀ id f, s.meter.flushes.lookup id = some f → id = call
  bounded : s.Bounded
  first : ∀ d ∈ s.deliveries.head?, d.1.windowStartMs = began
  chain : s.deliveries.IsChain fun a b => a.1.windowEndMs = b.1.windowStartMs
  next : s.phase ≠ .stopped → s.windowStart = (s.deliveries.getLast?.map fun d => d.1.windowEndMs).getD began

theorem start_tiled (policyVersion : Nat) (began : Int) : (start policyVersion began).Tiled began where
  emitted := rfl
  alone _ _ found := by cases found
  bounded := rfl
  first _ member := by cases member
  chain := .nil
  next _ := rfl

section Steps
variable {began : Int} {s s' : FlushLoop} {e : FlushEvent}

theorem records_frame {meter meter' : Meter} {e : MeterEvent} (h : meter.step e = some meter') (mine : e.records = true) :
    meter'.flushes = meter.flushes ∧ meter'.returned = meter.returned := by
  cases Meter.step_cases h with
  | record | add | recorded => exact ⟨rfl, rfl⟩
  | flush | swap | flushed => cases mine

theorem Tiled.begin (tiled : s.Tiled began) (waiting : s.phase = .waiting) {now : Int} {meter : Meter} (final : Bool)
    (one : s.meter.step (.flush call s.windowStart now) = some meter) :
    Tiled began { s with meter, phase := .flushing now final } := by
  have next := tiled.next (by rw [waiting]; nofun)
  have emitted := tiled.emitted
  rw [inHand, waiting] at emitted
  cases Meter.step_cases one with
  | flush fresh =>
    refine ⟨emitted, fun id f found => ?_, ⟨_, AList.lookup_insert _, rfl, rfl⟩, tiled.first, tiled.chain, fun _ => next⟩
    rcases Table.lookup_of_insert found with ⟨same, -⟩ | ⟨-, found⟩
    · exact same
    · exact tiled.alone id f found

theorem Tiled.deliver (tiled : s.Tiled began) {agg : Aggregate} {windowEnd : Int} {final : Bool}
    (delivering : s.phase = .delivering agg windowEnd final) (ok : Bool) :
    (s.deliveries ++ [(agg, ok)]).map (·.1) = s.meter.returned ∧
      (∀ d ∈ (s.deliveries ++ [(agg, ok)]).head?, d.1.windowStartMs = began) ∧
      (s.deliveries ++ [(agg, ok)]).IsChain fun a b => a.1.windowEndMs = b.1.windowStartMs := by
  have next := tiled.next (by rw [delivering]; nofun)
  have emitted := tiled.emitted
  have bounded := tiled.bounded
  rw [inHand, delivering] at emitted
  rw [Bounded, delivering] at bounded
  refine ⟨by rw [List.map_append]; exact emitted, fun d head => ?_, ?_⟩
  · cases before : s.deliveries with
    | nil =>
      rw [before] at head next
      cases head
      exact bounded.2.1.trans next
    | cons x xs =>
      rw [before] at head
      cases head
      exact tiled.first _ (by rw [before]; rfl)
  · refine tiled.chain.append (.singleton _) fun a last b new => ?_
    cases new
    rw [Option.mem_def.mp last] at next
    exact next.symm.trans bounded.2.1.symm

theorem step_tiled (h : s.step e = some s') (tiled : s.Tiled began) : s'.Tiled began := by
  cases step_cases h with
  | record mine one =>
    obtain ⟨flushes, returned⟩ := records_frame one mine
    refine ⟨?_, ?_, ?_, tiled.first, tiled.chain, tiled.next⟩
    · rw [returned]
      exact tiled.emitted
    · rw [flushes]
      exact tiled.alone
    · have bounded := tiled.bounded
      simp only [Bounded, flushes] at bounded ⊢
      exact bounded
  | tick waiting one => exact tiled.begin waiting false one
  | shutdown waiting one => exact tiled.begin waiting true one
  | @swap windowEnd final meter flushing one =>
    have emitted := tiled.emitted
    have bounded := tiled.bounded
    have next := tiled.next (by rw [flushing]; nofun)
    rw [inHand, flushing] at emitted
    rw [Bounded, flushing] at bounded
    obtain ⟨f, here, starts, ends⟩ := bounded
    cases Meter.step_cases one with
    | swap there todo =>
      cases here.symm.trans there
      refine ⟨?_, fun id g found => ?_, ?_, tiled.first, tiled.chain, fun _ => next⟩
      · simp only [inHand, flushing]
        exact emitted
      · rcases Table.lookup_of_insert found with ⟨same, -⟩ | ⟨-, found⟩
        · exact same
        · exact tiled.alone id g found
      · simp only [Bounded, flushing]
        exact ⟨_, AList.lookup_insert _, starts, ends⟩
  | @flushed windowEnd final f flushing here one =>
    have emitted := tiled.emitted
    have bounded := tiled.bounded
    have next := tiled.next (by rw [flushing]; nofun)
    rw [inHand, flushing, List.append_nil] at emitted
    rw [Bounded, flushing] at bounded
    obtain ⟨g, there, starts, ends⟩ := bounded
    cases here.symm.trans there
    refine ⟨?_, fun id g found => tiled.alone id g (Table.lookup_of_erase found).2, ⟨AList.lookup_erase _ _, starts, ends⟩,
      tiled.first, tiled.chain, fun _ => next⟩
    show _ ++ [_] = s.meter.returned ++ [_]
    rw [emitted]
  | @deliver agg windowEnd ok delivering =>
    obtain ⟨emitted, first, chain⟩ := tiled.deliver delivering ok
    have bounded := tiled.bounded
    rw [Bounded, delivering] at bounded
    refine ⟨by rw [← emitted]; exact List.append_nil _, tiled.alone, bounded.1, first, chain, fun _ => ?_⟩
    rw [List.getLast?_concat]
    exact bounded.2.2.symm
  | @last agg windowEnd ok delivering =>
    obtain ⟨emitted, first, chain⟩ := tiled.deliver delivering ok
    have bounded := tiled.bounded
    rw [Bounded, delivering] at bounded
    exact ⟨by rw [← emitted]; exact List.append_nil _, tiled.alone, bounded.1, first, chain, fun running => absurd rfl running⟩

end Steps

/-! ### One window for each reading of the clock -/

/-- Where the window that is not yet delivered ends. -/
def ending (s : FlushLoop) : List Int :=
  match s.phase with
  | .flushing windowEnd _ | .delivering _ windowEnd _ => [windowEnd]
  | .waiting | .stopped => []

def final (s : FlushLoop) : Bool :=
  match s.phase with
  | .flushing _ final | .delivering _ _ final => final
  | .waiting => false
  | .stopped => true

end FlushLoop

def FlushEvent.clock : FlushEvent → List Int
  | .tick now | .shutdown now => [now]
  | _ => []

def FlushEvent.isShutdown : FlushEvent → Bool
  | .shutdown _ => true
  | _ => false

namespace FlushLoop

section Steps
variable {began : Int} {s s' : FlushLoop} {e : FlushEvent}

theorem step_ends (h : s.step e = some s') (tiled : s.Tiled began) : s'.deliveries.map (·.1.windowEndMs) ++ s'.ending =
    (s.deliveries.map (·.1.windowEndMs) ++ s.ending) ++ e.clock := by
  have bounded := tiled.bounded
  cases step_cases h with
  | record => exact (List.append_nil _).symm
  | tick waiting | shutdown waiting =>
    simp only [ending, waiting, List.append_nil]
    rfl
  | swap flushing =>
    simp only [ending, flushing]
    exact (List.append_nil _).symm
  | flushed flushing =>
    simp only [ending, flushing]
    exact (List.append_nil _).symm
  | deliver delivering | last delivering =>
    rw [Bounded, delivering] at bounded
    simp only [ending, delivering, List.map_append, List.map_cons, List.map_nil, FlushEvent.clock, List.append_nil,
      bounded.2.2]

theorem step_final (h : s.step e = some s') : s'.final.toNat = s.final.toNat + if e.isShutdown then 1 else 0 := by
  cases step_cases h with
  | record => rfl
  | tick waiting | shutdown waiting =>
    simp only [final, waiting]
    rfl
  | swap flushing | flushed flushing =>
    simp only [final, flushing]
    rfl
  | deliver delivering | last delivering =>
    simp only [final, delivering]
    rfl

end Steps

structure Windows (began : Int) (es : List FlushEvent) (s : FlushLoop) : Prop where
  first : ∀ d ∈ s.deliveries.head?, d.1.windowStartMs = began
  chain : s.deliveries.IsChain fun a b => a.1.windowEndMs = b.1.windowStartMs
  /-- One for each tick and one for the shutdown, whether or not the sink took it. -/
  ends : s.deliveries.map (·.1.windowEndMs) ++ s.ending = es.flatMap FlushEvent.clock
  seqs : s.deliveries.map (·.1.seq) = (List.range s.deliveries.length).map (· % 2 ^ 64)
  /-- The loop stops after one flush for the signal. -/
  last : es.countP FlushEvent.isShutdown = s.final.toNat

theorem meter_of_step {s s' : FlushLoop} {e : FlushEvent} (h : s.step e = some s') :
    s'.meter = s.meter ∨ ∃ e, s.meter.step e = some s'.meter := by
  cases step_cases h with
  | record _ one | tick _ one | shutdown _ one | swap _ one => exact .inr ⟨_, one⟩
  | flushed _ _ one => exact .inr ⟨_, one⟩
  | deliver | last => exact .inl rfl

theorem run_kept {policyVersion : Nat} {began : Int} {es : List FlushEvent} {s : FlushLoop}
    (ran : (start policyVersion began).run es = some s) : s.Tiled began ∧ s.meter.Conserved := by
  refine Transition.run_invariant (fun s => Tiled began s ∧ s.meter.Conserved) ran (fun e _ s s' one kept => ?_)
    ⟨start_tiled policyVersion began, Meter.new_conserved policyVersion⟩
  refine ⟨step_tiled one kept.1, ?_⟩
  rcases meter_of_step one with same | ⟨e, one⟩
  · rw [same]
    exact kept.2
  · exact Meter.step_conserved one kept.2

/-- The windows of a run tile its time: no gap, no overlap, one for each reading of the clock. -/
theorem windows_tile {policyVersion : Nat} {began : Int} {es : List FlushEvent} {s : FlushLoop}
    (ran : (start policyVersion began).run es = some s) : Windows began es s := by
  obtain ⟨tiled, conserved⟩ := run_kept ran
  refine ⟨tiled.first, tiled.chain, ?_, ?_, ?_⟩
  · exact Transition.run_collected_of (Tiled began) (fun s => s.deliveries.map (·.1.windowEndMs) ++ s.ending) FlushEvent.clock
      ran (fun _ _ _ one tiled => step_tiled one tiled) (fun _ _ _ _ tiled one => step_ends one tiled)
      (start_tiled policyVersion began)
  · have seqs := conserved.seqs
    rw [← tiled.emitted, List.map_append, List.length_append, List.length_map, List.range_add, List.map_append] at seqs
    have split := List.append_inj_left seqs (by simp only [List.length_map, List.length_range])
    rw [List.map_map] at split
    exact split
  · have signals := Transition.run_counts (fun s : FlushLoop => s.final.toNat) FlushEvent.isShutdown ran
      fun _ _ _ _ one => step_final one
    rw [show (start policyVersion began).final.toNat = 0 from rfl, Nat.zero_add] at signals
    exact signals.symm

/-- A window whose record the sink refuses, and the one after the signal. -/
def refusedThenLast : List FlushEvent :=
  [.record (.record 0 ⟨3, 1, 2, 30, 20, 1, false⟩)] ++ List.replicate 8 (.record (.add 0)) ++ [.tick 10500] ++
    List.replicate 8 .swap ++ [.flushed, .deliver false, .shutdown 12000] ++ List.replicate 8 .swap ++
    [.flushed, .deliver true]

theorem windows_tile_refused : ∃ s, (start 1 500).run refusedThenLast = some s ∧
    s.deliveries.map (fun d => (d.1.windowStartMs, d.1.windowEndMs, d.2)) = [(500, 10500, false), (10500, 12000, true)] ∧
    Windows 500 refusedThenLast s := by
  obtain ⟨s, ran, windows⟩ := Option.map_eq_some_iff.mp
    (show ((start 1 500).run refusedThenLast).map
        (fun s => s.deliveries.map fun d => (d.1.windowStartMs, d.1.windowEndMs, d.2)) =
      some [(500, 10500, false), (10500, 12000, true)] by decide +kernel)
  exact ⟨s, ran, windows, windows_tile ran⟩

/-! ### What the sink has -/

def held (s : FlushLoop) (c : Counter) : Nat :=
  (s.inHand.map (·.get c)).sum + s.meter.flushes.total (fun _ f => f.taken c) + s.meter.counters c

/-- What the windows that got this answer have of a counter. -/
def answered (s : FlushLoop) (ok : Bool) (c : Counter) : Nat :=
  ((s.deliveries.filter (·.2 = ok)).map (·.1.get c)).sum

theorem answered_add (deliveries : List (Aggregate × Bool)) (c : Counter) :
    ((deliveries.filter (·.2 = true)).map (·.1.get c)).sum + ((deliveries.filter (·.2 = false)).map (·.1.get c)).sum =
      (deliveries.map (·.1.get c)).sum := by
  induction deliveries with
  | nil => rfl
  | cons d deliveries ih =>
    cases taken : d.2 with
    | true =>
      simp only [List.filter_cons, taken, decide_true, if_true, Bool.true_eq_false, decide_false, Bool.false_eq_true, if_false,
        List.map_cons, List.sum_cons]
      omega
    | false =>
      simp only [List.filter_cons, taken, decide_true, if_true, Bool.false_eq_true, decide_false, if_false,
        List.map_cons, List.sum_cons]
      omega

/-- The sink has every sample but for those of the windows it refused and those on their way. -/
theorem sink_conserves {policyVersion : Nat} {began : Int} {es : List FlushEvent} {s : FlushLoop}
    (ran : (start policyVersion began).run es = some s) (c : Counter) :
    (s.answered true c + s.answered false c + s.held c + s.meter.owed c) % 2 ^ 64 = s.meter.sampled c % 2 ^ 64 := by
  obtain ⟨tiled, conserved⟩ := run_kept ran
  obtain ⟨lost, balance⟩ := conserved.balance c
  have pending := conserved.pending c
  have both := answered_add s.deliveries c
  have emitted : (s.meter.returned.map (·.get c)).sum = (s.deliveries.map (·.1.get c)).sum + (s.inHand.map (·.get c)).sum := by
    rw [← tiled.emitted, List.map_append, List.sum_append, List.map_map]
    rfl
  rw [Meter.total, emitted] at balance
  rw [answered, answered, held]
  omega

theorem sink_conserves_refused : ∃ s, (start 1 500).run refusedThenLast = some s ∧
    s.answered false .eventsIn = 3 ∧
    (s.answered true .eventsIn + s.answered false .eventsIn + s.held .eventsIn + s.meter.owed .eventsIn) % 2 ^ 64 =
      s.meter.sampled .eventsIn % 2 ^ 64 := by
  obtain ⟨s, ran, refused⟩ := Option.map_eq_some_iff.mp
    (show ((start 1 500).run refusedThenLast).map (fun s => s.answered false .eventsIn) = some 3 by decide +kernel)
  exact ⟨s, ran, refused, sink_conserves ran .eventsIn⟩

end FlushLoop

end ArchivAgent
