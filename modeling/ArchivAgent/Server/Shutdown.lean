import ArchivAgent.Metrics.Windows

/-!
# Shutdown

`main.rs`: two receivers, the flush loop and the drain loop, joined; one signal reaches each of
them in its own time. A request is answered when a worker has judged it, or its client goes. A
receiver that drains has finished when every request it accepted is closed.
-/

namespace ArchivAgent

inductive Receiver where
  | http
  | grpc
  deriving DecidableEq, Repr

inductive ReceiverPhase where
  | accepting
  | draining
  | finished
  deriving DecidableEq, Repr

inductive Flusher where
  | waiting
  | flushing
  /-- The flush after the signal. -/
  | last
  | finished
  deriving DecidableEq, Repr

inductive CallPhase where
  | queued
  | recording
  | judged
  deriving DecidableEq, Repr

/-- A request, and how far a worker has come with it. -/
structure Call where
  receiver : Receiver
  phase : CallPhase
  /-- It has been answered, or its client has gone. -/
  closed : Bool

structure Main where
  meter : Meter
  signalled : Bool := false
  receivers : Receiver → ReceiverPhase := fun _ => .accepting
  calls : Table Nat Call := ∅
  flusher : Flusher := .waiting
  drained : Bool := false

inductive MainEvent where
  | signal
  | accept (id : Nat) (receiver : Receiver)
  | process (id : Nat) (sample : Sample)
  | add (id : Nat)
  | recorded (id : Nat)
  /-- The request is malformed, or the worker has died. -/
  | skip (id : Nat)
  | answer (id : Nat)
  | hangUp (id : Nat)
  | stop (receiver : Receiver)
  | finish (receiver : Receiver)
  | tick (windowStartMs windowEndMs : Int)
  | last (windowStartMs windowEndMs : Int)
  | swap
  | deliver
  | stopDrain
  deriving DecidableEq, Repr

/-- What the event does to the counters. The flush loop has one flush at a time. -/
def MainEvent.meter : MainEvent → Option MeterEvent
  | .process id sample => some (.record id sample)
  | .add id => some (.add id)
  | .recorded id => some (.recorded id)
  | .tick windowStartMs windowEndMs | .last windowStartMs windowEndMs => some (.flush 0 windowStartMs windowEndMs)
  | .swap => some (.swap 0)
  | .deliver => some (.flushed 0)
  | _ => none

def MainEvent.adder : MainEvent → Option Nat
  | .add id => some id
  | _ => none

namespace Main

def new (policyVersion : Nat) : Main := { meter := .new policyVersion }

def setCall (s : Main) (id : Nat) (c : Call) : Main := { s with calls := s.calls.insert id c }

def setReceiver (s : Main) (r : Receiver) (phase : ReceiverPhase) : Main :=
  { s with receivers := Function.update s.receivers r phase }

def control (s : Main) : MainEvent → Option Main
  | .signal => some { s with signalled := true }
  | .accept id receiver =>
    match s.calls.lookup id with
    | some _ => none
    | none => if s.receivers receiver = .accepting then some (s.setCall id ⟨receiver, .queued, false⟩) else none
  | .process id _ => do
    let c ← s.calls.lookup id
    if c.phase = .queued then some (s.setCall id { c with phase := .recording }) else none
  | .add id => do
    let c ← s.calls.lookup id
    if c.phase = .recording then some s else none
  | .recorded id => do
    let c ← s.calls.lookup id
    if c.phase = .recording then some (s.setCall id { c with phase := .judged }) else none
  | .skip id => do
    let c ← s.calls.lookup id
    if c.phase = .queued then some (s.setCall id { c with phase := .judged }) else none
  | .answer id => do
    let c ← s.calls.lookup id
    if c.phase = .judged ∧ c.closed = false then some (s.setCall id { c with closed := true }) else none
  | .hangUp id => do
    let c ← s.calls.lookup id
    if c.closed = false then some (s.setCall id { c with closed := true }) else none
  | .stop receiver =>
    if s.signalled = true ∧ s.receivers receiver = .accepting then some (s.setReceiver receiver .draining) else none
  | .finish receiver =>
    if s.receivers receiver = .draining ∧ (∀ e ∈ s.calls.entries, e.2.receiver = receiver → e.2.closed = true) then
      some (s.setReceiver receiver .finished)
    else none
  | .tick _ _ => if s.flusher = .waiting then some { s with flusher := .flushing } else none
  | .last _ _ => if s.signalled = true ∧ s.flusher = .waiting then some { s with flusher := .last } else none
  | .swap =>
    match s.flusher with
    | .flushing | .last => some s
    | .waiting | .finished => none
  | .deliver =>
    match s.flusher with
    | .flushing => some { s with flusher := .waiting }
    | .last => some { s with flusher := .finished }
    | .waiting | .finished => none
  | .stopDrain => if s.signalled then some { s with drained := true } else none

def step (s : Main) (e : MainEvent) : Option Main := do
  let s' ← s.control e
  match e.meter with
  | none => some s'
  | some m => (s.meter.step m).map fun meter => { s' with meter }

def run (s : Main) (es : List MainEvent) : Option Main := Transition.run step s es

def Joined (s : Main) : Prop :=
  (∀ r, s.receivers r = .finished) ∧ s.flusher = .finished ∧ s.drained = true

/-- Each sample that has been recorded is counted in one aggregate, and in no other. -/
def Counted (s : Main) : Prop :=
  ∃ groups : List (List Sample), groups.flatten.Perm (s.meter.begun.map (·.2)) ∧
    List.Forall₂ (fun g a => ∀ c, a.get c = (g.map (·.get c)).sum % 2 ^ 64) groups s.meter.returned

/-- The last flush has swapped its first counter. -/
def Closing (s : Main) : Prop :=
  s.flusher = .finished ∨ (s.flusher = .last ∧ ∀ f ∈ s.meter.flushes.lookup 0, f.todo ≠ Counter.all)

instance (s : Main) : Decidable s.Closing :=
  inferInstanceAs (Decidable (s.flusher = .finished ∨ (s.flusher = .last ∧ ∀ f ∈ s.meter.flushes.lookup 0, f.todo ≠ Counter.all)))

/-- The step takes no record and no flush apart, and no record begins when the last flush has. -/
def Orderly (s : Main) (e : MainEvent) : Prop :=
  (∀ m ∈ e.meter, s.meter.Uncut m) ∧
    (s.Closing → ∀ id ∈ e.adder, ∀ r ∈ s.meter.records.lookup id, r.todo ≠ Counter.all)

instance (s : Main) (e : MainEvent) : Decidable (s.Orderly e) :=
  inferInstanceAs (Decidable ((∀ m ∈ e.meter, s.meter.Uncut m) ∧
    (s.Closing → ∀ id ∈ e.adder, ∀ r ∈ s.meter.records.lookup id, r.todo ≠ Counter.all)))

/-! ### The windows of the flush loop -/

/-- The aggregates are those of the windows in turn; the flush under way is of the next. -/
structure Timely (s : Main) : Prop where
  conserved : s.meter.Conserved
  windowed : s.meter.Windowed
  flushing : s.meter.flushes.lookup 0 = none ↔ s.flusher = .waiting ∨ s.flusher = .finished
  numbered : s.meter.window .eventsIn = s.meter.returned.length +
    ((s.meter.flushes.lookup 0).map fun f => if f.todo = Counter.all then 0 else 1).getD 0
  next : ∀ f ∈ s.meter.flushes.lookup 0, f.todo ≠ Counter.all → f.window = s.meter.returned.length
  sums : ∀ w a, s.meter.returned[w]? = some a → ∀ c, a.get c = s.meter.windowSum w c % 2 ^ 64
  begun : ∀ x ∈ s.meter.begun, x.1 ≤ s.meter.window .eventsIn
  closed : s.Closing → ∀ x ∈ s.meter.begun, x.1 < s.meter.window .eventsIn

section Steps
variable {s s' : Main} {e : MainEvent}

theorem step_some (h : s.step e = some s') : ∃ mid, s.control e = some mid ∧ s'.flusher = mid.flusher ∧
    match e.meter with
    | none => s'.meter = mid.meter
    | some m => s.meter.step m = some s'.meter := by
  obtain ⟨mid, control, h⟩ := Option.bind_eq_some_iff.mp h
  refine ⟨mid, control, ?_⟩
  split at h
  · cases h
    exact ⟨rfl, rfl⟩
  · obtain ⟨meter, one, h⟩ := Option.map_eq_some_iff.mp h
    cases h
    exact ⟨rfl, one⟩

theorem control_flusher {mid : Main} (h : s.control e = some mid) : mid.meter = s.meter ∧
    match e with
    | .tick _ _ => s.flusher = .waiting ∧ mid.flusher = .flushing
    | .last _ _ => s.flusher = .waiting ∧ mid.flusher = .last
    | .swap => (s.flusher = .flushing ∨ s.flusher = .last) ∧ mid.flusher = s.flusher
    | .deliver => (s.flusher = .flushing ∧ mid.flusher = .waiting) ∨ (s.flusher = .last ∧ mid.flusher = .finished)
    | _ => mid.flusher = s.flusher := by
  cases e with
  | signal => cases h; exact ⟨rfl, rfl⟩
  | accept id receiver =>
    simp only [control] at h
    split at h
    · cases h
    · split at h <;> cases h
      exact ⟨rfl, rfl⟩
  | process id | add id | recorded id | skip id | answer id | hangUp id =>
    obtain ⟨c, -, h⟩ := Option.bind_eq_some_iff.mp h
    split at h <;> cases h
    exact ⟨rfl, rfl⟩
  | stop receiver | finish receiver =>
    simp only [control] at h
    split at h <;> cases h
    exact ⟨rfl, rfl⟩
  | tick | last =>
    simp only [control] at h
    split at h <;> cases h
    exact ⟨rfl, by simp_all, rfl⟩
  | swap =>
    simp only [control] at h
    split at h <;> cases h
    · exact ⟨rfl, .inl ‹_›, rfl⟩
    · exact ⟨rfl, .inr ‹_›, rfl⟩
  | deliver =>
    simp only [control] at h
    split at h <;> cases h
    · exact ⟨rfl, .inl ⟨‹_›, rfl⟩⟩
    · exact ⟨rfl, .inr ⟨‹_›, rfl⟩⟩
  | stopDrain =>
    simp only [control] at h
    split at h <;> cases h
    exact ⟨rfl, rfl⟩

theorem Timely.frame (timely : s.Timely) (conserved : s'.meter.Conserved) (windowed : s'.meter.Windowed)
    (flusher : s'.flusher = s.flusher) (flushes : s'.meter.flushes = s.meter.flushes)
    (window : s'.meter.window = s.meter.window) (returned : s'.meter.returned = s.meter.returned)
    (sums : ∀ w < s.meter.window .eventsIn, ∀ c, s'.meter.windowSum w c = s.meter.windowSum w c)
    (begun : ∀ x ∈ s'.meter.begun, x ∈ s.meter.begun ∨ (x.1 = s.meter.window .eventsIn ∧ ¬ s.Closing)) : s'.Timely where
  conserved := conserved
  windowed := windowed
  flushing := by
    rw [flushes, flusher]
    exact timely.flushing
  numbered := by
    rw [window, returned, flushes]
    exact timely.numbered
  next := by
    rw [flushes, returned]
    exact timely.next
  sums w a found c := by
    rw [returned] at found
    have numbered := timely.numbered
    have bound := (List.getElem?_eq_some_iff.mp found).1
    rw [timely.sums w a found c, sums w (by omega) c]
  begun x member := by
    rw [window]
    rcases begun x member with old | ⟨new, -⟩
    · exact timely.begun x old
    · exact new.le
  closed closing x member := by
    have same : s.Closing := by
      rw [Closing, flusher, flushes] at closing
      exact closing
    rw [window]
    rcases begun x member with old | ⟨-, still⟩
    · exact timely.closed same x old
    · exact absurd same still

theorem Timely.add (timely : s.Timely) {id : Nat} (orderly : s.Orderly (.add id)) (flusher : s'.flusher = s.flusher)
    (one : s.meter.step (.add id) = some s'.meter) : s'.Timely := by
  have conserved := Meter.step_conserved one timely.conserved
  have windowed := Meter.step_windowed one (orderly.1 _ rfl) timely.conserved timely.windowed
  generalize after : s'.meter = meter at one
  cases Meter.step_cases one with
  | @add _ r c rest here todo =>
    refine timely.frame conserved windowed flusher (by rw [after]; rfl) (by rw [after]; rfl) (by rw [after]; rfl)
      (fun w old c' => ?_) fun x member => ?_
    · rw [after]
      exact Meter.windowSum_add_old todo old c'
    · rw [after] at member
      simp only [Meter.add] at member
      split at member
      · rename_i whole
        refine (List.mem_append.mp member).imp_right fun new => ?_
        rw [List.mem_singleton.mp new, Meter.all_head (whole.symm.trans todo)]
        exact ⟨rfl, fun closing => orderly.2 closing id rfl r here whole⟩
      · exact .inl member

theorem Timely.flush (timely : s.Timely) {windowStartMs windowEndMs : Int} (waiting : s.flusher = .waiting)
    (flusher : s'.flusher = .flushing ∨ s'.flusher = .last)
    (one : s.meter.step (.flush 0 windowStartMs windowEndMs) = some s'.meter) : s'.Timely := by
  have conserved := Meter.step_conserved one timely.conserved
  have windowed := Meter.step_windowed one trivial timely.conserved timely.windowed
  have none := timely.flushing.mpr (.inl waiting)
  have numbered := timely.numbered
  rw [none] at numbered
  generalize after : s'.meter = meter at one
  cases Meter.step_cases one with
  | flush fresh =>
    have begins : s'.meter.flushes.lookup 0 = some ⟨windowStartMs, windowEndMs, fun _ => 0, Counter.all, 0⟩ := by
      rw [after]
      exact AList.lookup_insert _
    refine ⟨conserved, windowed, ?_, ?_, fun f here begun => ?_, ?_, ?_, fun closing => ?_⟩
    · rw [begins]
      rcases flusher with flusher | flusher <;> simp [flusher]
    · rw [begins, after]
      exact numbered
    · rw [begins] at here
      cases here
      exact absurd rfl begun
    · rw [after]
      exact timely.sums
    · rw [after]
      exact timely.begun
    · rcases closing with finished | ⟨-, begun⟩
      · rcases flusher with flusher | flusher <;> rw [flusher] at finished <;> cases finished
      · exact absurd rfl (begun _ begins)

theorem Timely.swap (timely : s.Timely) (orderly : s.Orderly .swap) (flusher : s'.flusher = s.flusher)
    (one : s.meter.step (.swap 0) = some s'.meter) : s'.Timely := by
  have uncut := orderly.1 _ rfl
  have conserved := Meter.step_conserved one timely.conserved
  have windowed := Meter.step_windowed one uncut timely.conserved timely.windowed
  generalize after : s'.meter = meter at one
  cases Meter.step_cases one with
  | @swap _ f c rest here todo =>
    have same := (uncut f here c (by rw [todo]; rfl)).1
    have left := (timely.conserved.flushing 0 f here).1
    have goes : s'.meter.flushes.lookup 0 = some { f with
        taken := f.taken.set c (s.meter.counters c), todo := rest, window := s.meter.beginsAt f.todo c f.window } := by
      rw [after]
      exact AList.lookup_insert _
    have shorter : rest ≠ Counter.all := Meter.rest_ne_all (todo ▸ left)
    have numbered := timely.numbered
    rw [here, Option.map_some, Option.getD_some] at numbered
    -- the first swap closes the window; the others are of the same one
    have window : s'.meter.window .eventsIn = s.meter.returned.length + 1 ∧
        s.meter.beginsAt f.todo c f.window = s.meter.returned.length := by
      rw [after]
      by_cases whole : f.todo = Counter.all
      · rw [if_pos whole] at numbered
        have first := Meter.all_head (whole.symm.trans todo)
        simp only [Meter.swap, Meter.beginsAt, first, Counts.set_same, whole, if_true]
        exact ⟨by omega, numbered⟩
      · rw [if_neg whole] at numbered
        have next := timely.next f here whole
        have other : Counter.eventsIn ≠ c := by
          rintro rfl
          have := same.resolve_left whole
          omega
        simp only [Meter.swap, Meter.beginsAt, whole, if_false, Counts.set_other _ _ other]
        exact ⟨numbered, next⟩
    have mono : s.meter.window .eventsIn ≤ s.meter.returned.length + 1 := by
      rw [numbered]
      split <;> omega
    refine ⟨conserved, windowed, ?_, ?_, fun g found _ => ?_, ?_, fun x member => ?_, fun closing x member => ?_⟩
    · rw [goes, flusher]
      have flushing := timely.flushing
      rw [here] at flushing
      simpa using flushing
    · rw [goes, window.1, Option.map_some, Option.getD_some, if_neg shorter, after]
      rfl
    · rw [goes] at found
      cases found
      rw [after]
      exact window.2
    · rw [after]
      exact timely.sums
    · rw [window.1]
      rw [after] at member
      exact Nat.le_trans (timely.begun x member) mono
    · rw [window.1]
      rw [after] at member
      by_cases whole : f.todo = Counter.all
      · rw [if_pos whole] at numbered
        have := timely.begun x member
        omega
      · have before : s.Closing := by
          rw [Closing, flusher] at closing
          refine closing.imp_right fun last => ⟨last.1, fun g found => ?_⟩
          cases here.symm.trans found
          exact whole
        exact Nat.lt_of_lt_of_le (timely.closed before x member) mono

theorem Timely.deliver (timely : s.Timely)
    (flusher : (s.flusher = .flushing ∧ s'.flusher = .waiting) ∨ (s.flusher = .last ∧ s'.flusher = .finished))
    (one : s.meter.step (.flushed 0) = some s'.meter) : s'.Timely := by
  have conserved := Meter.step_conserved one timely.conserved
  have windowed := Meter.step_windowed one trivial timely.conserved timely.windowed
  generalize after : s'.meter = meter at one
  cases Meter.step_cases one with
  | @flushed _ f here done =>
    have begun : f.todo ≠ Counter.all := by
      rw [done]
      decide
    have gone : s'.meter.flushes.lookup 0 = none := by
      rw [after]
      exact AList.lookup_erase _ _
    have numbered := timely.numbered
    rw [here, Option.map_some, Option.getD_some, if_neg begun] at numbered
    have next := timely.next f here begun
    have returned : s'.meter.returned = s.meter.returned ++ [s.meter.aggregate f] := by
      rw [after]
      rfl
    refine ⟨conserved, windowed, ?_, ?_, fun g found => ?_, fun w a found c => ?_, ?_, fun closing => ?_⟩
    · rw [gone]
      rcases flusher with ⟨-, flusher⟩ | ⟨-, flusher⟩ <;> simp [flusher]
    · rw [gone, returned, List.length_append, after]
      exact numbered
    · rw [gone] at found
      cases found
    · have sum : s'.meter.windowSum w c = s.meter.windowSum w c := by
        rw [after]
        rfl
      rw [returned] at found
      rw [sum]
      rcases Nat.lt_trichotomy w s.meter.returned.length with old | rfl | above
      · rw [List.getElem?_append_left old] at found
        exact timely.sums w a found c
      · rw [List.getElem?_append_right (Nat.le_refl _), Nat.sub_self] at found
        cases found
        rw [Meter.aggregate, Aggregate.of_get, (timely.windowed.drained 0 f here begun).2 c (by rw [done]; exact List.not_mem_nil), next]
      · have bound := (List.getElem?_eq_some_iff.mp found).1
        rw [List.length_append, List.length_singleton] at bound
        omega
    · rw [after]
      exact timely.begun
    · rw [after]
      apply timely.closed
      rcases flusher with ⟨-, waiting⟩ | ⟨last, -⟩
      · rcases closing with finished | ⟨last, -⟩
        · rw [waiting] at finished
          cases finished
        · rw [waiting] at last
          cases last
      · refine .inr ⟨last, fun g found => ?_⟩
        cases here.symm.trans found
        exact begun

end Steps

theorem step_timely {s s' : Main} {e : MainEvent} (h : s.step e = some s') (orderly : s.Orderly e) (timely : s.Timely) :
    s'.Timely := by
  obtain ⟨mid, control, flusher, meter⟩ := step_some h
  obtain ⟨same, moved⟩ := control_flusher control
  cases e with
  | add id => exact timely.add orderly (flusher.trans moved) meter
  | tick windowStartMs windowEndMs =>
    exact timely.flush moved.1 (.inl (flusher.trans moved.2)) meter
  | last windowStartMs windowEndMs =>
    exact timely.flush moved.1 (.inr (flusher.trans moved.2)) meter
  | swap => exact timely.swap orderly (flusher.trans moved.2) meter
  | deliver =>
    rw [← flusher] at moved
    exact timely.deliver moved meter
  | process id | recorded id =>
    have conserved := Meter.step_conserved meter timely.conserved
    have windowed := Meter.step_windowed meter trivial timely.conserved timely.windowed
    generalize after : s'.meter = m at meter
    cases Meter.step_cases meter
    all_goals
      exact timely.frame conserved windowed (flusher.trans moved) (by rw [after]) (by rw [after]) (by rw [after])
        (fun _ _ _ => by rw [after]; rfl) fun x member => .inl (by rw [after] at member; exact member)
  | signal | accept | skip | answer | hangUp | stop | finish | stopDrain =>
    have unmoved : s'.meter = s.meter := meter.trans same
    refine timely.frame (unmoved ▸ timely.conserved) (unmoved ▸ timely.windowed) (flusher.trans moved) (by rw [unmoved])
      (by rw [unmoved]) (by rw [unmoved]) (fun _ _ _ => by rw [unmoved]) fun x member => .inl (unmoved ▸ member)

theorem new_timely (policyVersion : Nat) : (new policyVersion).Timely where
  conserved := Meter.new_conserved policyVersion
  windowed := Meter.new_windowed policyVersion
  flushing := ⟨fun _ => .inl rfl, fun _ => rfl⟩
  numbered := rfl
  next _ found := nomatch found
  sums _ _ found := nomatch found
  begun _ member := nomatch member
  closed _ _ member := nomatch member

theorem inWindow_perm (l : List (Nat × Sample)) (n : Nat) :
    ((List.range n).map fun w => (l.filter (·.1 = w)).map (·.2)).flatten.Perm ((l.filter (·.1 < n)).map (·.2)) := by
  induction n with
  | zero => simp
  | succ n ih =>
    rw [List.range_succ, List.map_append, List.flatten_append, List.map_singleton, List.flatten_singleton]
    apply (ih.append_right _).trans
    rw [← List.map_append]
    apply List.Perm.map _
    have split := List.filter_append_perm (fun x : Nat × Sample => decide (x.1 < n)) (l.filter (·.1 < n + 1))
    rw [List.filter_filter, List.filter_filter] at split
    refine .trans (.of_eq ?_) split
    have older : l.filter (·.1 < n) = l.filter fun x => decide (x.1 < n) && decide (x.1 < n + 1) :=
      List.filter_congr fun x _ => Bool.eq_iff_iff.mpr (by
        simp only [decide_eq_true_eq, Bool.and_eq_true]
        omega)
    have newer : l.filter (·.1 = n) = l.filter fun x => !decide (x.1 < n) && decide (x.1 < n + 1) :=
      List.filter_congr fun x _ => Bool.eq_iff_iff.mpr (by
        simp only [decide_eq_true_eq, Bool.and_eq_true, Bool.not_eq_true', decide_eq_false_iff_not]
        omega)
    rw [older, newer]

section Runs
variable {policyVersion : Nat} {es : List MainEvent} {s : Main}

theorem shutdown_counts (ran : (new policyVersion).run es = some s)
    (orderly : Transition.Along step Orderly (new policyVersion) es) (joined : s.Joined) : s.Counted := by
  have timely := Transition.along_invariant Timely ran orderly (fun _ _ _ => step_timely) (new_timely policyVersion)
  have finished := joined.2.1
  have numbered := timely.numbered
  rw [timely.flushing.mpr (.inr finished), Option.map_none, Option.getD_none, Nat.add_zero] at numbered
  have closed := timely.closed (.inl finished)
  refine ⟨(List.range s.meter.returned.length).map s.meter.inWindow, ?_, ?_⟩
  · refine (inWindow_perm s.meter.begun s.meter.returned.length).trans (.of_eq (congrArg _ ?_))
    exact List.filter_eq_self.mpr fun x member => decide_eq_true (numbered ▸ closed x member)
  · refine List.forall₂_iff_get.mpr ⟨by simp, fun i here there c => ?_⟩
    simp only [List.get_eq_getElem, List.getElem_map, List.getElem_range]
    exact timely.sums i _ (List.getElem?_eq_getElem there) c

end Runs

/-- A request is recorded and answered, the signal comes, and the last flush counts it. -/
def orderlyRun : List MainEvent :=
  .accept 0 .http :: .process 0 ⟨3, 1, 2, 30, 20, 0, false⟩ :: (List.replicate 8 (.add 0) ++ .recorded 0 :: .answer 0 ::
    .signal :: .stop .http :: .stop .grpc :: .last 0 10000 :: (List.replicate 8 .swap ++
      [.deliver, .finish .http, .finish .grpc, .stopDrain]))

theorem shutdown_counts_orderly : ∃ s, (new 0).run orderlyRun = some s ∧ s.meter.begun.length = 1 ∧ s.Counted := by
  obtain ⟨s, ran, found⟩ := Option.map_eq_some_iff.mp (show ((new 0).run orderlyRun).map
    (fun s => (s.meter.begun.length, s.receivers .http, s.receivers .grpc, s.flusher, s.drained)) =
      some (1, .finished, .finished, .finished, true) by decide +kernel)
  simp only [Prod.mk.injEq] at found
  obtain ⟨one, http, grpc, flusher, drained⟩ := found
  have orderly : Transition.Along step Orderly (new 0) orderlyRun := by decide +kernel
  refine ⟨s, ran, one, shutdown_counts ran orderly ⟨fun r => ?_, flusher, drained⟩⟩
  cases r with
  | http => exact http
  | grpc => exact grpc

/-- The signal finds a request in flight; the last flush comes before it is recorded. -/
def lateRun : List MainEvent :=
  .accept 0 .http :: .signal :: .last 0 10000 :: (List.replicate 8 .swap ++ .deliver :: .stop .http :: .stop .grpc ::
    .process 0 ⟨3, 1, 2, 30, 20, 0, false⟩ :: (List.replicate 8 (.add 0) ++
      [.recorded 0, .answer 0, .finish .http, .finish .grpc, .stopDrain]))

theorem shutdown_counts_not : ¬ ∀ policyVersion es s, (new policyVersion).run es = some s → s.Joined → s.Counted := by
  intro counts
  obtain ⟨s, ran, found⟩ := Option.map_eq_some_iff.mp (show ((new 0).run lateRun).map
    (fun s => ((s.meter.begun, s.meter.returned), s.receivers .http, s.receivers .grpc, s.flusher, s.drained)) =
      some (([(1, ⟨3, 1, 2, 30, 20, 0, false⟩)], [⟨0, 0, 10000, 0, 0, 0, 0, 0, 0, 0, 0, 0⟩]), .finished, .finished, .finished,
        true) by decide +kernel)
  simp only [Prod.mk.injEq] at found
  obtain ⟨⟨begun, returned⟩, http, grpc, flusher, drained⟩ := found
  have joined : s.Joined := by
    refine ⟨fun r => ?_, flusher, drained⟩
    cases r with
    | http => exact http
    | grpc => exact grpc
  obtain ⟨groups, all, sums⟩ := counts 0 lateRun s ran joined
  rw [begun] at all
  rw [returned] at sums
  obtain ⟨g, rest, zero, none, rfl⟩ := List.forall₂_cons_right_iff.mp sums
  cases List.forall₂_nil_right_iff.mp none
  rw [List.flatten_singleton] at all
  have lone := List.perm_singleton.mp all
  have lost := zero .eventsIn
  rw [lone] at lost
  exact absurd lost (by decide)

end Main

end ArchivAgent
