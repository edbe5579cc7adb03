import ArchivAgent.Agent.Pipeline
import ArchivAgent.Agent.Tripping
import ArchivAgent.Table.Table

/-!
# One breaker, many calls

The workers of both pools share a pipeline and its breaker. A call reads the clock once, asks the
breaker, runs the redaction stage without the lock, and records a fault under the time it read
first; other calls come in between, and times may go back.
-/

namespace ArchivAgent
open Transition

namespace CircuitBreaker

structure Shared where
  inner : Inner
  /-- The stages that run, each with the time its call has read. -/
  running : Table Nat Nat := ∅
  trips : Nat := 0
  closes : Nat := 0
  faults : Nat := 0

namespace Shared

inductive Event where
  | enter (id now : Nat)
  | applied (id : Nat)
  | faulted (id : Nat)
  deriving DecidableEq, Repr

def step (b : CircuitBreaker) (s : Shared) : Event → Option Shared
  | .enter id now =>
    match s.running.lookup id with
    | some _ => none
    | none =>
      let (allowed, inner) := b.allowAt s.inner now
      some (if allowed then { s with
          inner
          running := s.running.insert id now
          closes := if s.inner.openedAt.isSome then s.closes + 1 else s.closes }
        -- the stage is skipped
        else { s with inner })
  | .applied id => (s.running.lookup id).map fun _ => { s with running := s.running.erase id }
  | .faulted id => (s.running.lookup id).map fun now =>
    let (tripped, inner) := b.recordFaultAt s.inner now
    { s with
      inner
      running := s.running.erase id
      trips := if tripped then s.trips + 1 else s.trips
      faults := s.faults + 1 }

def run (b : CircuitBreaker) (s : Shared) (es : List Event) : Option Shared := Transition.run (step b) s es

def start (now : Nat) : Shared where
  inner := { windowStart := now }

/-! ### What a step does -/

inductive Step (b : CircuitBreaker) (s : Shared) : Event → Shared → Prop where
  | passes {id now} (fresh : s.running.lookup id = none) (closed : s.inner.openedAt = none) :
      Step b s (.enter id now) { s with running := s.running.insert id now }
  | closes {id now opened} (fresh : s.running.lookup id = none) (was : s.inner.openedAt = some opened)
      (cooled : b.cooldown ≤ now - opened) :
      Step b s (.enter id now) { s with
        inner := { windowStart := now }, running := s.running.insert id now, closes := s.closes + 1 }
  | skips {id now opened} (fresh : s.running.lookup id = none) (was : s.inner.openedAt = some opened)
      (cooling : now - opened < b.cooldown) : Step b s (.enter id now) s
  | applied {id now} (here : s.running.lookup id = some now) :
      Step b s (.applied id) { s with running := s.running.erase id }
  | counts {id now} (here : s.running.lookup id = some now)
      (below : s.inner.openedAt = none → (counted b s.inner now).2 < b.threshold) :
      Step b s (.faulted id) { s with
        inner := ⟨(counted b s.inner now).1, (counted b s.inner now).2, s.inner.openedAt⟩
        running := s.running.erase id
        faults := s.faults + 1 }
  | trips {id now} (here : s.running.lookup id = some now) (closed : s.inner.openedAt = none)
      (reached : b.threshold ≤ (counted b s.inner now).2) :
      Step b s (.faulted id) { s with
        inner := ⟨(counted b s.inner now).1, (counted b s.inner now).2, some now⟩
        running := s.running.erase id
        trips := s.trips + 1
        faults := s.faults + 1 }

theorem step_cases {b : CircuitBreaker} {s s' : Shared} {e : Event} (h : step b s e = some s') : Step b s e s' := by
  obtain ⟨⟨windowStart, faults, openedAt⟩, running, trips, closes, total⟩ := s
  cases e with
  | enter id now =>
    simp only [step] at h
    split at h
    · cases h
    · rename_i fresh
      cases openedAt with
      | none =>
        simp only [allowAt, if_true, Option.isSome_none, Bool.false_eq_true, if_false] at h
        cases h
        exact .passes fresh rfl
      | some opened =>
        by_cases cooling : now - opened < b.cooldown
        · simp only [allowAt, if_pos cooling, Bool.false_eq_true, if_false] at h
          cases h
          exact .skips fresh rfl cooling
        · simp only [allowAt, if_neg cooling, if_true, Option.isSome_some] at h
          cases h
          exact .closes fresh rfl (by omega)
  | applied id =>
    obtain ⟨now, here, rfl⟩ := Option.map_eq_some_iff.mp h
    exact .applied here
  | faulted id =>
    obtain ⟨now, here, rfl⟩ := Option.map_eq_some_iff.mp h
    simp only [recordFaultAt_eq]
    split
    · rename_i trips
      exact .trips here trips.2 trips.1
    · rename_i stays
      exact .counts here fun closed => Nat.lt_of_not_le fun reached => stays ⟨reached, closed⟩

/-! ### Trips -/

/-- Every fault is counted towards one trip at most. -/
structure Sound (b : CircuitBreaker) (s : Shared) : Prop where
  alternate : s.trips = s.closes + (if s.inner.openedAt.isSome then 1 else 0)
  spent : b.threshold * s.trips + (if s.inner.openedAt.isSome then 0 else s.inner.faults) ≤ s.faults
  below : s.inner.openedAt = none → s.inner.faults < b.threshold

section Steps
variable {b : CircuitBreaker} {s s' : Shared} {e : Event}

theorem start_sound (positive : 0 < b.threshold) (now : Nat) : (start now).Sound b :=
  ⟨rfl, Nat.le_refl _, fun _ => positive⟩

theorem counted_le (b : CircuitBreaker) (g : Inner) (now : Nat) : (counted b g now).2 ≤ g.faults + 1 := by
  rw [counted]
  split
  · exact Nat.le_add_left 1 _
  · exact Nat.mod_le _ _

theorem step_sound (h : step b s e = some s') (positive : 0 < b.threshold) (sound : s.Sound b) : s'.Sound b := by
  obtain ⟨alternate, spent, below⟩ := sound
  cases step_cases h with
  | passes | skips | applied => exact ⟨alternate, spent, below⟩
  | closes fresh was cooled =>
    rw [was] at alternate spent
    simp only [Option.isSome_some, if_true] at alternate spent
    exact ⟨by simpa using alternate, spent, fun _ => positive⟩
  | @counts id now here stays =>
    have grown := counted_le b s.inner now
    refine ⟨alternate, ?_, stays⟩
    cases opened : s.inner.openedAt with
    | none =>
      rw [opened] at spent
      simp only [Option.isSome_none, Bool.false_eq_true, if_false] at spent ⊢
      omega
    | some o =>
      rw [opened] at spent
      simp only [Option.isSome_some, if_true] at spent ⊢
      omega
  | @trips id now here closed reached =>
    have grown := counted_le b s.inner now
    rw [closed] at alternate spent
    simp only [Option.isSome_none, Bool.false_eq_true, if_false] at alternate spent
    refine ⟨by simpa using alternate, ?_, nofun⟩
    simp only [Option.isSome_some, if_true, Nat.mul_add, Nat.mul_one]
    omega

end Steps

theorem new_positive (threshold window cooldown : Nat) : 0 < (new threshold window cooldown).threshold :=
  Nat.lt_of_lt_of_le Nat.zero_lt_one (Nat.le_max_right _ _)

/-- Between two trips the breaker closes, and every trip has a threshold of faults of its own. -/
theorem trips_justified {threshold window cooldown now : Nat} {es : List Event} {s : Shared}
    (ran : run (new threshold window cooldown) (start now) es = some s) :
    s.trips = s.closes + (if s.inner.openedAt.isSome then 1 else 0) ∧ max threshold 1 * s.trips ≤ s.faults := by
  have sound := run_invariant (Sound (new threshold window cooldown)) ran
    (fun _ _ _ _ one sound => step_sound one (new_positive _ _ _) sound) (start_sound (new_positive _ _ _) now)
  exact ⟨sound.alternate, Nat.le_trans (Nat.le_add_right _ _) sound.spent⟩

/-- Two calls that overlap; the first to fail has read the earlier time. -/
def overlapping : List Event := [.enter 0 5, .enter 1 3, .faulted 1, .faulted 0]

theorem trips_justified_overlapping : ∃ s, run (new 2 10 30) (start 0) overlapping = some s ∧ s.trips = 1 ∧
    s.trips = s.closes + (if s.inner.openedAt.isSome then 1 else 0) ∧ max 2 1 * s.trips ≤ s.faults := by
  obtain ⟨s, ran, once⟩ := Option.map_eq_some_iff.mp
    (show (run (new 2 10 30) (start 0) overlapping).map (fun s => s.trips) = some 1 by decide +kernel)
  exact ⟨s, ran, once, trips_justified ran⟩

/-! ### A stretch of faults -/

section Stretch
variable {b : CircuitBreaker} {workers since span before : Nat} {s s' : Shared} {e : Event}

/-- No more stages run than there are workers, and the calls that come read a time of the stretch. -/
def Within (workers since span : Nat) (s : Shared) : Event → Prop
  | .enter _ now => s.running.keys.length ≤ workers ∧ since ≤ now ∧ now ≤ since + span
  | _ => s.running.keys.length ≤ workers

instance (workers since span : Nat) (s : Shared) : (e : Event) → Decidable (Within workers since span s e)
  | .enter _ _ => inferInstanceAs (Decidable (_ ∧ _))
  | .applied _ | .faulted _ => inferInstanceAs (Decidable (_ ≤ _))

/-- The faults of a stretch, by what the breaker has made of it so far: not yet in a window of the
stretch, in one, open since before, or tripped. -/
structure Limited (b : CircuitBreaker) (workers since span before : Nat) (s : Shared) : Prop where
  sound : s.Sound b
  times : ∀ id now, s.running.lookup id = some now → since ≤ now ∧ now ≤ since + span
  stale : s.inner.openedAt = none → s.inner.windowStart < since → s.faults ≤ before + s.inner.faults
  fresh : s.inner.openedAt = none → since ≤ s.inner.windowStart →
    s.faults ≤ before + max (b.threshold - 1) workers + s.inner.faults
  old : ∀ opened, s.inner.openedAt = some opened → opened < since → s.faults + s.running.keys.length ≤ before + workers
  new : ∀ opened, s.inner.openedAt = some opened → since ≤ opened →
    s.faults + s.running.keys.length < before + max (b.threshold - 1) workers + b.threshold + workers

theorem length_erase {t : Table Nat Nat} {k v : Nat} (found : t.lookup k = some v) :
    (t.erase k).keys.length + 1 = t.keys.length := by
  have member : k ∈ t.keys := AList.mem_keys.mp (AList.lookup_isSome.mp (by rw [found]; rfl))
  have some := List.length_pos_of_mem member
  rw [AList.keys_erase, List.length_erase_of_mem member]
  omega

theorem Limited.counted (limited : Limited b workers since span before s) (small : b.threshold < 2 ^ 32)
    (rolls : span ≤ b.window) {id now : Nat} (here : s.running.lookup id = some now) (closed : s.inner.openedAt = none) :
    (counted b s.inner now).2 ≤ b.threshold ∧
      ((counted b s.inner now).1 < since → s.faults + 1 ≤ before + (counted b s.inner now).2) ∧
      (since ≤ (counted b s.inner now).1 →
        s.faults + 1 ≤ before + max (b.threshold - 1) workers + (counted b s.inner now).2) := by
  obtain ⟨early, late⟩ := limited.times id now here
  have below := limited.sound.below closed
  have most := Nat.le_max_left (b.threshold - 1) workers
  rw [CircuitBreaker.counted]
  split
  · -- only a window from before the stretch has run out
    have stale : s.inner.windowStart < since := by omega
    have bound := limited.stale closed stale
    refine ⟨by simp only; omega, fun earlier => absurd early (Nat.not_le.mpr earlier), fun _ => ?_⟩
    simp only
    omega
  · have exact' : (s.inner.faults + 1) % 2 ^ 32 = s.inner.faults + 1 := Nat.mod_eq_of_lt (by omega)
    simp only [exact']
    refine ⟨below, fun stale => ?_, fun fresh => ?_⟩
    · have bound := limited.stale closed stale
      omega
    · have bound := limited.fresh closed fresh
      omega

theorem step_limited (h : step b s e = some s') (small : b.threshold < 2 ^ 32) (positive : 0 < b.threshold)
    (rolls : span ≤ b.window) (cools : span < b.cooldown) (within : Within workers since span s e)
    (limited : Limited b workers since span before s) : Limited b workers since span before s' := by
  have sound := step_sound h positive limited.sound
  cases step_cases h with
  | @passes id now vacant closed =>
    refine ⟨sound, fun i t found => ?_, limited.stale, limited.fresh, ?_, ?_⟩
    · rcases Table.lookup_of_insert found with ⟨-, rfl⟩ | ⟨-, found⟩
      · exact within.2
      · exact limited.times i t found
    · intro opened was
      rw [closed] at was
      cases was
    · intro opened was
      rw [closed] at was
      cases was
  | @closes id now opened vacant was cooled =>
    have earlier : opened < since := by
      have later := within.2.2
      omega
    have few := limited.old opened was earlier
    refine ⟨sound, fun i t found => ?_, fun _ stale => ?_, fun _ _ => ?_, nofun, nofun⟩
    · rcases Table.lookup_of_insert found with ⟨-, rfl⟩ | ⟨-, found⟩
      · exact within.2
      · exact limited.times i t found
    · exact absurd within.2.1 (Nat.not_le.mpr stale)
    · show s.faults ≤ before + max (b.threshold - 1) workers + 0
      have most := Nat.le_max_right (b.threshold - 1) workers
      omega
  | skips => exact ⟨sound, limited.times, limited.stale, limited.fresh, limited.old, limited.new⟩
  | @applied id now here =>
    have fewer := length_erase here
    refine ⟨sound, fun i t found => limited.times i t (Table.lookup_of_erase found).2, limited.stale, limited.fresh, ?_, ?_⟩
    · intro opened was earlier
      have bound := limited.old opened was earlier
      show s.faults + (s.running.erase id).keys.length ≤ _
      omega
    · intro opened was later
      have bound := limited.new opened was later
      show s.faults + (s.running.erase id).keys.length < _
      omega
  | @counts id now here below =>
    have fewer := length_erase here
    refine ⟨sound, fun i t found => limited.times i t (Table.lookup_of_erase found).2, fun closed => ?_, fun closed => ?_,
      fun opened was earlier => ?_, fun opened was later => ?_⟩
    · exact (limited.counted small rolls here closed).2.1
    · exact (limited.counted small rolls here closed).2.2
    · have bound := limited.old opened was earlier
      show s.faults + 1 + (s.running.erase id).keys.length ≤ _
      omega
    · have bound := limited.new opened was later
      show s.faults + 1 + (s.running.erase id).keys.length < _
      omega
  | @trips id now here closed reached =>
    have fewer := length_erase here
    have room : s.running.keys.length ≤ workers := within
    obtain ⟨early, -⟩ := limited.times id now here
    obtain ⟨most, stale, fresh⟩ := limited.counted small rolls here closed
    refine ⟨sound, fun i t found => limited.times i t (Table.lookup_of_erase found).2, nofun, nofun,
      fun opened was earlier => ?_, fun opened was later => ?_⟩
    · cases was
      exact absurd early (Nat.not_le.mpr earlier)
    · show s.faults + 1 + (s.running.erase id).keys.length < _
      rcases Nat.lt_or_ge (CircuitBreaker.counted b s.inner now).1 since with before' | after
      · have bound := stale before'
        omega
      · have bound := fresh after
        omega

theorem Limited.bound (limited : Limited b workers since span before s) (positive : 0 < b.threshold) :
    s.faults < before + max (b.threshold - 1) workers + b.threshold + workers := by
  have most := Nat.le_max_right (b.threshold - 1) workers
  cases opened : s.inner.openedAt with
  | none =>
    have below := limited.sound.below opened
    rcases Nat.lt_or_ge s.inner.windowStart since with stale | fresh
    · have bound := limited.stale opened stale
      omega
    · have bound := limited.fresh opened fresh
      omega
  | some o =>
    rcases Nat.lt_or_ge o since with old | new
    · have bound := limited.old o opened old
      omega
    · have bound := limited.new o opened new
      omega

/-- However the calls of a stretch interleave, a stage that keeps failing fails only so often before
the breaker has it skipped: the stretch is no longer than the window and shorter than the cooldown. -/
theorem faults_bounded {threshold window cooldown now : Nat} {es more : List Event} (small : threshold < 2 ^ 32)
    (ran : run (new threshold window cooldown) (start now) es = some s)
    (stretch : run (new threshold window cooldown) s more = some s')
    (rolls : span ≤ window) (cools : span < cooldown) (few : s.running.keys.length ≤ workers)
    (times : ∀ id t, s.running.lookup id = some t → since ≤ t ∧ t ≤ since + span)
    (within : Along (step (new threshold window cooldown)) (Within workers since span) s more) :
    s'.faults < s.faults + max (max threshold 1 - 1) workers + max threshold 1 + workers := by
  have positive := new_positive threshold window cooldown
  have narrow : max threshold 1 < 2 ^ 32 := by omega
  have sound := run_invariant (Sound (new threshold window cooldown)) ran
    (fun _ _ _ _ one sound => step_sound one positive sound) (start_sound positive now)
  have most := Nat.le_max_right (max threshold 1 - 1) workers
  have start : Limited (new threshold window cooldown) workers since span s.faults s :=
    ⟨sound, times, fun _ _ => Nat.le_add_right _ _, fun _ _ => by omega, fun _ _ _ => by omega, fun _ _ _ => by
      show _ < s.faults + max (max threshold 1 - 1) workers + max threshold 1 + workers
      omega⟩
  have limited := along_invariant (Limited (new threshold window cooldown) workers since span s.faults) stretch within
    (fun _ _ _ one within limited => step_limited one narrow positive rolls cools within limited) start
  exact limited.bound positive

end Stretch

theorem faults_bounded_overlapping : ∃ s, run (new 2 10 30) (start 0) overlapping = some s ∧
    s.faults < 0 + max (max 2 1 - 1) 2 + max 2 1 + 2 := by
  obtain ⟨s, ran, -⟩ := Option.map_eq_some_iff.mp
    (show (run (new 2 10 30) (start 0) overlapping).map (fun _ => ()) = some () by decide +kernel)
  refine ⟨s, ran, ?_⟩
  refine @faults_bounded 2 0 9 _ _ 2 10 30 0 [] overlapping (by decide) rfl ran (by decide) (by decide) (by decide)
    (fun id t found => ?_) (by decide +kernel)
  cases found

/-! ### One call -/

/-- The redaction stage behind its breaker is a call of its own on the shared breaker. -/
theorem redactGuarded_run {crates : Crates} {p : Pipeline} {s : Shared} {id now : Nat} {fault : Option StageFault}
    {env env' : Envelope} {bypassed : Bool} {after : Inner} (vacant : s.running.lookup id = none)
    (ok : p.redactGuarded crates s.inner now fault env = .ok (bypassed, env', after)) :
    ∃ es s', run p.redactBreaker s es = some s' ∧ s'.inner = after ∧ ∀ i, s'.running.lookup i = s.running.lookup i := by
  have restored : ∀ i, ((s.running.insert id now).erase id).lookup i = s.running.lookup i := by
    intro i
    by_cases same : i = id
    · rw [same, AList.lookup_erase, vacant]
    · rw [AList.lookup_erase_ne same, AList.lookup_insert_ne same]
  unfold Pipeline.redactGuarded at ok
  cases asked : p.redactBreaker.allowAt s.inner now with
  | mk allowed inner =>
    rw [asked] at ok
    cases allowed with
    | false =>
      cases ok
      refine ⟨[.enter id now], { s with inner := after }, ?_, rfl, fun _ => rfl⟩
      simp only [run, run_cons, run_nil, step, vacant, asked, Bool.false_eq_true, if_false, Option.bind_some]
    | true =>
      obtain ⟨⟨outcome, staged⟩, -, ok⟩ := Run.bind_ok ok
      let entered : Shared := { s with
        inner
        running := s.running.insert id now
        closes := if s.inner.openedAt.isSome then s.closes + 1 else s.closes }
      have enters : step p.redactBreaker s (.enter id now) = some entered := by
        simp only [step, vacant, asked, if_true]
        rfl
      have here : entered.running.lookup id = some now := AList.lookup_insert _
      cases outcome with
      | applied =>
        cases ok
        have applies : step p.redactBreaker entered (.applied id) =
            some { entered with running := entered.running.erase id } := by
          simp only [step, here, Option.map_some]
        exact ⟨[.enter id now, .applied id], _, run_cons_some.mpr ⟨entered, enters, run_cons_some.mpr ⟨_, applies, rfl⟩⟩,
          rfl, restored⟩
      | bypassed reason =>
        cases ok
        obtain ⟨faulted, faults⟩ : ∃ s', step p.redactBreaker entered (.faulted id) = some s' ∧
            s'.inner = (p.redactBreaker.recordFaultAt inner now).2 ∧ s'.running = entered.running.erase id := by
          simp only [step, here, Option.map_some]
          exact ⟨_, rfl, rfl, rfl⟩
        refine ⟨[.enter id now, .faulted id], faulted,
          run_cons_some.mpr ⟨entered, enters, run_cons_some.mpr ⟨faulted, faults.1, rfl⟩⟩, faults.2.1, fun i => ?_⟩
        rw [faults.2.2]
        exact restored i

end Shared

end CircuitBreaker

end ArchivAgent
