import ArchivAgent.Metrics.Metrics

/-!
# No add is lost

Whatever has been added to a counter is in an aggregate, in a drain that is under way, or in the
counter, up to multiples of `2^64`.
-/

namespace ArchivAgent

theorem Aggregate.of_get (seq : Nat) (windowStartMs windowEndMs : Int) (policyVersion : Nat) (d : Counts) (c : Counter) :
    (Aggregate.of seq windowStartMs windowEndMs policyVersion d).get c = d c := by
  cases c <;> rfl

@[simp] theorem Counts.set_same (counts : Counts) (c : Counter) (n : Nat) : counts.set c n c = n := if_pos rfl

@[simp] theorem Counts.set_other {c c' : Counter} (counts : Counts) (n : Nat) (other : c' ≠ c) :
    counts.set c n c' = counts c' :=
  if_neg other

theorem Counter.mem_all (c : Counter) : c ∈ Counter.all := by cases c <;> decide

theorem Counter.all_nodup : Counter.all.Nodup := by decide

theorem Counter.notMem_rest {c : Counter} {rest : List Counter} (left : c :: rest <:+ Counter.all) : c ∉ rest :=
  (List.nodup_cons.mp (Counter.all_nodup.sublist left.sublist)).1

namespace Meter

/-- All there is of a counter. -/
def total (s : Meter) (c : Counter) : Nat :=
  (s.returned.map (·.get c)).sum + s.flushes.total (fun _ f => f.taken c) + s.counters c

def owed (s : Meter) (c : Counter) : Nat := s.records.total fun _ r => if c ∈ r.todo then r.sample.get c else 0

def sampled (s : Meter) (c : Counter) : Nat := (s.samples.map (·.get c)).sum

structure Conserved (s : Meter) : Prop where
  recording : ∀ id r, s.records.lookup id = some r → r.todo <:+ Counter.all
  flushing : ∀ id f, s.flushes.lookup id = some f → f.todo <:+ Counter.all ∧ ∀ c ∈ f.todo, f.taken c = 0
  balance : ∀ c, ∃ lost, s.total c + 2 ^ 64 * lost = s.added c
  pending : ∀ c, s.added c + s.owed c = s.sampled c
  seq : s.seq = s.returned.length % 2 ^ 64
  seqs : s.returned.map (·.seq) = (List.range s.returned.length).map (· % 2 ^ 64)

section Steps
variable {s s' : Meter} {id : Nat} {r : Recording} {f : Flushing} {c : Counter} {rest : List Counter}

theorem Conserved.record (kept : s.Conserved) (fresh : s.records.lookup id = none) (sample : Sample) :
    Conserved { s with
      records := s.records.insert id ⟨sample, Counter.all, 0⟩
      samples := s.samples ++ [sample] } where
  recording i q found := by
    rcases Table.lookup_of_insert found with ⟨-, rfl⟩ | ⟨-, found⟩
    · exact List.suffix_refl _
    · exact kept.recording i q found
  flushing := kept.flushing
  balance := kept.balance
  pending c := by
    have before := kept.pending c
    simp only [owed, sampled, Table.total_insert fresh, if_pos (Counter.mem_all c), List.map_append, List.sum_append,
      List.map_singleton, List.sum_singleton] at before ⊢
    omega
  seq := kept.seq
  seqs := kept.seqs

theorem Conserved.add (kept : s.Conserved) (here : s.records.lookup id = some r) (todo : r.todo = c :: rest) :
    (s.add id r c rest).Conserved where
  recording i q found := by
    rcases Table.lookup_of_insert found with ⟨-, rfl⟩ | ⟨-, found⟩
    · exact (List.suffix_cons c rest).trans (todo ▸ kept.recording id r here)
    · exact kept.recording i q found
  flushing := kept.flushing
  balance c' := by
    obtain ⟨lost, balance⟩ := kept.balance c'
    by_cases same : c' = c
    · subst same
      refine ⟨lost + (s.counters c' + r.sample.get c') / 2 ^ 64, ?_⟩
      simp only [total, Meter.add, Counts.set_same] at balance ⊢
      omega
    · refine ⟨lost, ?_⟩
      simp only [total, Meter.add, Counts.set_other _ _ same] at balance ⊢
      exact balance
  pending c' := by
    have before := kept.pending c'
    have moved := Table.total_replace (w := fun (_ : Nat) (r : Recording) => if c' ∈ r.todo then r.sample.get c' else 0)
      (u := { r with todo := rest, window := s.beginsAt r.todo c r.window }) here
    have left : c' ∈ r.todo ↔ c' = c ∨ c' ∈ rest := by rw [todo, List.mem_cons]
    have absent := Counter.notMem_rest (todo ▸ kept.recording id r here)
    by_cases same : c' = c
    · subst same
      simp only [owed, sampled, Meter.add, Counts.set_same, left, if_neg absent, true_or, if_true] at before moved ⊢
      omega
    · simp only [owed, sampled, Meter.add, Counts.set_other _ _ same, left, same, false_or] at before moved ⊢
      omega
  seq := kept.seq
  seqs := kept.seqs

theorem Conserved.recorded (kept : s.Conserved) (here : s.records.lookup id = some r) (done : r.todo = []) :
    Conserved { s with records := s.records.erase id } where
  recording i q found := kept.recording i q (Table.lookup_of_erase found).2
  flushing := kept.flushing
  balance := kept.balance
  pending c := by
    have before := kept.pending c
    rw [owed, Table.total_erase here] at before
    simp only [done, List.not_mem_nil, if_false, Nat.zero_add] at before
    exact before
  seq := kept.seq
  seqs := kept.seqs

theorem Conserved.flush (kept : s.Conserved) (fresh : s.flushes.lookup id = none) (windowStartMs windowEndMs : Int) :
    Conserved { s with flushes := s.flushes.insert id ⟨windowStartMs, windowEndMs, fun _ => 0, Counter.all, 0⟩ } where
  recording := kept.recording
  flushing i g found := by
    rcases Table.lookup_of_insert found with ⟨-, rfl⟩ | ⟨-, found⟩
    · exact ⟨List.suffix_refl _, fun _ _ => rfl⟩
    · exact kept.flushing i g found
  balance c := by
    obtain ⟨lost, balance⟩ := kept.balance c
    refine ⟨lost, ?_⟩
    simp only [total, Table.total_insert fresh, Nat.zero_add] at balance ⊢
    exact balance
  pending := kept.pending
  seq := kept.seq
  seqs := kept.seqs

theorem Conserved.swap (kept : s.Conserved) (here : s.flushes.lookup id = some f) (todo : f.todo = c :: rest) :
    (s.swap id f c rest).Conserved where
  recording := kept.recording
  flushing i g found := by
    obtain ⟨left, empty⟩ := kept.flushing id f here
    rcases Table.lookup_of_insert found with ⟨-, rfl⟩ | ⟨-, found⟩
    · refine ⟨(List.suffix_cons c rest).trans (todo ▸ left), fun c' member => ?_⟩
      have other : c' ≠ c := by
        rintro rfl
        exact Counter.notMem_rest (todo ▸ left) member
      exact (Counts.set_other _ _ other).trans (empty c' (todo ▸ List.mem_cons_of_mem _ member))
    · exact kept.flushing i g found
  balance c' := by
    obtain ⟨lost, balance⟩ := kept.balance c'
    refine ⟨lost, ?_⟩
    have moved := Table.total_replace (w := fun (_ : Nat) (f : Flushing) => f.taken c')
      (u := { f with taken := f.taken.set c (s.counters c), todo := rest, window := s.beginsAt f.todo c f.window }) here
    by_cases same : c' = c
    · subst same
      have empty := (kept.flushing id f here).2 c' (todo ▸ List.mem_cons_self)
      simp only [total, Meter.swap, Counts.set_same, empty] at balance moved ⊢
      omega
    · simp only [total, Meter.swap, Counts.set_other _ _ same] at balance moved ⊢
      omega
  pending := kept.pending
  seq := kept.seq
  seqs := kept.seqs

theorem Conserved.flushed (kept : s.Conserved) (here : s.flushes.lookup id = some f) : (s.flushed id f).Conserved where
  recording := kept.recording
  flushing i g found := kept.flushing i g (Table.lookup_of_erase found).2
  balance c := by
    obtain ⟨lost, balance⟩ := kept.balance c
    refine ⟨lost, ?_⟩
    simp only [total, Meter.flushed, Table.total_erase here, List.map_append, List.sum_append, List.map_singleton,
      List.sum_singleton, aggregate, Aggregate.of_get] at balance ⊢
    omega
  pending := kept.pending
  seq := by
    have := kept.seq
    simp only [Meter.flushed, List.length_append, List.length_singleton]
    omega
  seqs := by
    simp only [Meter.flushed, List.map_append, List.length_append, List.length_singleton, List.range_succ, kept.seqs,
      List.map_singleton, aggregate, Aggregate.of, kept.seq]

end Steps

theorem step_conserved {s s' : Meter} {e : MeterEvent} (h : s.step e = some s') (kept : s.Conserved) : s'.Conserved := by
  cases step_cases h with
  | record fresh => exact kept.record fresh _
  | add here todo => exact kept.add here todo
  | recorded here done => exact kept.recorded here done
  | flush fresh => exact kept.flush fresh _ _
  | swap here todo => exact kept.swap here todo
  | flushed here => exact kept.flushed here

theorem new_conserved (policyVersion : Nat) : (new policyVersion).Conserved where
  recording _ _ found := nomatch found
  flushing _ _ found := nomatch found
  balance _ := ⟨0, rfl⟩
  pending _ := rfl
  seq := rfl
  seqs := rfl

theorem run_conserved {policyVersion : Nat} {es : List MeterEvent} {s : Meter} (ran : (new policyVersion).run es = some s) :
    s.Conserved :=
  Transition.run_invariant Conserved ran (fun _ _ _ _ one => step_conserved one) (new_conserved policyVersion)

def Quiescent (s : Meter) : Prop := (∀ id, s.records.lookup id = none) ∧ ∀ id, s.flushes.lookup id = none

structure Conserves (s : Meter) : Prop where
  reachable : ∀ c, s.total c % 2 ^ 64 = s.added c % 2 ^ 64
  finished : s.Quiescent → ∀ c, ((s.returned.map (·.get c)).sum + s.counters c) % 2 ^ 64 = s.sampled c % 2 ^ 64 ∧
    (s.sampled c < 2 ^ 64 → (s.returned.map (·.get c)).sum + s.counters c = s.sampled c)
  seqs : s.returned.map (·.seq) = (List.range s.returned.length).map (· % 2 ^ 64)
  distinct : s.returned.length ≤ 2 ^ 64 → s.returned.map (·.seq) = List.range s.returned.length

theorem record_flush_conserves {policyVersion : Nat} {es : List MeterEvent} {s : Meter}
    (ran : (new policyVersion).run es = some s) : s.Conserves := by
  have kept := run_conserved ran
  refine ⟨fun c => ?_, fun quiescent c => ?_, kept.seqs, fun few => ?_⟩
  · obtain ⟨lost, balance⟩ := kept.balance c
    rw [← balance, Nat.add_mul_mod_self_left]
  · obtain ⟨lost, balance⟩ := kept.balance c
    have pending := kept.pending c
    have none : s.owed c = 0 := Table.total_eq_zero fun id r found => by
      rw [quiescent.1 id] at found
      cases found
    have drained : s.flushes.total (fun _ f => f.taken c) = 0 := Table.total_eq_zero fun id f found => by
      rw [quiescent.2 id] at found
      cases found
    rw [total, drained, Nat.add_zero] at balance
    constructor <;> omega
  · rw [kept.seqs]
    refine (List.map_congr_left fun n member => ?_).trans (List.map_id _)
    exact Nat.mod_eq_of_lt (Nat.lt_of_lt_of_le (List.mem_range.mp member) few)

def cutRun : List MeterEvent :=
  .record 0 ⟨3, 1, 2, 30, 20, 0, false⟩ :: .add 0 :: .flush 0 0 10000 :: (List.replicate 8 (.swap 0) ++ .flushed 0 ::
    (List.replicate 7 (.add 0) ++ [.recorded 0]))

theorem record_flush_conserves_cut : ∃ s, (new 0).run cutRun = some s ∧ s.Conserves := by
  obtain ⟨s, ran⟩ := Option.isSome_iff_exists.mp (show ((new 0).run cutRun).isSome = true by decide +kernel)
  exact ⟨s, ran, record_flush_conserves ran⟩

end Meter

end ArchivAgent
