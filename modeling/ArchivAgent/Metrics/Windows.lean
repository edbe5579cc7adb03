import ArchivAgent.Metrics.Conservation
import Mathlib.Algebra.Order.BigOperators.Group.List

/-!
# What a window holds

A record whose adds all fall into one window is counted whole in that window's aggregate.
`Uncut` says of a step that it takes no record and no flush apart.
-/

namespace ArchivAgent

def Sample.Consistent (s : Sample) : Prop :=
  s.eventsIn = s.eventsSampledOut + s.eventsExported ∧ s.bytesIn ≤ s.bytesExported + s.bytesDropped

def Aggregate.Consistent (a : Aggregate) : Prop :=
  a.eventsIn = a.eventsSampledOut + a.eventsExported ∧ a.bytesIn ≤ a.bytesExported + a.bytesDropped

namespace Meter

/-- A call that has begun goes on in the window in which it began, and no counter is swapped while
a record of its window has still to add to it. -/
def Uncut (s : Meter) : MeterEvent → Prop
  | .add id => ∀ r ∈ s.records.lookup id, ∀ c ∈ r.todo.head?, r.todo = Counter.all ∨ s.window c = r.window
  | .swap id => ∀ f ∈ s.flushes.lookup id, ∀ c ∈ f.todo.head?, (f.todo = Counter.all ∨ s.window c = f.window) ∧
      ∀ e ∈ s.records.entries, e.2.todo ≠ Counter.all → e.2.window = s.window c → c ∉ e.2.todo
  | _ => True

instance (s : Meter) (e : MeterEvent) : Decidable (s.Uncut e) :=
  match e with
  | .add id => inferInstanceAs
      (Decidable (∀ r ∈ s.records.lookup id, ∀ c ∈ r.todo.head?, r.todo = Counter.all ∨ s.window c = r.window))
  | .swap id => inferInstanceAs
      (Decidable (∀ f ∈ s.flushes.lookup id, ∀ c ∈ f.todo.head?, (f.todo = Counter.all ∨ s.window c = f.window) ∧
        ∀ e ∈ s.records.entries, e.2.todo ≠ Counter.all → e.2.window = s.window c → c ∉ e.2.todo))
  | .record .. | .recorded _ | .flush .. | .flushed _ => isTrue trivial

def inWindow (s : Meter) (w : Nat) : List Sample := (s.begun.filter (·.1 = w)).map (·.2)

def windowSum (s : Meter) (w : Nat) (c : Counter) : Nat := ((s.inWindow w).map (·.get c)).sum

/-- What a call that has begun in the window has still to add. -/
def Recording.owes (c : Counter) (w : Nat) (r : Recording) : Nat :=
  if r.todo ≠ Counter.all ∧ r.window = w ∧ c ∈ r.todo then r.sample.get c else 0

def owedIn (s : Meter) (c : Counter) (w : Nat) : Nat := s.records.total fun _ => Recording.owes c w

def Recording.unbegun (c : Counter) (r : Recording) : Nat := if r.todo = Counter.all then r.sample.get c else 0

structure Windowed (s : Meter) : Prop where
  small : ∀ c, s.counters c < 2 ^ 64
  behind : ∀ c, s.window c ≤ s.window .eventsIn
  live : ∀ c, (s.counters c + s.owedIn c (s.window c)) % 2 ^ 64 = s.windowSum (s.window c) c % 2 ^ 64
  ahead : ∀ c w, s.window c < w → s.owedIn c w = s.windowSum w c
  drained : ∀ id f, s.flushes.lookup id = some f → f.todo ≠ Counter.all →
    f.window < s.window .eventsIn ∧ ∀ c, c ∉ f.todo → f.taken c = s.windowSum f.window c % 2 ^ 64
  closed : ∀ a ∈ s.returned, ∃ w < s.window .eventsIn, ∀ c, a.get c = s.windowSum w c % 2 ^ 64
  begun : ∀ c, (s.begun.map (·.2.get c)).sum + s.records.total (fun _ => Recording.unbegun c) = s.sampled c
  known : ∀ x ∈ s.begun, x.2 ∈ s.samples
  recorded : ∀ id r, s.records.lookup id = some r → r.sample ∈ s.samples

section Steps
variable {s s' : Meter} {id : Nat} {r : Recording} {f : Flushing} {c : Counter} {rest : List Counter}

theorem all_head (whole : Counter.all = c :: rest) : c = .eventsIn := (List.cons.inj whole).1.symm

theorem windowSum_append {s : Meter} {x : Nat × Sample} (w : Nat) (c : Counter) :
    windowSum { s with begun := s.begun ++ [x] } w c = s.windowSum w c + if x.1 = w then x.2.get c else 0 := by
  simp only [windowSum, inWindow, List.filter_append, List.map_append, List.sum_append]
  by_cases same : x.1 = w
  · simp [same]
  · simp [same]

theorem Windowed.record (kept : s.Windowed) (fresh : s.records.lookup id = none) (sample : Sample) :
    Windowed { s with
      records := s.records.insert id ⟨sample, Counter.all, 0⟩
      samples := s.samples ++ [sample] } := by
  have none : ∀ c w, Recording.owes c w ⟨sample, Counter.all, 0⟩ = 0 := fun c w => if_neg fun begun => begun.1 rfl
  have same : ∀ c w, owedIn { s with
      records := s.records.insert id ⟨sample, Counter.all, 0⟩
      samples := s.samples ++ [sample] } c w = s.owedIn c w := by
    intro c w
    rw [owedIn, Table.total_insert fresh, none, Nat.zero_add, owedIn]
  refine ⟨kept.small, kept.behind, fun c => ?_, fun c w after => ?_, kept.drained, kept.closed, fun c => ?_,
    fun x member => List.mem_append_left _ (kept.known x member), fun i q found => ?_⟩
  · rw [same]
    exact kept.live c
  · rw [same]
    exact kept.ahead c w after
  · have before := kept.begun c
    have own : Recording.unbegun c ⟨sample, Counter.all, 0⟩ = sample.get c := if_pos rfl
    simp only [sampled, Table.total_insert fresh, own, List.map_append, List.sum_append, List.map_singleton,
      List.sum_singleton] at before ⊢
    omega
  · rcases Table.lookup_of_insert found with ⟨-, rfl⟩ | ⟨-, found⟩
    · exact List.mem_append_right _ (List.mem_singleton_self _)
    · exact List.mem_append_left _ (kept.recorded i q found)

theorem Windowed.recorded_done (kept : s.Windowed) (here : s.records.lookup id = some r) (done : r.todo = []) :
    Windowed { s with records := s.records.erase id } := by
  have none : ∀ c w, Recording.owes c w r = 0 := fun c w => if_neg fun begun => by
    rw [done] at begun
    cases begun.2.2
  have same : ∀ c w, owedIn { s with records := s.records.erase id } c w = s.owedIn c w := by
    intro c w
    rw [owedIn, owedIn, Table.total_erase here, none, Nat.zero_add]
  refine ⟨kept.small, kept.behind, fun c => ?_, fun c w after => ?_, kept.drained, kept.closed, fun c => ?_, kept.known,
    fun i q found => kept.recorded i q (Table.lookup_of_erase found).2⟩
  · rw [same]
    exact kept.live c
  · rw [same]
    exact kept.ahead c w after
  · have before := kept.begun c
    have own : Recording.unbegun c r = 0 := if_neg (by rw [done]; exact nofun)
    rw [Table.total_erase here, own, Nat.zero_add] at before
    exact before

theorem windowSum_add (w : Nat) (c' : Counter) : (s.add id r c rest).windowSum w c' =
    s.windowSum w c' + if r.todo = Counter.all ∧ s.window c = w then r.sample.get c' else 0 := by
  by_cases whole : r.todo = Counter.all
  · have begun : (s.add id r c rest).begun = s.begun ++ [(s.window c, r.sample)] := if_pos whole
    have grown := windowSum_append (s := s) (x := (s.window c, r.sample)) w c'
    simp only [windowSum, inWindow, begun, whole, true_and] at grown ⊢
    exact grown
  · have begun : (s.add id r c rest).begun = s.begun := if_neg whole
    simp only [windowSum, inWindow, begun, whole, false_and, if_false, Nat.add_zero]

theorem rest_ne_all (left : c :: rest <:+ Counter.all) : rest ≠ Counter.all := by
  rintro rfl
  exact Nat.not_succ_le_self _ left.length_le

theorem owedIn_add (here : s.records.lookup id = some r) (todo : r.todo = c :: rest) (left : r.todo <:+ Counter.all)
    (uncut : r.todo = Counter.all ∨ s.window c = r.window) (c' : Counter) (w : Nat) :
    (s.add id r c rest).owedIn c' w + s.windowSum w c' + (if c' = c ∧ s.window c = w then r.sample.get c' else 0) =
      s.owedIn c' w + (s.add id r c rest).windowSum w c' := by
  have moved := Table.total_replace (w := fun (_ : Nat) => Recording.owes c' w)
    (u := { r with todo := rest, window := s.beginsAt r.todo c r.window }) here
  have window : s.beginsAt r.todo c r.window = s.window c := by
    rw [beginsAt]
    split
    · rfl
    · rename_i begun
      exact (uncut.resolve_left begun).symm
  have absent := Counter.notMem_rest (todo ▸ left)
  have shorter := rest_ne_all (todo ▸ left)
  have members : c' ∈ r.todo ↔ c' = c ∨ c' ∈ rest := by rw [todo, List.mem_cons]
  have after : Recording.owes c' w { r with todo := rest, window := s.beginsAt r.todo c r.window } =
      if s.window c = w ∧ c' ∈ rest then r.sample.get c' else 0 := by
    simp only [Recording.owes, window, ne_eq, shorter, not_false_eq_true, true_and]
  rw [after] at moved
  have owed : (s.add id r c rest).owedIn c' w = Table.total (fun _ => Recording.owes c' w)
    (s.records.insert id { r with todo := rest, window := s.beginsAt r.todo c r.window }) := rfl
  rw [← owed] at moved
  rw [windowSum_add]
  by_cases whole : r.todo = Counter.all
  · have before : Recording.owes c' w r = 0 := if_neg fun begun => begun.1 whole
    have each : c' = c ∨ c' ∈ rest := members.mp (whole ▸ Counter.mem_all c')
    rw [before] at moved
    simp only [whole, true_and]
    simp only [owedIn] at moved ⊢
    rcases each with rfl | member
    · simp only [absent, and_false, if_false, true_and] at moved ⊢
      omega
    · have other : c' ≠ c := fun same => absent (same ▸ member)
      simp only [member, other, and_true, false_and, if_false] at moved ⊢
      omega
  · have same := uncut.resolve_left whole
    have before : Recording.owes c' w r = if s.window c = w ∧ (c' = c ∨ c' ∈ rest) then r.sample.get c' else 0 := by
      simp only [Recording.owes, ne_eq, whole, not_false_eq_true, true_and, members, same]
    rw [before] at moved
    simp only [whole, false_and, if_false]
    simp only [owedIn] at moved ⊢
    by_cases here : c' = c
    · simp only [here, absent, and_false, if_false, true_and, true_or, and_true] at moved ⊢
      omega
    · simp only [here, false_or, false_and, if_false] at moved ⊢
      omega

/-- A record that begins now begins in the last window. -/
theorem windowSum_add_old (todo : r.todo = c :: rest) {w : Nat} (old : w < s.window .eventsIn) (c' : Counter) :
    (s.add id r c rest).windowSum w c' = s.windowSum w c' := by
  rw [windowSum_add, if_neg, Nat.add_zero]
  rintro ⟨whole, rfl⟩
  rw [all_head (whole.symm.trans todo)] at old
  exact Nat.lt_irrefl _ old

theorem Windowed.add (kept : s.Windowed) (conserved : s.Conserved) (here : s.records.lookup id = some r)
    (todo : r.todo = c :: rest) (uncut : r.todo = Counter.all ∨ s.window c = r.window) :
    (s.add id r c rest).Windowed := by
  have left := conserved.recording id r here
  have exchange := owedIn_add here todo left uncut
  refine ⟨fun c' => ?_, kept.behind, fun c' => ?_, fun c' w after => ?_, fun i f found begun => ?_, fun a member => ?_,
    fun c' => ?_, fun x member => ?_, fun i q found => ?_⟩
  · by_cases same : c' = c
    · simp only [Meter.add, same, Counts.set_same]
      exact Nat.mod_lt _ (Nat.two_pow_pos 64)
    · simp only [Meter.add, Counts.set_other _ _ same]
      exact kept.small c'
  · have before := kept.live c'
    have moved := exchange c' (s.window c')
    rw [show (s.add id r c rest).window = s.window from rfl]
    by_cases same : c' = c
    · rw [same] at before moved ⊢
      rw [show (s.add id r c rest).counters c = (s.counters c + r.sample.get c) % 2 ^ 64 from Counts.set_same _ _ _]
      simp only [and_self, if_true] at moved
      omega
    · rw [show (s.add id r c rest).counters c' = s.counters c' from Counts.set_other _ _ same]
      simp only [same, false_and, if_false] at moved
      omega
  · have before := kept.ahead c' w after
    have moved := exchange c' w
    have apart : ¬ (c' = c ∧ s.window c = w) := by
      rintro ⟨rfl, rfl⟩
      exact Nat.lt_irrefl _ after
    rw [if_neg apart] at moved
    omega
  · obtain ⟨old, taken⟩ := kept.drained i f found begun
    exact ⟨old, fun c' done => (taken c' done).trans (by rw [windowSum_add_old todo old])⟩
  · obtain ⟨w, old, sums⟩ := kept.closed a member
    exact ⟨w, old, fun c' => (sums c').trans (by rw [windowSum_add_old todo old])⟩
  · have before := kept.begun c'
    have moved := Table.total_replace (w := fun (_ : Nat) => Recording.unbegun c')
      (u := { r with todo := rest, window := s.beginsAt r.todo c r.window }) here
    have none : Recording.unbegun c' { r with todo := rest, window := s.beginsAt r.todo c r.window } = 0 :=
      if_neg (rest_ne_all (todo ▸ left))
    rw [none] at moved
    simp only [sampled, Meter.add] at before ⊢
    by_cases whole : r.todo = Counter.all
    · have own : Recording.unbegun c' r = r.sample.get c' := if_pos whole
      rw [own] at moved
      rw [if_pos whole, List.map_append, List.sum_append, List.map_singleton, List.sum_singleton]
      dsimp only
      omega
    · have own : Recording.unbegun c' r = 0 := if_neg whole
      rw [own] at moved
      rw [if_neg whole]
      omega
  · have own := kept.recorded id r here
    rw [Meter.add] at member
    simp only at member
    split at member
    · rcases List.mem_append.mp member with old | new
      · exact kept.known x old
      · rw [List.mem_singleton.mp new]
        exact own
    · exact kept.known x member
  · rcases Table.lookup_of_insert found with ⟨-, rfl⟩ | ⟨-, found⟩
    · exact kept.recorded id r here
    · exact kept.recorded i q found

theorem Windowed.flush (kept : s.Windowed) (windowStartMs windowEndMs : Int) :
    Windowed { s with flushes := s.flushes.insert id ⟨windowStartMs, windowEndMs, fun _ => 0, Counter.all, 0⟩ } where
  small := kept.small
  behind := kept.behind
  live := kept.live
  ahead := kept.ahead
  drained i f found begun := by
    rcases Table.lookup_of_insert found with ⟨-, rfl⟩ | ⟨-, found⟩
    · exact absurd rfl begun
    · exact kept.drained i f found begun
  closed := kept.closed
  begun := kept.begun
  known := kept.known
  recorded := kept.recorded

theorem Windowed.swap (kept : s.Windowed) (conserved : s.Conserved) (here : s.flushes.lookup id = some f)
    (todo : f.todo = c :: rest) (uncut : f.todo = Counter.all ∨ s.window c = f.window)
    (settled : s.owedIn c (s.window c) = 0) : (s.swap id f c rest).Windowed := by
  have left := (conserved.flushing id f here).1
  have window : s.beginsAt f.todo c f.window = s.window c := by
    rw [beginsAt]
    split
    · rfl
    · rename_i begun
      exact (uncut.resolve_left begun).symm
  have taken : s.counters c = s.windowSum (s.window c) c % 2 ^ 64 := by
    have live := kept.live c
    have small := kept.small c
    rw [settled, Nat.add_zero] at live
    omega
  -- no counter goes ahead of the first
  have behind : ∀ c', (s.swap id f c rest).window c' ≤ (s.swap id f c rest).window .eventsIn := by
    intro c'
    have order := kept.behind c'
    by_cases first : c = .eventsIn
    · rw [first]
      by_cases same : c' = .eventsIn
      · rw [same]
      · simp only [Meter.swap, Counts.set_same, Counts.set_other _ _ same]
        omega
    · have begun : f.todo ≠ Counter.all := fun whole => first (all_head (whole.symm.trans todo))
      have old := (kept.drained id f here begun).1
      rw [← uncut.resolve_left begun] at old
      simp only [Meter.swap, Counts.set_other _ _ (Ne.symm first)]
      by_cases same : c' = c
      · rw [same, Counts.set_same]
        omega
      · rw [Counts.set_other _ _ same]
        exact order
  have mono : s.window .eventsIn ≤ (s.swap id f c rest).window .eventsIn := by
    by_cases first : .eventsIn = c
    · simp only [Meter.swap, first, Counts.set_same]
      omega
    · simp only [Meter.swap, Counts.set_other _ _ first, Nat.le_refl]
  have last : s.window c < (s.swap id f c rest).window .eventsIn :=
    Nat.lt_of_lt_of_le (by simp only [Meter.swap, Counts.set_same]; exact Nat.lt_succ_self _) (behind c)
  refine ⟨fun c' => ?_, behind, fun c' => ?_, fun c' w after => ?_, fun i g found begun => ?_, fun a member => ?_,
    kept.begun, kept.known, kept.recorded⟩
  · by_cases same : c' = c
    · simp only [Meter.swap, same, Counts.set_same]
      exact Nat.two_pow_pos 64
    · simp only [Meter.swap, Counts.set_other _ _ same]
      exact kept.small c'
  · by_cases same : c' = c
    · rw [same]
      have next := kept.ahead c (s.window c + 1) (Nat.lt_succ_self _)
      simp only [Meter.swap, Counts.set_same, Nat.zero_add]
      exact congrArg (· % 2 ^ 64) next
    · have before := kept.live c'
      simp only [Meter.swap, Counts.set_other _ _ same]
      exact before
  · by_cases same : c' = c
    · rw [same] at after ⊢
      simp only [Meter.swap, Counts.set_same] at after
      exact kept.ahead c w (by omega)
    · simp only [Meter.swap, Counts.set_other _ _ same] at after
      exact kept.ahead c' w after
  · rcases Table.lookup_of_insert found with ⟨-, rfl⟩ | ⟨-, found⟩
    · refine ⟨by rw [window]; exact last, fun c' done => ?_⟩
      rw [window]
      by_cases same : c' = c
      · rw [same]
        exact (Counts.set_same _ _ _).trans taken
      · apply (Counts.set_other _ _ same).trans
        have inTodo : c' ∉ f.todo := by
          rw [todo, List.mem_cons]
          exact fun member => member.elim same done
        by_cases whole : f.todo = Counter.all
        · exact absurd (whole ▸ Counter.mem_all c') inTodo
        · rw [uncut.resolve_left whole]
          exact (kept.drained id f here whole).2 c' inTodo
    · obtain ⟨old, sums⟩ := kept.drained i g found begun
      exact ⟨Nat.lt_of_lt_of_le old mono, sums⟩
  · obtain ⟨w, old, sums⟩ := kept.closed a member
    exact ⟨w, Nat.lt_of_lt_of_le old mono, sums⟩

theorem Windowed.flushed (kept : s.Windowed) (here : s.flushes.lookup id = some f) (done : f.todo = []) :
    (s.flushed id f).Windowed where
  small := kept.small
  behind := kept.behind
  live := kept.live
  ahead := kept.ahead
  drained i g found := kept.drained i g (Table.lookup_of_erase found).2
  closed a member := by
    rcases List.mem_append.mp member with old | new
    · exact kept.closed a old
    · obtain ⟨old, sums⟩ := kept.drained id f here (by rw [done]; decide)
      refine ⟨f.window, old, fun c => ?_⟩
      rw [List.mem_singleton.mp new, aggregate, Aggregate.of_get]
      exact sums c (by rw [done]; exact List.not_mem_nil)
  begun := kept.begun
  known := kept.known
  recorded := kept.recorded

end Steps

theorem step_windowed {s s' : Meter} {e : MeterEvent} (h : s.step e = some s') (uncut : s.Uncut e) (conserved : s.Conserved)
    (kept : s.Windowed) : s'.Windowed := by
  cases step_cases h with
  | record fresh => exact kept.record fresh _
  | @add id r c rest here todo => exact kept.add conserved here todo (uncut r here c (by rw [todo]; rfl))
  | recorded here done => exact kept.recorded_done here done
  | flush => exact kept.flush _ _
  | @swap id f c rest here todo =>
    obtain ⟨same, added⟩ := uncut f here c (by rw [todo]; rfl)
    refine kept.swap conserved here todo same (Table.total_eq_zero fun i r found => if_neg fun owes => ?_)
    exact added ⟨i, r⟩ (Table.mem_entries.mpr found) owes.1 owes.2.1 owes.2.2
  | flushed here done => exact kept.flushed here done

theorem new_windowed (policyVersion : Nat) : (new policyVersion).Windowed where
  small _ := Nat.two_pow_pos 64
  behind _ := Nat.le_refl _
  live _ := rfl
  ahead _ _ _ := rfl
  drained _ _ found := nomatch found
  closed _ member := nomatch member
  begun _ := rfl
  known _ member := nomatch member
  recorded _ _ found := nomatch found

section Runs
variable {policyVersion : Nat} {es : List MeterEvent} {s : Meter}

theorem run_windowed (ran : (new policyVersion).run es = some s) (uncut : Transition.Along step Uncut (new policyVersion) es) :
    s.Windowed :=
  (Transition.along_invariant (fun s => s.Conserved ∧ s.Windowed) ran uncut
    (fun _ _ _ one uncut kept => ⟨step_conserved one kept.1, step_windowed one uncut kept.1 kept.2⟩)
    ⟨new_conserved policyVersion, new_windowed policyVersion⟩).2

theorem Windowed.sum_le (kept : s.Windowed) (w : Nat) (c : Counter) : s.windowSum w c ≤ s.sampled c := by
  have all := kept.begun c
  have part : s.windowSum w c ≤ (s.begun.map (·.2.get c)).sum := by
    rw [windowSum, inWindow, List.map_map]
    exact (List.filter_sublist.map _).sum_le_sum fun _ _ => Nat.zero_le _
  omega

/-- The samples of a window add up as each of them does. -/
theorem windowSum_consistent (kept : s.Windowed) (samples : ∀ x ∈ s.samples, x.Consistent) (w : Nat) :
    s.windowSum w .eventsIn = s.windowSum w .eventsSampledOut + s.windowSum w .eventsExported ∧
      s.windowSum w .bytesIn ≤ s.windowSum w .bytesExported + s.windowSum w .bytesDropped := by
  have each : ∀ x ∈ s.inWindow w, x.Consistent := by
    intro x member
    obtain ⟨y, inside, rfl⟩ := List.mem_map.mp member
    exact samples _ (kept.known y (List.mem_of_mem_filter inside))
  rw [windowSum, windowSum, windowSum, windowSum, windowSum, windowSum]
  generalize s.inWindow w = xs at each
  induction xs with
  | nil => exact ⟨rfl, Nat.le_refl _⟩
  | cons x xs ih =>
    simp only [List.mem_cons, forall_eq_or_imp] at each
    obtain ⟨events, bytes⟩ := each.1
    obtain ⟨restEvents, restBytes⟩ := ih each.2
    simp only [List.map_cons, List.sum_cons, Sample.get] at restEvents restBytes ⊢
    omega

theorem flush_consistent (ran : (new policyVersion).run es = some s)
    (uncut : Transition.Along step Uncut (new policyVersion) es) (samples : ∀ x ∈ s.samples, x.Consistent)
    (sums : ∀ c, s.sampled c < 2 ^ 64) : ∀ a ∈ s.returned, a.Consistent := by
  have kept := run_windowed ran uncut
  intro a member
  obtain ⟨w, -, taken⟩ := kept.closed a member
  obtain ⟨events, bytes⟩ := windowSum_consistent kept samples w
  have exact_sum : ∀ c, a.get c = s.windowSum w c := fun c =>
    (taken c).trans (Nat.mod_eq_of_lt (Nat.lt_of_le_of_lt (kept.sum_le w c) (sums c)))
  simp only [← exact_sum] at events bytes
  exact ⟨events, bytes⟩

end Runs

/-- One record, then a flush, with the adds of a second record behind its swaps. -/
def wholeRun : List MeterEvent :=
  .record 0 ⟨3, 1, 2, 30, 20, 0, false⟩ :: (List.replicate 8 (.add 0) ++ .flush 0 0 10000 :: .swap 0 ::
    .record 1 ⟨1, 0, 1, 10, 10, 0, false⟩ :: .add 1 :: (List.replicate 7 (.swap 0) ++ [.flushed 0, .add 1]))

theorem flush_consistent_whole : ∃ s, (new 0).run wholeRun = some s ∧ s.returned.length = 1 ∧
    ∀ a ∈ s.returned, a.Consistent := by
  obtain ⟨s, ran, found⟩ := Option.map_eq_some_iff.mp (show ((new 0).run wholeRun).map
    (fun s => (s.samples, s.returned.length)) =
      some ([⟨3, 1, 2, 30, 20, 0, false⟩, ⟨1, 0, 1, 10, 10, 0, false⟩], 1) by decide +kernel)
  obtain ⟨samples, one⟩ := Prod.mk.inj found
  have uncut : Transition.Along step Uncut (new 0) wholeRun := by decide +kernel
  refine ⟨s, ran, one, flush_consistent ran uncut ?_ fun c => ?_⟩
  · rw [samples]
    simp [Sample.Consistent, Sample.bytesDropped]
  · rw [sampled, samples]
    cases c <;> decide

/-- The flush takes the record's events in, and not what became of them. -/
theorem flush_consistent_not : ¬ ∀ policyVersion es s, (new policyVersion).run es = some s →
    (∀ x ∈ s.samples, x.Consistent) → (∀ c, s.sampled c < 2 ^ 64) → ∀ a ∈ s.returned, a.Consistent := by
  intro consistent
  obtain ⟨s, ran, found⟩ := Option.map_eq_some_iff.mp (show ((new 0).run cutRun).map (fun s => (s.samples, s.returned)) =
    some ([⟨3, 1, 2, 30, 20, 0, false⟩], [⟨0, 0, 10000, 0, 3, 0, 0, 0, 0, 0, 0, 0⟩]) by decide +kernel)
  obtain ⟨samples, returned⟩ := Prod.mk.inj found
  have here := consistent 0 cutRun s ran (by rw [samples]; simp [Sample.Consistent, Sample.bytesDropped])
    (fun c => by rw [sampled, samples]; cases c <;> decide) _ (by rw [returned]; exact List.mem_singleton_self _)
  exact absurd here.1 (by decide)

end Meter

end ArchivAgent
