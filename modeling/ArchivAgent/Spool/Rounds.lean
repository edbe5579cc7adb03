import ArchivAgent.Spool.Sole
import Mathlib.Data.List.Chain

/-!
# Rounds

The calls of `drain_once` that the loop makes, in order. While nothing is delivered the loop goes
for the same entry or for an older one that a push has published since; what it has delivered it
never goes for again.
-/

namespace ArchivAgent.Spool
open Wire (Bytes)

namespace DrainLoop

/-- After a `Retry` the next call goes for an entry, and for none that is newer. -/
def Follows (a b : Round) : Prop :=
  a.outcome = .retry → b.outcome ≠ .idle ∧ ∃ q q', a.seq = some q ∧ b.seq = some q' ∧ q' ≤ q

def Leaves (a b : Round) : Prop := a.outcome = .delivered → a.seq.isSome = true ∧ b.seq ≠ a.seq

structure Ordered (s : DrainLoop) : Prop where
  chain : s.rounds.IsChain Follows
  apart : s.rounds.Pairwise Leaves
  tried : ∀ r ∈ s.rounds.getLast?, r.outcome = .retry → ∃ q, r.seq = some q ∧
    (s.world.state.pending.lookup q).isSome = true ∧ ∀ d, s.world.drains.lookup call = some d → d.seq ≤ q
  done : ∀ r ∈ s.rounds, r.outcome = .delivered → ∃ q, r.seq = some q ∧ q ∈ s.world.delivered.map (·.1) ∧
    s.world.state.pending.lookup q = none

theorem start_ordered (sp : Spool) (files : Files) : (start sp files).Ordered :=
  ⟨.nil, .nil, fun r last => (by cases last), fun r member => (by cases member)⟩

section Steps
variable {backlog : Nat × Bytes → Prop} {s s' : DrainLoop}

theorem Ordered.beside (ordered : s.Ordered) (sole : s.world.Sole backlog) {world : World} (beside : s.world.Beside world) :
    Ordered { s with world } where
  chain := ordered.chain
  apart := ordered.apart
  tried r last retry := by
    obtain ⟨q, seq, listed, least⟩ := ordered.tried r last retry
    obtain ⟨len, entry⟩ := Option.isSome_iff_exists.mp listed
    refine ⟨q, seq, Option.isSome_iff_exists.mpr ⟨len, beside.lookup entry⟩, fun d here => least d ?_⟩
    rw [← beside.drains]
    exact here
  done r member delivered := by
    obtain ⟨q, seq, sent, absent⟩ := ordered.done r member delivered
    refine ⟨q, seq, by simpa only [beside.delivered] using sent, ?_⟩
    obtain ⟨x, there, rfl⟩ := List.mem_map.mp sent
    rcases beside.entries with ⟨same, -⟩ | ⟨id, p, here, -, grown, -⟩
    · simpa only [same] using absent
    · simp only [grown]
      rw [AList.lookup_insert_ne (Ne.symm ((sole.gone x there).2.1 id p here))]
      exact absent

theorem Ordered.goes (ordered : s.Ordered) {e : Event} {world : World} (one : s.world.step e = some world)
    (goes : Goes s.world e world) : Ordered { s with world } := by
  have same : world.state = s.world.state := by cases goes <;> rfl
  have sent : ∀ q ∈ s.world.delivered.map (·.1), q ∈ world.delivered.map (·.1) := by
    intro q member
    cases goes with
    | forward => exact List.map_subset _ (List.subset_append_left _ _) member
    | _ => exact member
  refine ⟨ordered.chain, ordered.apart, fun r last retry => ?_, fun r member delivered => ?_⟩
  · obtain ⟨q, seq, listed, least⟩ := ordered.tried r last retry
    refine ⟨q, seq, by rw [same]; exact listed, fun d found => ?_⟩
    obtain ⟨len, entry⟩ := Option.isSome_iff_exists.mp listed
    rcases World.drains_of_step one found with ⟨d', here, alike, -⟩ | ⟨-, oldest, -⟩
    · exact alike ▸ least d' here
    · exact (Table.first_some oldest).2 q len entry
  · obtain ⟨q, seq, gone, absent⟩ := ordered.done r member delivered
    exact ⟨q, seq, sent q gone, by rw [same]; exact absent⟩

/-- The entry of a call that is to end is none that was delivered. -/
theorem Ordered.current_apart (ordered : s.Ordered) (sole : s.world.Sole backlog) (outcome : DrainOutcome) :
    ∀ r ∈ s.rounds, Leaves r ⟨s.current, outcome⟩ := by
  intro r member delivered
  obtain ⟨q, seq, -, absent⟩ := ordered.done r member delivered
  refine ⟨by rw [seq]; rfl, fun same => ?_⟩
  obtain ⟨d, here, mine⟩ := Option.map_eq_some_iff.mp (same.trans seq)
  rw [← mine, sole.listed d here] at absent
  cases absent

theorem pairwise_answered (pairs : s.rounds.Pairwise Leaves) {r : Round} (last : ∀ r' ∈ s.rounds, Leaves r' r) :
    (s.rounds ++ [r]).Pairwise Leaves := by
  refine List.pairwise_append.mpr ⟨pairs, List.pairwise_singleton _ _, fun a member b new => ?_⟩
  obtain rfl := List.mem_singleton.mp new
  exact last a member

theorem chain_answered (chain : s.rounds.IsChain Follows) {r : Round} (last : ∀ r' ∈ s.rounds.getLast?, Follows r' r) :
    (s.rounds ++ [r]).IsChain Follows := by
  refine chain.append (.singleton r) fun a member b new => ?_
  cases new
  exact last a member

/-- A call that gives up has its entry still to go for. -/
theorem Ordered.retry (ordered : s.Ordered) (sole : s.world.Sole backlog) (subsecNanos : Nat) {d : Drain}
    (here : s.world.drains.lookup call = some d) : (s.answered subsecNanos .retry (s.world.retried call)).Ordered := by
  have current : s.current = some d.seq := by rw [current, here]; rfl
  refine ⟨chain_answered ordered.chain fun r last retry => ?_,
    pairwise_answered ordered.apart (ordered.current_apart sole .retry), fun r last _ => ?_, fun r member delivered => ?_⟩
  · obtain ⟨q, seq, -, least⟩ := ordered.tried r last retry
    exact ⟨DrainOutcome.noConfusion, q, d.seq, seq, current, least d here⟩
  · rw [answered_rounds, List.getLast?_concat] at last
    cases last
    refine ⟨d.seq, current, ?_, fun d' found => ?_⟩
    · rw [answered_world]
      exact Option.isSome_iff_exists.mpr ⟨d.len, sole.listed d here⟩
    · rw [answered_world, show (s.world.retried call).drains.lookup call = none from AList.lookup_erase _ _] at found
      cases found
  · rw [answered_rounds] at member
    rcases List.mem_append.mp member with old | new
    · rw [answered_world]
      exact ordered.done r old delivered
    · rw [List.mem_singleton.mp new] at delivered
      cases delivered

theorem Ordered.settle (ordered : s.Ordered) (sole : s.world.Sole backlog) (held : s.world.Held) (subsecNanos : Nat)
    {d : Drain} {bytes : Bytes} (here : s.world.drains.lookup call = some d) (phase : d.phase = .removed bytes) :
    (s.answered subsecNanos .delivered (s.world.settled call d)).Ordered := by
  have current : s.current = some d.seq := by rw [current, here]; rfl
  have pending : (s.world.settled call d).state.pending = s.world.state.pending.erase d.seq := by
    simp only [World.settled, State.settle, sole.listed d here, Option.isSome_some, if_true]
  have sent := held.sent call d here bytes (by rw [Drain.sent, phase]; rfl)
  refine ⟨chain_answered ordered.chain fun r last retry => ?_,
    pairwise_answered ordered.apart (ordered.current_apart sole .delivered), fun r last retry => ?_, fun r member delivered => ?_⟩
  · obtain ⟨q, seq, -, least⟩ := ordered.tried r last retry
    exact ⟨DrainOutcome.noConfusion, q, d.seq, seq, current, least d here⟩
  · rw [answered_rounds, List.getLast?_concat] at last
    cases last
    cases retry
  · rw [answered_rounds] at member
    rw [answered_world, pending]
    rcases List.mem_append.mp member with old | new
    · obtain ⟨q, seq, gone, absent⟩ := ordered.done r old delivered
      refine ⟨q, seq, gone, (AList.lookup_erase_ne ?_).trans absent⟩
      rintro rfl
      rw [sole.listed d here] at absent
      cases absent
    · rw [List.mem_singleton.mp new]
      exact ⟨d.seq, current, List.mem_map.mpr ⟨_, sent, rfl⟩, AList.lookup_erase _ _⟩

/-- The loop is idle only where nothing is left to retry. -/
theorem Ordered.idle (ordered : s.Ordered) (sole : s.world.Sole backlog) (subsecNanos : Nat)
    (empty : s.world.state.oldest = none) : (s.answered subsecNanos .idle s.world).Ordered := by
  refine ⟨chain_answered ordered.chain fun r last retry => ?_,
    pairwise_answered ordered.apart (ordered.current_apart sole .idle), fun r last retry => ?_, fun r member delivered => ?_⟩
  · obtain ⟨q, -, listed, -⟩ := ordered.tried r last retry
    rw [Table.first_none empty q] at listed
    cases listed
  · rw [answered_rounds, List.getLast?_concat] at last
    cases last
    cases retry
  · rw [answered_rounds] at member
    rcases List.mem_append.mp member with old | new
    · exact ordered.done r old delivered
    · rw [List.mem_singleton.mp new] at delivered
      cases delivered

theorem step_ordered {e : LoopEvent} (h : s.step e = some s') (sound : s.Sound backlog) (ordered : s.Ordered) : s'.Ordered := by
  obtain ⟨limit, books⟩ := sound.books
  cases step_cases h with
  | push mine one => exact ordered.beside sound.sole (World.step_beside one mine books sound.held)
  | goes draining one goes => exact ordered.goes one goes
  | ends draining one ends =>
    cases ends with
    | idle fresh empty => exact ordered.idle sound.sole _ empty
    | unreadable here | refuse here => exact ordered.retry sound.sole _ here
    | settle here phase => exact ordered.settle sound.sole sound.held _ here phase
  | wake | shutdown => exact ⟨ordered.chain, ordered.apart, ordered.tried, ordered.done⟩

end Steps

/-- A `Retry` is followed by a call for the same entry or an older one, and a delivered entry by none. -/
theorem rounds_ordered {io : OpenIo} {files files' : Files} {maxBytes : Nat} {sp : Spool}
    (opened : Spool.open io files maxBytes = .ok (sp, files')) {es : List LoopEvent} {s : DrainLoop}
    (ran : (start sp files').run es = some s) : s.rounds.IsChain Follows ∧ s.rounds.Pairwise Leaves := by
  have kept := Transition.run_invariant (fun s => Sound (World.Backlog sp files') s ∧ s.Ordered) ran
    (fun _ _ _ _ one kept => ⟨step_sound one kept.1, step_ordered one kept.1 kept.2⟩)
    ⟨start_sound opened, start_ordered sp files'⟩
  exact ⟨kept.2.chain, kept.2.apart⟩

theorem rounds_ordered_resent : ∃ s, (start ⟨10, 0, 0, ∅⟩ ∅).run (refused ++ resent) = some s ∧
    s.rounds = [⟨some 0, .retry⟩, ⟨some 0, .delivered⟩] ∧ s.rounds.IsChain Follows ∧ s.rounds.Pairwise Leaves := by
  obtain ⟨s, ran, rounds⟩ := Option.map_eq_some_iff.mp
    (show ((start ⟨10, 0, 0, ∅⟩ ∅).run (refused ++ resent)).map (fun s => s.rounds) =
      some [⟨some 0, .retry⟩, ⟨some 0, .delivered⟩] by decide +kernel)
  exact ⟨s, ran, rounds, rounds_ordered (show Spool.open {} ∅ 10 = .ok (⟨10, 0, 0, ∅⟩, ∅) from rfl) ran⟩

end DrainLoop

end ArchivAgent.Spool
