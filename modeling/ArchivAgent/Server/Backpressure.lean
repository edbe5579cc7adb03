import Mathlib.Algebra.Group.Action.Defs
import ArchivAgent.Server.Progress
import ArchivAgent.Server.Receivers

/-!
# Backpressure

The queue of `spawn_pool` between the receivers and the workers. It gives its jobs out in the order
in which they came and loses none, it is never longer than its capacity, and with the body limit of
the receivers that bounds the bytes of the requests that wait or are worked on.
-/

namespace ArchivAgent
open Wire (Bytes)
open Spool (World)

def ServiceEvent.job : ServiceEvent → Option Job
  | .submit i raw => some ⟨i, raw⟩
  | _ => none

def ServiceEvent.isRecv : ServiceEvent → Bool
  | .recv _ => true
  | _ => false

def ServiceEvent.taken : ServiceEvent → Service → Option Job
  | .recv w, s => (s.workers.lookup w).bind Worker.job
  | _, _ => none

def Worker.heldBytes (k : Worker) : Nat := (k.job.map (·.raw.length)).getD 0

namespace Service
variable {app : AppState} {s s' : Service} {e : ServiceEvent} {w : Nat} {k : Worker}

def heldBytes (s : Service) : Nat :=
  (s.queue.map (·.raw.length)).sum + s.workers.total fun _ k => k.heldBytes

/-! ### What a step does to the queue -/

theorem step_adds (h : s.step app e = some s') (quiet : e.isRecv = false) : s'.queue = s.queue ++ e.job.toList := by
  cases step_cases h with
  | submit => rfl
  | recv => cases quiet
  | panic | die | overflow => exact (kill_queue ..).trans (List.append_nil _).symm
  | _ => exact (List.append_nil _).symm

theorem step_takes (h : s.step app e = some s') (recv : e.isRecv = true) :
    e.job = none ∧ ∃ head, s.queue = head :: s'.queue ∧ e.taken s' = some head := by
  cases step_cases h with
  | @recv w job rest here head =>
    refine ⟨rfl, job, head, ?_⟩
    show ((s.take w job rest).workers.lookup w).bind Worker.job = some job
    rw [take, setWorker]
    simp only [AList.lookup_insert, Option.bind_some, Worker.job]
  | _ => cases recv

theorem taken_isSome (h : s.step app e = some s') : (e.taken s').isSome = e.isRecv := by
  cases reading : e.isRecv with
  | true =>
    obtain ⟨-, head, -, taken⟩ := step_takes h reading
    rw [taken]
    rfl
  | false =>
    cases e with
    | recv => cases reading
    | _ => rfl

/-- The queue and the workers hand every job on. -/
theorem step_queue (h : s.step app e = some s') : s.queue ++ e.job.toList = (e.taken s').toList ++ s'.queue := by
  cases reading : e.isRecv with
  | true =>
    obtain ⟨silent, head, split, taken⟩ := step_takes h reading
    rw [silent, split, taken]
    exact List.append_nil _
  | false =>
    have none : e.taken s' = none := by
      rw [← Option.not_isSome_iff_eq_none, taken_isSome h, reading]
      exact Bool.false_ne_true
    rw [step_adds h reading, none]
    rfl

theorem step_fits (h : s.step app e = some s') (fits : s.queue.length ≤ max app.channelCapacity 1) :
    s'.queue.length ≤ max app.channelCapacity 1 := by
  cases reading : e.isRecv with
  | true =>
    obtain ⟨-, head, split, -⟩ := step_takes h reading
    rw [split, List.length_cons] at fits
    omega
  | false =>
    rw [step_adds h reading, List.length_append]
    cases e with
    | submit i raw =>
      simp only [step] at h
      split at h
      · cases h
      · split at h <;> cases h
        rename_i room
        exact room.1
    | _ => exact fits

/-! ### What a step does to the workers -/

/-- At most one worker goes on, with its job or with one of the queue. -/
inductive Moves (s s' : Service) : Prop where
  | still (workers : s'.workers = s.workers)
  | moves {w k k'} (here : s.workers.lookup w = some k) (workers : s'.workers = s.workers.insert w k')
      (holds : ∀ job, k'.job = some job → k.job = some job ∨ job ∈ s.queue)

theorem step_moves (h : s.step app e = some s') : Moves s s' := by
  have killed : ∀ {s' : Service} {w k} (job : Option Job), s.workers.lookup w = some k → s'.workers = s.workers →
      Moves s (s'.kill w job) := fun job here same =>
    .moves here ((kill_workers ..).trans (by rw [same])) fun _ none => by cases none
  cases step_cases h with
  | @recv w job rest here head =>
    refine .moves here rfl fun job' mine => .inr ?_
    cases mine
    rw [head]
    exact List.mem_cons_self
  | panic here => exact killed _ here rfl
  | overflow here => exact killed _ here rfl
  | die here => exact killed _ here rfl
  | malformed here | validated here | governed here | forward here | down here | unspooled here | reserve here =>
    exact .moves here rfl fun _ mine => .inl mine
  | full here | publish here | release here => exact .moves here rfl fun _ mine => .inl mine
  | respond here | unheard here => exact .moves here rfl fun _ none => by cases none
  | submit | closed | io | drain | answer | dropped | hangUp => exact .still rfl

/-! ### The jobs that are held -/

/-- Every job that waits or is worked on is short, and there are so many workers. -/
structure Short (workers M : Nat) (s : Service) : Prop where
  queued : ∀ job ∈ s.queue, job.raw.length ≤ M
  worked : ∀ w k, s.workers.lookup w = some k → k.heldBytes ≤ M
  pool : (s.workers.total fun _ _ => M) = workers * M

theorem step_short {workers M : Nat} (h : s.step app e = some s') (given : ∀ job ∈ e.job, job.raw.length ≤ M)
    (short : s.Short workers M) : s'.Short workers M := by
  have queued : ∀ job ∈ s'.queue, job.raw.length ≤ M := by
    intro job member
    cases reading : e.isRecv with
    | true =>
      obtain ⟨-, head, split, -⟩ := step_takes h reading
      exact short.queued job (split ▸ List.mem_cons_of_mem _ member)
    | false =>
      rw [step_adds h reading, List.mem_append, Option.mem_toList] at member
      exact member.elim (short.queued job) (given job)
  cases step_moves h with
  | still same =>
    refine ⟨queued, ?_, ?_⟩
    · rw [same]
      exact short.worked
    · rw [same]
      exact short.pool
  | @moves w k k' here moved holds =>
    refine ⟨queued, fun v l found => ?_, ?_⟩
    · rw [moved] at found
      rcases Table.lookup_of_insert found with ⟨rfl, rfl⟩ | ⟨-, old⟩
      · cases mine : l.job with
        | none =>
          rw [Worker.heldBytes, mine]
          exact Nat.zero_le _
        | some job =>
          rw [Worker.heldBytes, mine]
          rcases holds job mine with same | waiting
          · have before := short.worked v k here
            rw [Worker.heldBytes, same] at before
            exact before
          · exact short.queued job waiting
      · exact short.worked v l old
    · rw [moved]
      exact (Table.total_insert_same here rfl).trans short.pool

theorem Short.heldBytes {workers M : Nat} (short : s.Short workers M) : s.heldBytes ≤ (s.queue.length + workers) * M := by
  have waiting : (s.queue.map (·.raw.length)).sum ≤ (s.queue.map (·.raw.length)).length • M :=
    List.sum_le_card_nsmul _ _ fun x member => by
      obtain ⟨job, mine, rfl⟩ := List.mem_map.mp member
      exact short.queued job mine
  have working := Table.total_le short.worked
  rw [short.pool] at working
  rw [List.length_map, smul_eq_mul] at waiting
  rw [Service.heldBytes, Nat.add_mul]
  exact Nat.add_le_add waiting working

theorem spawnPool_short (workers M : Nat) (spool : Option World) : (spawnPool workers spool).Short (max workers 1) M where
  queued := by
    intro job member
    cases member
  worked := by
    intro w k found
    rw [spawnPool_workers found]
    exact Nat.zero_le _
  pool := by
    rw [spawnPool, Table.total_toAList _ (by simp [List.keys, Function.comp_def, List.nodup_range])]
    simp [Function.comp_def]

end Service

/-! ### Every run -/

def EdgeEvent.serves {t : Transport} : EdgeEvent t → Option ServiceEvent
  | .plane (.serve e) => some e
  | _ => none

def EdgeEvent.job {t : Transport} (e : EdgeEvent t) : Option Job := e.serves.bind (·.job)

def EdgeEvent.isRecv {t : Transport} (e : EdgeEvent t) : Bool := e.serves.any (·.isRecv)

def EdgeEvent.taken {t : Transport} (e : EdgeEvent t) (after : Edge t) : Option Job := e.serves.bind (·.taken after.plane.service)

def EdgeEvent.limit {t : Transport} : EdgeEvent t → Option Nat
  | .arrive _ _ maxBodyBytes => some maxBodyBytes
  | .plane _ => none

namespace Edge
variable {t : Transport} {app : AppState} {n n' : Edge t} {e : EdgeEvent t}

/-- The pool takes the step, or the queue and the workers stay as they are. -/
theorem step_serves (h : n.step app e = some n') :
    (∃ own, e.serves = some own ∧ n.plane.service.step app own = some n'.plane.service ∧
      ∀ job ∈ own.job, n.message job.request = some job.raw) ∨
    (e.serves = none ∧ n'.plane.service.queue = n.plane.service.queue ∧ n'.plane.service.workers = n.plane.service.workers) := by
  cases step_cases h with
  | arrive => exact .inr ⟨rfl, rfl, rfl⟩
  | plane given one =>
    cases DataPlane.step_cases one with
    | @serve own service quiet step =>
      refine .inl ⟨own, rfl, step, fun job member => ?_⟩
      cases own with
      | submit i raw =>
        cases member
        exact given (i, raw) rfl
      | _ => cases member
    | loop => exact .inr ⟨rfl, rfl, rfl⟩

/-- A job came whole within the limit of its receiver. -/
structure Bounded (app : AppState) (workers M : Nat) (n : Edge t) : Prop where
  fits : n.plane.service.queue.length ≤ max app.channelCapacity 1
  short : n.plane.service.Short (max workers 1) M
  limits : ∀ i a, n.arrivals.lookup i = some a → a.2 ≤ M

theorem Bounded.message {workers M : Nat} (bounded : n.Bounded app workers M) {i : Nat} {m : Bytes}
    (submitted : n.message i = some m) : m.length ≤ M := by
  obtain ⟨a, arrived, submits⟩ := Option.bind_eq_some_iff.mp submitted
  exact (t.fits _ _ _ (Sum.getRight?_eq_some_iff.mp submits)).trans (bounded.limits i a arrived)

theorem step_bounded {workers M : Nat} (h : n.step app e = some n') (limited : ∀ max ∈ e.limit, max ≤ M)
    (bounded : n.Bounded app workers M) : n'.Bounded app workers M := by
  have limits : ∀ i a, n'.arrivals.lookup i = some a → a.2 ≤ M := by
    intro i a found
    cases step_cases h with
    | arrive fresh =>
      rcases Table.lookup_of_insert found with ⟨rfl, rfl⟩ | ⟨-, old⟩
      · exact limited _ rfl
      · exact bounded.limits i a old
    | plane => exact bounded.limits i a found
  rcases step_serves h with ⟨own, -, one, given⟩ | ⟨-, queue, pool⟩
  · exact ⟨Service.step_fits one bounded.fits,
      Service.step_short one (fun job member => bounded.message (given job member)) bounded.short, limits⟩
  · refine ⟨by rw [queue]; exact bounded.fits, ⟨?_, ?_, ?_⟩, limits⟩
    · rw [queue]
      exact bounded.short.queued
    · rw [pool]
      exact bounded.short.worked
    · rw [pool]
      exact bounded.short.pool

theorem step_queue (h : n.step app e = some n') :
    n.plane.service.queue ++ e.job.toList = (e.taken n').toList ++ n'.plane.service.queue := by
  rcases step_serves h with ⟨own, serves, step, -⟩ | ⟨serves, queue, -⟩
  · rw [EdgeEvent.job, EdgeEvent.taken, serves, Option.bind_some, Option.bind_some]
    exact Service.step_queue step
  · rw [EdgeEvent.job, EdgeEvent.taken, serves, queue]
    exact List.append_nil _

theorem taken_isSome (h : n.step app e = some n') : (e.taken n').isSome = e.isRecv := by
  rcases step_serves h with ⟨own, serves, step, -⟩ | ⟨serves, -, -⟩
  · rw [EdgeEvent.taken, EdgeEvent.isRecv, serves, Option.bind_some, Option.any_some]
    exact Service.taken_isSome step
  · rw [EdgeEvent.taken, EdgeEvent.isRecv, serves]
    rfl

abbrev taken (app : AppState) (n : Edge t) (es : List (EdgeEvent t)) : List Job :=
  Transition.outputs (step app) EdgeEvent.taken n es

/-- The workers get the jobs in the order in which they were submitted, one with each `recv`, and none
is lost. However many clients send, and however much, what the agent holds of their requests is bounded. -/
theorem queue_bounded {p : Protocol} {n : Edge p.transport} {workers M : Nat} {spool : Option World}
    {es : List (EdgeEvent p.transport)} (ran : (start p.transport workers spool).run app es = some n)
    (limited : ∀ e ∈ es, ∀ max ∈ e.limit, max ≤ M) :
    es.filterMap (·.job) = taken app (start p.transport workers spool) es ++ n.plane.service.queue ∧
    (taken app (start p.transport workers spool) es).length = es.countP (·.isRecv) ∧
    n.plane.service.queue.length ≤ max app.channelCapacity 1 ∧
    n.plane.service.heldBytes ≤ (max app.channelCapacity 1 + max workers 1) * M := by
  have first : (start p.transport workers spool).Bounded app workers M :=
    ⟨Nat.zero_le _, Service.spawnPool_short workers M spool, fun _ _ found => by cases found⟩
  have bounded := Transition.run_invariant (Bounded app workers M) ran
    (fun e member _ _ one bounded => step_bounded one (limited e member) bounded) first
  refine ⟨?_, ?_, bounded.fits, bounded.short.heldBytes.trans (Nat.mul_le_mul_right M (Nat.add_le_add_right bounded.fits _))⟩
  · exact Transition.run_queue (fun n : Edge p.transport => n.plane.service.queue) (fun e => e.job) EdgeEvent.taken ran
      fun _ _ _ _ one => step_queue one
  · exact Transition.outputs_length ran fun _ _ _ _ one => taken_isSome one

/-- The worker has one job, and the other waits. -/
def waitingRun : List (EdgeEvent .http) :=
  clientRun.take 3 ++ [.plane (.serve (.submit 0 [0x0A, 0])), .plane (.serve (.recv 0)), .plane (.serve (.submit 1 [0x0A, 0]))]

theorem queue_bounded_waiting : ∃ n, (start .http 1 none).run ⟨.literal, some [], 1⟩ waitingRun = some n ∧
    n.plane.service.queue = [⟨1, [0x0A, 0]⟩] ∧
    waitingRun.filterMap (·.job) = taken ⟨.literal, some [], 1⟩ (start .http 1 none) waitingRun ++ n.plane.service.queue ∧
    (taken ⟨.literal, some [], 1⟩ (start .http 1 none) waitingRun).length = 1 ∧
    n.plane.service.queue.length ≤ 1 ∧ n.plane.service.heldBytes ≤ (1 + 1) * 100 := by
  obtain ⟨n, ran, waits⟩ := Option.map_eq_some_iff.mp
    (show ((start .http 1 none).run ⟨.literal, some [], 1⟩ waitingRun).map (fun n => n.plane.service.queue) =
      some [⟨1, [0x0A, 0]⟩] by decide +kernel)
  have limited : ∀ e ∈ waitingRun, ∀ max ∈ e.limit, max ≤ 100 := by decide
  exact ⟨n, ran, waits, @queue_bounded ⟨.literal, some [], 1⟩ .http n 1 100 none _ ran limited⟩

end Edge

end ArchivAgent
