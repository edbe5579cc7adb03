import ArchivAgent.Server.DataPlane
import ArchivAgent.Transition.Rank

/-!
# Every request gets its answer

What the pool still has to do for the requests it has taken, and that it can always do it: a
graceful shutdown, which waits for the requests in flight, comes to its end.
-/

namespace ArchivAgent
open Wire (Bytes)
open Spool (World PushPhase)

def Spool.PushPhase.stepsLeft : PushPhase → Nat
  | .reserved => 3
  | .writing _ => 2
  | .synced => 1
  | .renamed | .failed _ => 0

/-- The steps before the worker is idle, with the push it has in flight. -/
def Worker.stepsLeft (push : Option PushPhase) : Worker → Nat
  | .got _ => 8
  | .forwarding .. => 7
  | .down .. => 6
  | .spooling .. => 2 + (push.map PushPhase.stepsLeft).getD 0
  | .finished .. => 1
  | .idle | .dead => 0

/-- The worker is at a push, or it is dead and may have left one behind. -/
def Worker.atPush : Worker → Bool
  | .spooling .. | .dead => true
  | _ => false

def Worker.isDown : Worker → Bool
  | .down .. => true
  | _ => false

def Spool.Event.isWrite : Spool.Event → Bool
  | .write .. => true
  | _ => false

def Spool.Event.isFail : Spool.Event → Bool
  | .fail .. => true
  | _ => false

/-- A step of a worker, or of a client that gets its answer; a payload may take any number of writes. -/
def ServiceEvent.isWork : ServiceEvent → Bool
  | .recv _ | .process .. | .forward _ | .refuse _ | .push _ | .publish _ | .release _ | .respond _ | .answer _ => true
  | .io _ e => !e.isWrite
  | .submit .. | .closed .. | .drain _ | .hangUp _ | .die _ => false

def ServiceEvent.isSubmit : ServiceEvent → Bool
  | .submit .. => true
  | _ => false

/-- A step by which a request comes nearer to its answer, and nothing fails. -/
def ServiceEvent.proceeds : ServiceEvent → Bool
  | .recv _ | .process .. | .forward _ | .push _ | .publish _ | .release _ | .respond _ | .answer _ => true
  | .io _ e => !e.isFail
  | .submit .. | .closed .. | .refuse _ | .drain _ | .hangUp _ | .die _ => false

def DataPlaneEvent.isWork : DataPlaneEvent → Bool
  | .serve e => e.isWork
  | .loop _ => false

def DataPlaneEvent.isSubmit : DataPlaneEvent → Bool
  | .serve e => e.isSubmit
  | .loop _ => false

namespace Spool.World

/-- A file operation brings its push further, unless it is one of several writes. -/
theorem io_steps {s s' : World} {e : Event} {id : Nat} (h : s.step e = some s') (io : e.isIo = true) (mine : e.pushId = some id) :
    ∃ p p', s.pushes.lookup id = some p ∧ s'.pushes.lookup id = some p' ∧
      p'.phase.stepsLeft + (if !e.isWrite then 1 else 0) ≤ p.phase.stepsLeft := by
  have written : ∀ (w : World) (p : Push) phase, (w.setPush id p phase).pushes.lookup id = some { p with phase } :=
    fun _ _ _ => AList.lookup_insert _
  cases step_cases h with
  | create here phase =>
    cases mine
    exact ⟨_, _, here, written _ _ _, by rw [phase]; exact Nat.le_refl 3⟩
  | write here phase =>
    cases mine
    exact ⟨_, _, here, written _ _ _, by rw [phase]; exact Nat.le_refl 2⟩
  | sync here phase =>
    cases mine
    exact ⟨_, _, here, written _ _ _, by rw [phase]; exact Nat.le_refl 2⟩
  | rename here phase =>
    cases mine
    exact ⟨_, _, here, written _ _ _, by rw [phase]; exact Nat.le_refl 1⟩
  | @fail _ p err here unfinished first =>
    cases mine
    refine ⟨_, _, here, written _ _ _, ?_⟩
    cases phase : p.phase with
    | reserved => exact (by decide : 1 ≤ 3)
    | writing => exact (by decide : 1 ≤ 2)
    | synced => exact Nat.le_refl 1
    | renamed => exact absurd phase unfinished
    | failed e' => exact absurd phase (first e')
  | _ => cases io

/-- A push has written no more than its payload. -/
def Within (s : World) : Prop := ∀ id p m, s.pushes.lookup id = some p → p.phase = .writing m → m ≤ p.payload.length

theorem step_within {s s' : World} {e : Event} (h : s.step e = some s') (within : s.Within) : s'.Within := by
  have moves : ∀ id (p : Push) phase, s.pushes.lookup id = some p → (∀ m, phase = .writing m → m ≤ p.payload.length) →
      (s.setPush id p phase).Within := by
    intro id p phase here less i q m found writes
    rcases Table.lookup_of_insert found with ⟨rfl, rfl⟩ | ⟨-, found⟩
    · exact less m writes
    · exact within i q m found writes
  cases step_cases h with
  | reserve =>
    intro i q m found writes
    rcases Table.lookup_of_insert found with ⟨rfl, rfl⟩ | ⟨-, found⟩
    · cases writes
    · exact within i q m found writes
  | create here => exact moves _ _ _ here fun m same => by cases same; exact Nat.zero_le _
  | write here phase more less => exact moves _ _ _ here fun m same => by cases same; exact less
  | sync here | rename here | fail here => exact moves _ _ _ here nofun
  | publish | release => exact fun i q m found writes => within i q m (Table.lookup_of_erase found).2 writes
  | refuse | select | idle | read | unreadable | forward | retry | remove | removeFailed | settle => exact within

theorem push_proceeds {s : World} (held : s.Held) (within : s.Within) {id : Nat} {p : Push} (here : s.pushes.lookup id = some p) :
    (∃ e, e.isIo = true ∧ e.isFail = false ∧ e.pushId = some id ∧ (s.step e).isSome = true) ∨
      (s.step (.publish id)).isSome = true ∨ (s.step (.release id)).isSome = true := by
  have stored := held.stored id p here
  rw [Push.Stored] at stored
  cases phase : p.phase with
  | reserved =>
    refine .inl ⟨.create id, rfl, rfl, rfl, ?_⟩
    simp only [step, here, Option.bind_eq_bind, Option.bind_some, phase, if_true, Option.isSome_some]
  | writing m =>
    have less := within id p m here phase
    by_cases whole : m = p.payload.length
    · refine .inl ⟨.sync id, rfl, rfl, rfl, ?_⟩
      simp only [step, here, Option.bind_eq_bind, Option.bind_some, phase, whole, if_true, Option.isSome_some]
    · refine .inl ⟨.write id p.payload.length, rfl, rfl, rfl, ?_⟩
      simp only [step, here, Option.bind_eq_bind, Option.bind_some, phase, less, Nat.le_refl, and_self, if_true,
        Option.isSome_some]
  | synced =>
    rw [phase] at stored
    refine .inl ⟨.rename id, rfl, rfl, rfl, ?_⟩
    simp only [step, here, Option.bind_eq_bind, Option.bind_some, stored, phase, if_true, Option.isSome_some]
  | renamed =>
    refine .inr (.inl ?_)
    simp only [step, here, Option.bind_eq_bind, Option.bind_some, phase, if_true, Option.isSome_some]
  | failed e =>
    refine .inr (.inr ?_)
    simp only [step, here, Option.bind_eq_bind, Option.bind_some, phase, Option.isSome_some]

end Spool.World

namespace Service

def pushPhase (s : Service) (w : Nat) : Option PushPhase := (s.spool.bind fun world => world.pushes.lookup w).map (·.phase)

/-- The requests that have no answer. -/
def pending (s : Service) : Nat := s.requests.total fun _ r => if r.answer = .pending then 1 else 0

/-- What there is to do for the requests in hand. -/
def rank (s : Service) : Nat :=
  9 * s.queue.length + s.workers.total (fun w k => k.stepsLeft (s.pushPhase w)) + s.pending

/-! ### What the steps find -/

section Steps
variable {app : AppState} {s s' : Service}

theorem step_push {w : Nat} (h : s.step app (.push w) = some s') : ∃ job output world after,
    s.workers.lookup w = some (.down job output) ∧ s.spool = some world ∧ world.step (.push w output) = some after ∧
      ((s' = { s with spool := some after }.setWorker w (.spooling job output) ∧
          (after.pushes.lookup w).map (·.phase) = some .reserved) ∨
        (after = world ∧ (s' = { s with spool := some world }.finish w job .forwardFailed ∨
          s' = { s with spool := some world }.kill w (some job)))) := by
  simp only [step] at h
  split at h
  · rename_i job output world here spool
    obtain ⟨after, one, h⟩ := Option.map_eq_some_iff.mp h
    refine ⟨job, output, world, after, here, spool, one, ?_⟩
    cases World.step_cases one with
    | reserve fresh ok =>
      simp only [ok] at h
      subst h
      exact .inl ⟨rfl, by rw [World.reserved, AList.lookup_insert, Option.map_some]⟩
    | @refuse _ _ stop fresh failed =>
      refine .inr ⟨rfl, ?_⟩
      cases stop with
      | err =>
        simp only [failed] at h
        exact .inl h.symm
      | panic | diverge =>
        simp only [failed] at h
        exact .inr h.symm
  · cases h

theorem step_io {w : Nat} {e : Spool.Event} (h : s.step app (.io w e) = some s') : ∃ job output world after,
    s.workers.lookup w = some (.spooling job output) ∧ s.spool = some world ∧ e.isIo = true ∧ e.pushId = some w ∧
      world.step e = some after ∧ s' = { s with spool := some after } := by
  simp only [step] at h
  split at h
  · rename_i here spool
    split at h
    · obtain ⟨after, one, rfl⟩ := Option.map_eq_some_iff.mp h
      rename_i own
      exact ⟨_, _, _, after, here, spool, own.1, own.2, one, rfl⟩
    · cases h
  · cases h

theorem step_answer {i : Nat} (h : s.step app (.answer i) = some s') : ∃ r v, s.requests.lookup i = some r ∧
    r.answer = .pending ∧ s' = s.setRequest i { r with answer := .returned v } := by
  obtain ⟨r, asked, h⟩ := Option.bind_eq_some_iff.mp h
  split at h <;> cases h
  · exact ⟨r, _, asked, ‹_›, rfl⟩
  · exact ⟨r, _, asked, ‹_›, rfl⟩

end Steps

/-! ### The steps that are left -/

section Rank
variable {app : AppState} {s s' : Service} {w : Nat} {k k' : Worker}

theorem pushPhase_some {world : World} (spool : s.spool = some world) (w : Nat) :
    s.pushPhase w = (world.pushes.lookup w).map (·.phase) := by
  rw [pushPhase, spool, Option.bind_some]

theorem pending_setRequest {i : Nat} {r r' : Request} (asked : s.requests.lookup i = some r) (same : r'.answer = r.answer) :
    (s.setRequest i r').pending = s.pending :=
  Table.total_insert_same asked (by rw [same])

theorem rank_setWorker {c : Nat} (here : s.workers.lookup w = some k)
    (workers : ∀ weigh, Table.total weigh s'.workers = Table.total weigh (s.workers.insert w k')) (queue : s'.queue = s.queue)
    (pending : s'.pending = s.pending) (phases : ∀ v l, v ≠ w → s.workers.lookup v = some l → s'.pushPhase v = s.pushPhase v)
    (less : k'.stepsLeft (s'.pushPhase w) + c ≤ k.stepsLeft (s.pushPhase w)) : s'.rank + c ≤ s.rank := by
  have moved := @Table.total_rewrite _ _ _ s.workers w k (fun v l => l.stepsLeft (s.pushPhase v))
    (fun v l => l.stepsLeft (s'.pushPhase v)) k' here fun v l other there => by rw [phases v l other there]
  rw [rank, rank, workers, queue, pending]
  omega

theorem kill_queue (s : Service) (w : Nat) (job : Option Job) : (s.kill w job).queue = s.queue := by
  rw [kill]
  split <;> rfl

theorem kill_pending (s : Service) (w : Nat) (job : Option Job) : (s.kill w job).pending = s.pending := by
  rw [kill]
  split
  · rename_i i r found
    obtain ⟨job, -, here⟩ := Option.bind_eq_some_iff.mp found
    obtain ⟨r', asked, same⟩ := Option.map_eq_some_iff.mp here
    cases same
    exact pending_setRequest (s := s.setWorker w .dead) asked rfl
  · rfl

theorem kill_rank (here : s.workers.lookup w = some k) (job : Option Job) : (s.kill w job).rank + k.stepsLeft (s.pushPhase w) ≤ s.rank :=
  rank_setWorker here (fun _ => by rw [kill_workers]) (kill_queue ..) (kill_pending ..)
    (fun v l _ _ => by rw [pushPhase, pushPhase, kill_spool]) (Nat.zero_add _).le

theorem pushPhase_frame {world after : World} {e : Spool.Event} (spool : s.spool = some world) (grown : s'.spool = some after)
    (one : world.step e = some after) {v : Nat} (other : e.pushId ≠ some v) : s'.pushPhase v = s.pushPhase v := by
  rw [pushPhase_some spool, pushPhase_some grown, World.pushes_frame one other]

/-- A step that counts brings the rank down, and only a new request raises it. -/
theorem step_rank {e : ServiceEvent} (h : s.step app e = some s') (own : e.isDrain = false) :
    s'.rank + (if e.isWork then 1 else 0) ≤ s.rank + (if e.isSubmit then 10 else 0) := by
  cases e with
  | submit i raw =>
    cases step_cases h with
    | submit fresh =>
      have more : (s.enqueue i raw).pending = 1 + s.pending := Table.total_insert fresh
      have longer : (s.enqueue i raw).queue.length = s.queue.length + 1 := List.length_append
      rw [rank, more, longer]
      show 9 * (s.queue.length + 1) + Table.total (fun w k => k.stepsLeft (s.pushPhase w)) s.workers + (1 + s.pending) + 0 ≤ s.rank + 10
      rw [rank]
      omega
  | closed i raw =>
    cases step_cases h with
    | closed fresh =>
      have same : (s.setRequest i ⟨raw, .dropped, .returned .forwardFailed⟩).pending = 0 + s.pending := Table.total_insert fresh
      rw [rank, same, Nat.zero_add]
      exact Nat.le_refl _
  | recv w =>
    cases step_cases h with
    | @recv _ job rest here head =>
      have moved : Table.total (fun v l => l.stepsLeft (s.pushPhase v)) (s.workers.insert w (.got job)) + 0 =
          Table.total (fun v l => l.stepsLeft (s.pushPhase v)) s.workers + 8 := Table.total_replace here
      have shorter : s.queue.length = rest.length + 1 := by rw [head, List.length_cons]
      show 9 * rest.length + Table.total (fun v l => l.stepsLeft (s.pushPhase v)) (s.workers.insert w (.got job)) + s.pending + 1 ≤ s.rank
      rw [rank, shorter]
      omega
  | process w =>
    cases step_cases h with
    | panic here => exact Nat.le_trans (Nat.add_le_add_left (by decide : 1 ≤ 8) _) (kill_rank here _)
    | malformed here | validated here =>
      exact rank_setWorker here (fun _ => rfl) rfl rfl (fun _ _ _ _ => rfl) (by decide : 1 + 1 ≤ 8)
    | governed here => exact rank_setWorker here (fun _ => rfl) rfl rfl (fun _ _ _ _ => rfl) (by decide : 7 + 1 ≤ 8)
  | forward w =>
    cases step_cases h with
    | forward here => exact rank_setWorker here (fun _ => rfl) rfl rfl (fun _ _ _ _ => rfl) (by decide : 1 + 1 ≤ 7)
  | refuse w =>
    cases step_cases h with
    | down here => exact rank_setWorker here (fun _ => rfl) rfl rfl (fun _ _ _ _ => rfl) (by decide : 6 + 1 ≤ 7)
    | unspooled here => exact rank_setWorker here (fun _ => rfl) rfl rfl (fun _ _ _ _ => rfl) (by decide : 1 + 1 ≤ 7)
  | push w =>
    obtain ⟨job, output, world, after, here, spool, one, ⟨rfl, phase⟩ | ⟨rfl, rfl | rfl⟩⟩ := step_push h
    · refine rank_setWorker here (fun _ => rfl) rfl rfl (fun v _ other _ => pushPhase_frame spool rfl one ?_) ?_
      · exact fun same => other (Option.some.inj same).symm
      · have now : pushPhase ({ s with spool := some after }.setWorker w (.spooling job output)) w = some .reserved := by
          rw [pushPhase_some rfl, phase]
        rw [now]
        exact (by decide : 2 + 3 + 1 ≤ 6)
    · rw [← spool]
      exact rank_setWorker here (fun _ => rfl) rfl rfl (fun _ _ _ _ => rfl) (by decide : 1 + 1 ≤ 6)
    · rw [← spool]
      exact Nat.le_trans (Nat.add_le_add_left (by decide : 1 ≤ 6) _) (kill_rank here _)
  | io w e =>
    obtain ⟨job, output, world, after, here, spool, isIo, mine, one, rfl⟩ := step_io h
    obtain ⟨p, p', found, found', less⟩ := World.io_steps one isIo mine
    refine rank_setWorker here (fun _ => (Table.total_insert_same here rfl).symm) rfl rfl
      (fun v _ other _ => pushPhase_frame spool rfl one ?_) ?_
    · rw [mine]
      exact fun same => other (Option.some.inj same).symm
    · have now : pushPhase { s with spool := some after } w = some p'.phase := by
        rw [pushPhase_some rfl, found', Option.map_some]
      rw [now, pushPhase_some spool, found]
      exact (Nat.add_assoc ..).le.trans (Nat.add_le_add_left less 2)
  | publish w =>
    cases step_cases h with
    | publish here spool one =>
      refine rank_setWorker here (fun _ => rfl) rfl rfl (fun v _ other _ => pushPhase_frame spool rfl one ?_) ?_
      · exact fun same => other (Option.some.inj same).symm
      · exact Nat.le_add_right 2 _
  | release w =>
    cases step_cases h with
    | release here spool one =>
      refine rank_setWorker here (fun _ => rfl) rfl rfl (fun v _ other _ => pushPhase_frame spool rfl one ?_) ?_
      · exact fun same => other (Option.some.inj same).symm
      · exact Nat.le_add_right 2 _
  | drain => cases own
  | respond w =>
    cases step_cases h with
    | @respond _ job v r here asked =>
      exact rank_setWorker here (fun _ => rfl) rfl (pending_setRequest asked rfl) (fun _ _ _ _ => rfl) (Nat.le_refl 1)
    | unheard here => exact rank_setWorker here (fun _ => rfl) rfl rfl (fun _ _ _ _ => rfl) (Nat.le_refl 1)
  | answer i =>
    obtain ⟨r, v, asked, waits, rfl⟩ := step_answer h
    have moved := Table.total_replace (w := fun _ r => if r.answer = .pending then 1 else 0) (u := { r with answer := .returned v }) asked
    simp only [waits, if_true, reduceCtorEq, if_false] at moved
    have fewer : (s.setRequest i { r with answer := .returned v }).pending + 1 = s.pending + 0 := moved
    rw [rank, rank]
    show 9 * s.queue.length + Table.total (fun w k => k.stepsLeft (s.pushPhase w)) s.workers + pending _ + 1 ≤ _
    omega
  | hangUp i =>
    cases step_cases h with
    | @hangUp _ r asked =>
      have moved := Table.total_replace (w := fun _ r => if r.answer = .pending then 1 else 0) (u := { r with answer := .gone }) asked
      simp only [reduceCtorEq, if_false] at moved
      have fewer : (s.setRequest i { r with answer := .gone }).pending + _ = s.pending + 0 := moved
      exact Nat.add_le_add_left (Nat.le_trans (Nat.le_add_right _ _) fewer.le) _
  | die w =>
    cases step_cases h with
    | die here => exact Nat.le_trans (Nat.le_add_right _ _) (kill_rank here _)

end Rank

/-! ### Where a request's job is -/

def Placed (s : Service) (i : Nat) : Prop :=
  (∃ job ∈ s.queue, job.request = i) ∨ ∃ w k job, s.workers.lookup w = some k ∧ k.job = some job ∧ job.request = i

/-- A request that waits for a verdict has a job. -/
def Placing (s : Service) : Prop := ∀ i r, s.requests.lookup i = some r → r.reply = .waiting → s.Placed i

section Placing
variable {app : AppState} {s s' : Service} {i w : Nat} {k k' : Worker}

theorem Placed.setWorker (placed : s.Placed i) (here : s.workers.lookup w = some k)
    (workers : s'.workers = s.workers.insert w k') (queue : s'.queue = s.queue) (job : k'.job = k.job) : s'.Placed i := by
  rcases placed with ⟨j, member, mine⟩ | ⟨v, l, j, there, has, mine⟩
  · exact .inl ⟨j, queue ▸ member, mine⟩
  · by_cases same : v = w
    · rw [same, here] at there
      cases there
      exact .inr ⟨w, k', j, by rw [workers, AList.lookup_insert], job.trans has, mine⟩
    · exact .inr ⟨v, l, j, by rw [workers, AList.lookup_insert_ne same]; exact there, has, mine⟩

theorem Placing.setWorker (placing : s.Placing) (here : s.workers.lookup w = some k)
    (workers : s'.workers = s.workers.insert w k') (queue : s'.queue = s.queue) (requests : s'.requests = s.requests)
    (job : k'.job = k.job) : s'.Placing :=
  fun i r asked waits => (placing i r (requests ▸ asked) waits).setWorker here workers queue job

theorem Placed.other (placed : s.Placed i) (here : s.workers.lookup w = some k) (lost : ∀ job, k.job = some job → job.request ≠ i)
    (workers : s'.workers = s.workers.insert w k') (queue : s'.queue = s.queue) : s'.Placed i := by
  rcases placed with ⟨j, member, mine⟩ | ⟨v, l, j, there, has, mine⟩
  · exact .inl ⟨j, queue ▸ member, mine⟩
  · have apart : v ≠ w := by
      rintro rfl
      cases here.symm.trans there
      exact lost j has mine
    exact .inr ⟨v, l, j, by rw [workers, AList.lookup_insert_ne apart]; exact there, has, mine⟩

theorem Placing.kill (placing : s.Placing) (here : s.workers.lookup w = some k) : (s.kill w k.job).Placing := by
  intro i r asked waits
  rw [kill_requests] at asked
  split at asked
  · obtain ⟨r', -, rfl⟩ := Option.map_eq_some_iff.mp asked
    simp only [closes] at waits
    split at waits
    · cases waits
    · exact absurd waits ‹_›
  · rename_i apart
    refine (placing i r asked waits).other here (fun job has same => apart ?_) (kill_workers ..) (kill_queue ..)
    rw [has, Option.map_some, same]

theorem Placing.setRequest {r r' : Request} (placing : s.Placing) (asked : s.requests.lookup i = some r)
    (reply : r'.reply = r.reply) : (s.setRequest i r').Placing := by
  intro j r'' found waits
  rcases Table.lookup_of_insert found with ⟨rfl, rfl⟩ | ⟨-, found⟩
  · exact placing j r asked (reply ▸ waits)
  · exact placing j r'' found waits

end Placing

/-! ### Whose the pushes are -/

def pushOf (s : Service) (w : Nat) : Option Spool.Push := s.spool.bind fun world => world.pushes.lookup w

/-- A worker that is not at a push has none in flight; one that is down has a spool to push to. -/
structure Unpushed (s : Service) : Prop where
  free : ∀ w k, s.workers.lookup w = some k → k.atPush = false → s.pushOf w = none
  spooled : ∀ w k, s.workers.lookup w = some k → k.isDown = true → s.spool.isSome = true
  within : ∀ world ∈ s.spool, world.Within

section Unpushed
variable {app : AppState} {s s' : Service} {w : Nat} {k k' : Worker} {world after : World}

theorem Unpushed.setWorker (unpushed : s.Unpushed) (workers : s'.workers = s.workers.insert w k')
    (spool : s'.spool = s.spool) (free : k'.atPush = false → s.pushOf w = none)
    (spooled : k'.isDown = true → s.spool.isSome = true) : s'.Unpushed where
  free v l found alone := by
    rw [workers] at found
    rw [pushOf, spool]
    rcases Table.lookup_of_insert found with ⟨rfl, rfl⟩ | ⟨-, found⟩
    · exact free alone
    · exact unpushed.free v l found alone
  spooled v l found down := by
    rw [workers] at found
    rw [spool]
    rcases Table.lookup_of_insert found with ⟨-, rfl⟩ | ⟨-, found⟩
    · exact spooled down
    · exact unpushed.spooled v l found down
  within := by
    rw [spool]
    exact unpushed.within

theorem Unpushed.withSpool (unpushed : s.Unpushed) (spool : s.spool = some world) {i : Spool.Event} (one : world.step i = some after)
    (apart : ∀ v l, s.workers.lookup v = some l → l.atPush = false → i.pushId ≠ some v) :
    Unpushed { s with spool := some after } where
  free v l found alone := by
    have before := unpushed.free v l found alone
    rw [pushOf, spool, Option.bind_some] at before
    rw [pushOf, Option.bind_some, World.pushes_frame one (apart v l found alone)]
    exact before
  spooled _ _ _ _ := rfl
  within := by
    rintro _ ⟨⟩
    exact World.step_within one (unpushed.within world spool)

theorem Unpushed.kill (unpushed : s.Unpushed) (w : Nat) (job : Option Job) : (s.kill w job).Unpushed :=
  unpushed.setWorker (kill_workers ..) (kill_spool ..) Bool.noConfusion Bool.noConfusion

theorem Unpushed.ends (unpushed : s.Unpushed) (here : s.workers.lookup w = some k) (spool : s.spool = some world)
    {i : Spool.Event} (one : world.step i = some after) (mine : i.pushId = some w) (ended : after.pushes.lookup w = none)
    (pushing : k.atPush = true) (job : Job) (v : Verdict) :
    ({ s with spool := some after }.finish w job v).Unpushed := by
  have moved := unpushed.withSpool spool one fun v l found alone same => by
    rw [mine] at same
    cases same
    cases here.symm.trans found
    rw [pushing] at alone
    cases alone
  exact moved.setWorker rfl rfl (fun _ => ended) Bool.noConfusion

end Unpushed

/-! ### No request is stuck -/

structure Going (app : AppState) (s : Service) : Prop where
  sound : s.Sound app
  placing : s.Placing
  unpushed : s.Unpushed

section Going
variable {app : AppState} {s : Service} {w : Nat} {k : Worker}

theorem Going.busy (going : s.Going app) (here : s.workers.lookup w = some k) {job : Job} (has : k.job = some job) :
    ∃ e, e.proceeds = true ∧ e.isDrain = false ∧ (s.step app e).isSome = true := by
  cases k with
  | idle | dead => cases has
  | got job =>
    refine ⟨.process w ⟨⟨[], [], []⟩, [], ⟨[], 100⟩, 100, .withDefaults⟩ .closed 0 none, rfl, rfl, ?_⟩
    simp only [step, here]
    split
    · rfl
    · split
      · rfl
      · split <;> rfl
  | forwarding job output =>
    refine ⟨.forward w, rfl, rfl, ?_⟩
    simp only [step, here, Option.isSome_some]
  | down job output =>
    obtain ⟨world, spool⟩ := Option.isSome_iff_exists.mp (going.unpushed.spooled w _ here rfl)
    have free := going.unpushed.free w _ here rfl
    rw [pushOf, spool, Option.bind_some] at free
    refine ⟨.push w, rfl, rfl, ?_⟩
    have able : (world.step (.push w output)).isSome = true := by
      simp only [World.step, free]
      split <;> rfl
    simp only [step, here, spool, Option.isSome_map, able]
  | spooling job output =>
    obtain ⟨-, -, world, there, mine⟩ := going.sound.working w _ here
    have spool : s.spool = some world := there
    obtain ⟨p, found, -⟩ := Option.map_eq_some_iff.mp mine
    have held := (going.sound.spool world spool).2
    rcases World.push_proceeds held (going.unpushed.within world spool) found with ⟨e, io, whole, own, able⟩ | able | able
    · refine ⟨.io w e, ?_, rfl, ?_⟩
      · rw [ServiceEvent.proceeds, whole, Bool.not_false]
      · simp only [step, here, spool, io, own, and_self, if_true, Option.isSome_map, able]
    · refine ⟨.publish w, rfl, rfl, ?_⟩
      simp only [step, here, spool, Option.isSome_map, able]
    · refine ⟨.release w, rfl, rfl, ?_⟩
      simp only [step, here, spool, Option.isSome_map, able]
  | finished job v =>
    refine ⟨.respond w, rfl, rfl, ?_⟩
    simp only [step, here]
    split <;> rfl

theorem Going.proceeds (going : s.Going app) (alive : s.isClosed = false) {i : Nat} {r : Request}
    (asked : s.requests.lookup i = some r) (waits : r.answer = .pending) :
    ∃ e, e.proceeds = true ∧ e.isDrain = false ∧ (s.step app e).isSome = true := by
  have told : ∀ v, r.reply = .sent v ∨ r.reply = .dropped → ∃ e, e.proceeds = true ∧ e.isDrain = false ∧ (s.step app e).isSome = true := by
    rintro v (reply | reply)
    all_goals
      refine ⟨.answer i, rfl, rfl, ?_⟩
      simp only [step, asked, Option.bind_eq_bind, Option.bind_some, waits, reply, Option.isSome_some]
  cases reply : r.reply with
  | sent v => exact told v (.inl reply)
  | dropped => exact told .malformed (.inr reply)
  | waiting =>
    rcases going.placing i r asked reply with ⟨job, queued, -⟩ | ⟨w, k, job, here, has, -⟩
    · obtain ⟨e, member, living⟩ : ∃ e ∈ s.workers.entries, e.2 ≠ .dead := by
        by_contra none
        refine absurd (List.all_eq_true.mpr fun e member => ?_) (Bool.eq_false_iff.mp alive)
        exact decide_eq_true (not_not.mp fun living => none ⟨e, member, living⟩)
      have here : s.workers.lookup e.1 = some e.2 := Table.mem_entries.mp member
      cases has : e.2.job with
      | some job => exact going.busy here has
      | none =>
        obtain ⟨head, rest, line⟩ := List.exists_cons_of_ne_nil (List.ne_nil_of_mem queued)
        have idle : e.2 = .idle := by
          cases worker : e.2 with
          | idle => rfl
          | dead => exact absurd worker living
          | _ =>
            rw [worker] at has
            cases has
        refine ⟨.recv e.1, rfl, rfl, ?_⟩
        simp only [step, here, idle, line, Option.isSome_some]
    · exact going.busy here has

end Going

end Service

namespace DataPlane

/-! ### Every continuation -/

section Completes
variable {app : AppState} {n n' : DataPlane} {e : DataPlaneEvent}

/-- The loop, and the pushes of the other receiver, leave the pool what it has to do. -/
theorem step_rank (h : n.step app e = some n') :
    n'.service.rank + (if e.isWork then 1 else 0) ≤ n.service.rank + (if e.isSubmit then 10 else 0) := by
  cases step_cases h with
  | serve own one => exact Service.step_rank one own
  | @loop e l l' foreign here one =>
    obtain ⟨spool, -⟩ := loop_some.mp here
    have phases : ∀ w k, n.service.workers.lookup w = some k →
        Service.pushPhase { n.service with spool := some l'.world } w = n.service.pushPhase w := by
      intro w k found
      rcases Service.loop_spool one foreign with same | ⟨i, moved, apart⟩
      · rw [Service.pushPhase_some rfl, Service.pushPhase_some spool, same]
      · exact Service.pushPhase_frame spool rfl moved (apart w k found)
    have same : Table.total (fun w k => k.stepsLeft (Service.pushPhase { n.service with spool := some l'.world } w)) n.service.workers =
        Table.total (fun w k => k.stepsLeft (n.service.pushPhase w)) n.service.workers :=
      congrArg List.sum (List.map_congr_left fun e member =>
        congrArg (Worker.stepsLeft · e.2) (phases e.1 e.2 (Table.mem_entries.mp member)))
    refine Nat.add_le_add (Nat.le_of_eq ?_) (Nat.le_refl 0)
    rw [Service.rank, Service.rank, same]
    rfl

end Completes

end DataPlane

end ArchivAgent
