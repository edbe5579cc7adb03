import ArchivAgent.Agent.Governing
import ArchivAgent.Server.Service
import ArchivAgent.Spool.Held

/-!
# What `Accepted` stands for

`Sound` holds of every reachable state: a verdict is the one computed for its request's bytes, and
an `Accepted` rests on a 2xx or on an acknowledged push. `Held` says what the spool then has.
-/

namespace ArchivAgent
open Wire (Bytes)

namespace Spool.World

def payload (s : World) (id : Nat) : Option Bytes := (s.pushes.lookup id).map (·.payload)

theorem payload_frame {s s' : World} {e : Event} {id : Nat} (h : s.step e = some s') (other : e.pushId ≠ some id) :
    s'.payload id = s.payload id := by
  rw [payload, payload, pushes_frame h other]

theorem payload_io {s s' : World} {e : Event} {id : Nat} (h : s.step e = some s') (io : e.isIo = true) :
    s'.payload id = s.payload id := by
  cases step_books h with
  | quiet quiet =>
    have same := congrArg (Option.map (·.2)) (quiet.pushes id)
    simp only [Option.map_map, Function.comp_def] at same
    exact same
  | reserve | publish | release | select | settle => cases io

theorem payload_reserve {s s' : World} {id : Nat} {output : Bytes} {r : Nat × State} (h : s.step (.push id output) = some s')
    (ok : s.state.reserve s.maxBytes output.length = .ok r) : s'.payload id = some output := by
  cases step_cases h with
  | reserve => rw [payload, reserved, AList.lookup_insert]; rfl
  | refuse fresh failed => rw [ok] at failed; cases failed

theorem acked_publish {s s' : World} {id : Nat} {output : Bytes} (h : s.step (.publish id) = some s')
    (mine : s.payload id = some output) : ∃ seq, (seq, output) ∈ s'.acked := by
  cases step_cases h with
  | @publish _ p here =>
    rw [payload, here] at mine
    cases mine
    exact ⟨p.seq, List.mem_append_right _ (List.mem_singleton_self _)⟩

end Spool.World

/-- The worker has the request before it, unprocessed. -/
def Worker.before (i : Nat) : Worker → Nat
  | .got job => if job.request = i then 1 else 0
  | _ => 0

/-- The worker has no verdict for the request yet. -/
def Worker.unfinished (i : Nat) : Worker → Nat
  | .got job | .forwarding job _ | .down job _ | .spooling job _ => if job.request = i then 1 else 0
  | .idle | .finished .. | .dead => 0

namespace Service

def raw (s : Service) (i : Nat) : Option Bytes := (s.requests.lookup i).map (·.raw)

def acked (s : Service) : List (Nat × Bytes) := (s.spool.map (·.acked)).getD []

def Safe (s : Service) (i : Nat) (output : Bytes) : Prop := (i, output) ∈ s.forwarded ∨ ∃ seq, (seq, output) ∈ s.acked

/-- Running the pipeline on the request's bytes gave the output. -/
def Governs (app : AppState) (s : Service) (i : Nat) (output : Bytes) : Prop :=
  ∃ raw pipeline breaker now fault processed after, s.raw i = some raw ∧
    Pipeline.process app.crates pipeline breaker now fault raw = .ok (processed, after) ∧
    processed.stats.parseBypassed = false ∧ processed.output.contiguous = output

/-- What a worker knows of the job it has. -/
def Working (s : Service) (w : Nat) : Worker → Prop
  | .idle | .dead => True
  | .got job => s.raw job.request = some job.raw
  | .forwarding job output | .down job output =>
    s.raw job.request = some job.raw ∧ (job.request, output) ∈ s.governed
  | .spooling job output =>
    s.raw job.request = some job.raw ∧ (job.request, output) ∈ s.governed ∧
      ∃ world ∈ s.spool, world.payload w = some output
  | .finished job v => s.raw job.request = some job.raw ∧ (job.request, job.raw, v) ∈ s.verdicts

def Grounded (app : AppState) (s : Service) (i : Nat) : Prop :=
  ∃ output, (i, output) ∈ s.governed ∧ (app.forwardEndpoint ≠ none → s.Safe i output)

structure Sound (app : AppState) (s : Service) : Prop where
  spool : ∀ world ∈ s.spool, (∃ limit, world.Accounted limit) ∧ world.Held
  queued : ∀ job ∈ s.queue, s.raw job.request = some job.raw
  working : ∀ w k, s.workers.lookup w = some k → s.Working w k
  governed : ∀ x ∈ s.governed, s.Governs app x.1 x.2
  computed : ∀ x ∈ s.verdicts, s.raw x.1 = some x.2.1
  accepted : ∀ x ∈ s.verdicts, x.2.2 = .accepted → s.Grounded app x.1
  replies : ∀ i r, s.requests.lookup i = some r → ∀ v, r.reply = .sent v → (i, r.raw, v) ∈ s.verdicts
  answers : ∀ i r, s.requests.lookup i = some r → ∀ v, r.answer = .returned v →
    (i, r.raw, v) ∈ s.verdicts ∨ v = .forwardFailed

structure Grows (s s' : Service) : Prop where
  raw : ∀ i bytes, s.raw i = some bytes → s'.raw i = some bytes
  governed : ∀ x ∈ s.governed, x ∈ s'.governed
  forwarded : ∀ x ∈ s.forwarded, x ∈ s'.forwarded
  acked : ∀ x ∈ s.acked, x ∈ s'.acked
  verdicts : ∀ x ∈ s.verdicts, x ∈ s'.verdicts

section Growing
variable {app : AppState} {s s' : Service} {i w : Nat} {output : Bytes} {k : Worker}

theorem Safe.grows (grows : Grows s s') (safe : s.Safe i output) : s'.Safe i output :=
  safe.imp (grows.forwarded _) fun ⟨seq, member⟩ => ⟨seq, grows.acked _ member⟩

theorem Governs.grows (grows : Grows s s') (governs : s.Governs app i output) : s'.Governs app i output := by
  obtain ⟨raw, pipeline, breaker, now, fault, processed, after, asked, rest⟩ := governs
  exact ⟨raw, pipeline, breaker, now, fault, processed, after, grows.raw _ _ asked, rest⟩

theorem Grounded.grows (grows : Grows s s') (grounded : s.Grounded app i) : s'.Grounded app i := by
  obtain ⟨output, member, safe⟩ := grounded
  exact ⟨output, grows.governed _ member, fun forwards => (safe forwards).grows grows⟩

theorem Working.grows (grows : Grows s s') (spooled : ∀ world ∈ s.spool, ∀ output, world.payload w = some output →
    ∃ world' ∈ s'.spool, world'.payload w = some output) (working : s.Working w k) : s'.Working w k := by
  cases k with
  | idle | dead => trivial
  | got job => exact grows.raw _ _ working
  | forwarding job output | down job output => exact ⟨grows.raw _ _ working.1, grows.governed _ working.2⟩
  | spooling job output =>
    obtain ⟨asked, member, world, here, mine⟩ := working
    exact ⟨grows.raw _ _ asked, grows.governed _ member, spooled world here output mine⟩
  | finished job v => exact ⟨grows.raw _ _ working.1, grows.verdicts _ working.2⟩

end Growing

section Sound
variable {app : AppState} {s : Service} {i w : Nat} {job : Job} {output : Bytes} {v : Verdict}
variable {world after : Spool.World} {e : Spool.Event}

theorem Sound.setWorker {k : Worker} (sound : s.Sound app) (mine : s.Working w k) : (s.setWorker w k).Sound app where
  spool := sound.spool
  queued := sound.queued
  working w' k' found := by
    rcases Table.lookup_of_insert found with ⟨rfl, rfl⟩ | ⟨-, found⟩
    · exact mine
    · exact sound.working w' k' found
  governed := sound.governed
  computed := sound.computed
  accepted := sound.accepted
  replies := sound.replies
  answers := sound.answers

theorem grows_setRequest {r : Request} (same : ∀ bytes, s.raw i = some bytes → r.raw = bytes) :
    Grows s (s.setRequest i r) where
  raw j bytes asked := by
    rw [raw, setRequest]
    by_cases here : j = i
    · rw [here] at asked ⊢
      rw [AList.lookup_insert, Option.map_some, same bytes asked]
    · rw [AList.lookup_insert_ne here]
      exact asked
  governed _ member := member
  forwarded _ member := member
  acked _ member := member
  verdicts _ member := member

/-- A request's own channel changes, and only as a verdict of its own allows. -/
theorem Sound.setRequest {r : Request} (sound : s.Sound app) (same : ∀ bytes, s.raw i = some bytes → r.raw = bytes)
    (reply : ∀ v, r.reply = .sent v → (i, r.raw, v) ∈ s.verdicts)
    (answer : ∀ v, r.answer = .returned v → (i, r.raw, v) ∈ s.verdicts ∨ v = .forwardFailed) :
    (s.setRequest i r).Sound app := by
  have grows := grows_setRequest same
  refine ⟨sound.spool, fun job member => grows.raw _ _ (sound.queued job member), fun w k found => ?_,
    fun x member => (sound.governed x member).grows grows, fun x member => grows.raw _ _ (sound.computed x member),
    fun x member ok => (sound.accepted x member ok).grows grows, fun j r' found v sent => ?_, fun j r' found v returned => ?_⟩
  · exact (sound.working w k found).grows grows fun world here output mine => ⟨world, here, mine⟩
  · rcases Table.lookup_of_insert found with ⟨rfl, rfl⟩ | ⟨-, found⟩
    · exact reply v sent
    · exact sound.replies j r' found v sent
  · rcases Table.lookup_of_insert found with ⟨rfl, rfl⟩ | ⟨-, found⟩
    · exact answer v returned
    · exact sound.answers j r' found v returned

theorem raw_of_lookup {r : Request} (asked : s.requests.lookup i = some r) : s.raw i = some r.raw := by
  rw [raw, asked, Option.map_some]

theorem raw_same {r : Request} (asked : s.requests.lookup i = some r) : ∀ bytes, s.raw i = some bytes → r.raw = bytes :=
  fun _ found => Option.some.inj ((raw_of_lookup asked).symm.trans found)

theorem Sound.updateRequest {r r' : Request} (sound : s.Sound app) (asked : s.requests.lookup i = some r)
    (same : r'.raw = r.raw) (reply : ∀ v, r'.reply = .sent v → r.reply = .sent v ∨ (i, r.raw, v) ∈ s.verdicts)
    (answer : ∀ v, r'.answer = .returned v →
      r.answer = .returned v ∨ (i, r.raw, v) ∈ s.verdicts ∨ v = .forwardFailed) : (s.setRequest i r').Sound app := by
  refine sound.setRequest (fun bytes found => same.trans (raw_same asked bytes found)) (fun v sent => ?_)
    fun v returned => ?_
  · rw [same]
    exact (reply v sent).elim (sound.replies i r asked v) id
  · rw [same]
    exact (answer v returned).elim (sound.answers i r asked v) id

theorem raw_fresh {r : Request} (fresh : s.requests.lookup i = none) : ∀ bytes, s.raw i = some bytes → r.raw = bytes := by
  intro bytes found
  rw [raw, fresh] at found
  cases found

theorem Sound.finish (sound : s.Sound app) (asked : s.raw job.request = some job.raw)
    (grounded : v = .accepted → s.Grounded app job.request) : (s.finish w job v).Sound app := by
  have grows : Grows s (s.finish w job v) :=
    ⟨fun _ _ h => h, fun _ h => h, fun _ h => h, fun _ h => h, fun _ h => List.mem_append_left _ h⟩
  have members : ∀ x ∈ (s.finish w job v).verdicts, x ∈ s.verdicts ∨ x = (job.request, job.raw, v) := fun x member =>
    (List.mem_append.mp member).imp_right List.mem_singleton.mp
  refine ⟨sound.spool, sound.queued, fun w' k found => ?_, sound.governed, fun x member => ?_, fun x member ok => ?_,
    fun i r found v sent => grows.verdicts _ (sound.replies i r found v sent),
    fun i r found v returned => (sound.answers i r found v returned).imp_left (grows.verdicts _)⟩
  · rcases Table.lookup_of_insert found with ⟨rfl, rfl⟩ | ⟨-, found⟩
    · exact ⟨asked, List.mem_append_right _ (List.mem_singleton_self _)⟩
    · exact (sound.working w' k found).grows grows fun world here output mine => ⟨world, here, mine⟩
  · rcases members x member with old | rfl
    · exact sound.computed x old
    · exact asked
  · rcases members x member with old | rfl
    · exact (sound.accepted x old ok).grows grows
    · exact (grounded ok).grows grows

theorem Sound.governs (sound : s.Sound app) (governs : s.Governs app job.request output) :
    (s.governs job output).Sound app := by
  have grows : Grows s (s.governs job output) :=
    ⟨fun _ _ h => h, fun _ h => List.mem_append_left _ h, fun _ h => h, fun _ h => h, fun _ h => h⟩
  refine ⟨sound.spool, sound.queued, fun w k found => ?_, fun x member => ?_, sound.computed,
    fun x member ok => (sound.accepted x member ok).grows grows, sound.replies, sound.answers⟩
  · exact (sound.working w k found).grows grows fun world here output mine => ⟨world, here, mine⟩
  · rcases List.mem_append.mp member with old | new
    · exact (sound.governed x old).grows grows
    · rw [List.mem_singleton.mp new]
      exact governs.grows grows

theorem Sound.forwarded (sound : s.Sound app) (x : Nat × Bytes) : { s with forwarded := s.forwarded ++ [x] }.Sound app := by
  have grows : Grows s { s with forwarded := s.forwarded ++ [x] } :=
    ⟨fun _ _ h => h, fun _ h => h, fun _ h => List.mem_append_left _ h, fun _ h => h, fun _ h => h⟩
  refine ⟨sound.spool, sound.queued, fun w k found => ?_, sound.governed, sound.computed,
    fun x member ok => (sound.accepted x member ok).grows grows, sound.replies, sound.answers⟩
  exact (sound.working w k found).grows grows fun world here output mine => ⟨world, here, mine⟩

theorem Sound.kill (sound : s.Sound app) (w : Nat) (job : Option Job) : (s.kill w job).Sound app := by
  have dead := sound.setWorker (w := w) (k := .dead) trivial
  rw [Service.kill]
  split
  · rename_i i r found
    obtain ⟨job, -, here⟩ := Option.bind_eq_some_iff.mp found
    obtain ⟨r', asked, same⟩ := Option.map_eq_some_iff.mp here
    cases same
    refine dead.updateRequest asked rfl (fun v sent => ?_) fun _ returned => .inl returned
    simp only at sent
    split at sent
    · cases sent
    · exact .inl sent
  · exact dead

theorem grows_spool (spool : s.spool = some world) (one : world.step e = some after) (workers : Table Nat Worker) :
    Grows s { s with spool := some after, workers } := by
  refine ⟨fun _ _ h => h, fun _ h => h, fun _ h => h, fun x member => ?_, fun _ h => h⟩
  rw [acked, spool] at member
  exact Spool.World.acked_mono one x member

theorem Working.spool {k : Worker} (working : s.Working w k) (spool : s.spool = some world)
    (one : world.step e = some after) (same : after.payload w = world.payload w) (workers : Table Nat Worker) :
    Working { s with spool := some after, workers } w k := by
  refine working.grows (grows_spool spool one workers) fun world' here output mine => ?_
  cases spool.symm.trans here
  exact ⟨after, rfl, same.trans mine⟩

theorem Sound.withSpool (sound : s.Sound app) (spool : s.spool = some world) (one : world.step e = some after)
    {workers : Table Nat Worker}
    (working : ∀ w k, workers.lookup w = some k → Working { s with spool := some after, workers } w k) :
    Sound app { s with spool := some after, workers } := by
  have grows := grows_spool spool one workers
  refine ⟨fun world' here => ?_, sound.queued, working, fun x member => (sound.governed x member).grows grows,
    sound.computed, fun x member ok => (sound.accepted x member ok).grows grows, sound.replies, sound.answers⟩
  obtain ⟨⟨limit, books⟩, held⟩ := sound.spool world spool
  cases here
  exact ⟨⟨limit, Spool.World.step_accounted one books⟩, Spool.World.step_held one books held⟩

theorem Sound.spoolStep (sound : s.Sound app) (spool : s.spool = some world) (one : world.step e = some after)
    (quiet : ∀ w, after.payload w = world.payload w) : Sound app { s with spool := some after } :=
  sound.withSpool spool one fun w k found => (sound.working w k found).spool spool one (quiet w) _

/-- A step of the worker's own push, after which the worker goes on to something else. -/
theorem Sound.pushStep (sound : s.Sound app) (spool : s.spool = some world) (one : world.step e = some after)
    (own : e.pushId = some w) : Sound app ({ s with spool := some after }.setWorker w .dead) := by
  refine sound.withSpool spool one fun w' k found => ?_
  rcases Table.lookup_of_insert found with ⟨rfl, rfl⟩ | ⟨other, found⟩
  · trivial
  · have apart : e.pushId ≠ some w' := by
      rw [own]
      exact fun same => other (Option.some.inj same).symm
    exact (sound.working w' k found).spool spool one (Spool.World.payload_frame one apart) _

theorem setWorker_setWorker (s : Service) (w : Nat) (k k' : Worker) :
    (s.setWorker w k).setWorker w k' = s.setWorker w k' := by
  rw [Service.setWorker, Service.setWorker, Service.setWorker, AList.insert_insert]

theorem finish_setWorker (s : Service) (w : Nat) (k : Worker) (job : Job) (v : Verdict) :
    (s.setWorker w k).finish w job v = s.finish w job v := by
  rw [finish, finish, setWorker_setWorker]
  rfl

theorem kill_setWorker (s : Service) (w : Nat) (k : Worker) (job : Option Job) :
    (s.setWorker w k).kill w job = s.kill w job := by
  rw [kill, kill, setWorker_setWorker]
  rfl

end Sound

theorem step_sound {app : AppState} {s s' : Service} {e : ServiceEvent} (h : s.step app e = some s') (sound : s.Sound app) :
    s'.Sound app := by
  cases step_cases h with
  | @submit i raw fresh =>
    have asked := sound.setRequest (r := ⟨raw, .waiting, .pending⟩) (raw_fresh fresh) (fun _ sent => nomatch sent)
      fun _ returned => nomatch returned
    refine { asked with queued := fun job member => ?_ }
    rcases List.mem_append.mp member with old | new
    · exact asked.queued job old
    · rw [List.mem_singleton.mp new]
      rw [enqueue, Service.raw, setRequest, AList.lookup_insert, Option.map_some]
  | closed fresh =>
    refine sound.setRequest (raw_fresh fresh) (fun _ sent => nomatch sent) fun _ returned => ?_
    cases returned
    exact .inr rfl
  | @recv w job rest here head =>
    have asked := sound.queued job (by rw [head]; exact List.mem_cons_self)
    refine { sound.setWorker (w := w) (k := .got job) asked with queued := fun job' member => ?_ }
    exact sound.queued job' (by rw [head]; exact List.mem_cons_of_mem _ member)
  | panic | die => exact sound.kill _ _
  | @malformed w _ _ _ _ job _ _ here =>
    exact sound.finish (sound.working w _ here) nofun
  | @validated w pipeline breaker now fault job processed after here ran parsed unforwarded =>
    have asked := sound.working w _ here
    have governed := sound.governs ⟨_, _, _, _, _, _, _, asked, ran, parsed, rfl⟩
    refine governed.finish asked fun _ => ⟨_, List.mem_append_right _ (List.mem_singleton_self _), fun forwards => ?_⟩
    exact absurd unforwarded forwards
  | @governed w pipeline breaker now fault job processed after here ran parsed =>
    have asked := sound.working w _ here
    have governed := sound.governs ⟨_, _, _, _, _, _, _, asked, ran, parsed, rfl⟩
    exact governed.setWorker ⟨asked, List.mem_append_right _ (List.mem_singleton_self _)⟩
  | @forward w job output here =>
    obtain ⟨asked, member⟩ := sound.working w _ here
    refine (sound.forwarded (job.request, output)).finish asked fun _ => ⟨output, member, fun _ => .inl ?_⟩
    exact List.mem_append_right _ (List.mem_singleton_self _)
  | @down w job output here =>
    have mine : s.Working w (.forwarding job output) := sound.working w _ here
    exact sound.setWorker (k := .down job output) mine
  | @unspooled w job output here => exact sound.finish (sound.working w _ here).1 nofun
  | @reserve w job output world after r here spool one ok =>
    obtain ⟨asked, member⟩ := sound.working w _ here
    have started := (sound.pushStep spool one rfl).setWorker (w := w) (k := .spooling job output)
      ⟨asked, member, after, rfl, Spool.World.payload_reserve one ok⟩
    rwa [setWorker_setWorker] at started
  | @full w job output world after here spool one =>
    have failed := (sound.pushStep spool one rfl).finish (w := w) (v := .forwardFailed) (sound.working w _ here).1 nofun
    rwa [finish_setWorker] at failed
  | @overflow w job output world after here spool one =>
    have killed := (sound.pushStep spool one rfl).kill w (some job)
    rwa [kill_setWorker] at killed
  | io spool isIo one => exact sound.spoolStep spool one fun w => Spool.World.payload_io one isIo
  | @publish w job output world after here spool one =>
    obtain ⟨asked, member, world', there, mine⟩ := sound.working w _ here
    cases spool.symm.trans there
    have pushed := (sound.pushStep spool one rfl).finish (w := w) (v := .accepted) asked fun _ =>
      ⟨output, member, fun _ => .inr (Spool.World.acked_publish one mine)⟩
    rwa [finish_setWorker] at pushed
  | @release w job output world after here spool one =>
    have failed := (sound.pushStep spool one rfl).finish (w := w) (v := .forwardFailed) (sound.working w _ here).1 nofun
    rwa [finish_setWorker] at failed
  | drain spool drains one =>
    refine sound.spoolStep spool one fun w => Spool.World.payload_frame one ?_
    rw [drains]
    exact nofun
  | @respond w job v r here asked =>
    have computed := (sound.working w _ here).2
    rw [← raw_same asked _ (sound.working w _ here).1] at computed
    have told : (s.setRequest job.request { r with reply := .sent v }).Sound app := by
      refine sound.updateRequest asked rfl (fun v' sent => ?_) fun _ returned => .inl returned
      cases sent
      exact .inr computed
    exact told.setWorker trivial
  | unheard => exact sound.setWorker trivial
  | @answer i r v asked reply =>
    refine sound.updateRequest asked rfl (fun _ sent => .inl sent) fun v' returned => ?_
    cases returned
    exact .inr (.inl (sound.replies i r asked v reply))
  | dropped asked =>
    refine sound.updateRequest asked rfl (fun _ sent => .inl sent) fun v' returned => ?_
    cases returned
    exact .inr (.inr rfl)
  | hangUp asked => exact sound.updateRequest asked rfl (fun _ sent => .inl sent) nofun

/-! ### A request is processed at most once -/

def governedOf (s : Service) : List Nat := s.governed.map (·.1)

def judged (s : Service) : List Nat := s.verdicts.map (·.1)

/-- Where a request's job is, and what was made of it. -/
def copies (weight : Nat → Worker → Nat) (made : Service → List Nat) (s : Service) (i : Nat) : Nat :=
  s.queue.countP (·.request = i) + s.workers.total (fun _ => weight i) + (made s).count i

structure Single (weight : Nat → Worker → Nat) (made : Service → List Nat) (s : Service) : Prop where
  once : ∀ i, copies weight made s i ≤ 1
  fresh : ∀ i, s.requests.lookup i = none → copies weight made s i = 0

section Single
variable {weight : Nat → Worker → Nat} {made : Service → List Nat}
variable {s s' : Service} {i w : Nat} {k k' : Worker} {job : Job}

theorem Single.fewer (single : Single weight made s) (le : ∀ i, copies weight made s' i ≤ copies weight made s i)
    (requests : ∀ i, s'.requests.lookup i = none → s.requests.lookup i = none) : Single weight made s' where
  once i := Nat.le_trans (le i) (single.once i)
  fresh i unasked := Nat.le_zero.mp (single.fresh i (requests i unasked) ▸ le i)

/-- The worker goes on, and what it makes it no longer has to make. -/
theorem Single.setWorker (single : Single weight made s) (here : s.workers.lookup w = some k)
    (workers : s'.workers = s.workers.insert w k') (queue : s'.queue = s.queue) (requests : s'.requests = s.requests)
    (spends : ∀ i, weight i k' + (made s').count i ≤ weight i k + (made s).count i) : Single weight made s' := by
  refine single.fewer (fun i => ?_) fun i unasked => requests ▸ unasked
  have moved := Table.total_replace (w := fun _ => weight i) (u := k') here
  have := spends i
  simp only [copies, workers, queue]
  omega

theorem unasked_of_setRequest {r : Request} {j : Nat} (unasked : (s.setRequest i r).requests.lookup j = none) :
    j ≠ i ∧ s.requests.lookup j = none := by
  by_cases same : j = i
  · rw [same, Service.setRequest, AList.lookup_insert] at unasked
    cases unasked
  · exact ⟨same, by rwa [Service.setRequest, AList.lookup_insert_ne same] at unasked⟩

theorem Single.setRequest {r : Request} (single : Single weight made s) (kept : made (s.setRequest i r) = made s) :
    Single weight made (s.setRequest i r) := by
  refine single.fewer (fun j => ?_) fun j unasked => (unasked_of_setRequest unasked).2
  rw [copies, kept]
  exact Nat.le_refl _

theorem Single.enqueue {raw : Bytes} (single : Single weight made s) (fresh : s.requests.lookup i = none)
    (kept : made (s.enqueue i raw) = made s) : Single weight made (s.enqueue i raw) := by
  have counted : ∀ j, copies weight made (s.enqueue i raw) j = copies weight made s j + if i = j then 1 else 0 := by
    intro j
    rw [copies, kept, copies]
    simp only [Service.enqueue, Service.setRequest, List.countP_append, List.countP_singleton, decide_eq_true_eq]
    omega
  refine ⟨fun j => ?_, fun j unasked => ?_⟩
  · have once := single.once j
    have none := single.fresh i fresh
    rw [counted]
    split
    · rename_i same
      rw [← same, none]
    · exact once
  · obtain ⟨other, unasked⟩ := unasked_of_setRequest unasked
    rw [counted, if_neg (Ne.symm other), single.fresh j unasked]

theorem Single.take {rest : List Job} (single : Single weight made s) (here : s.workers.lookup w = some .idle)
    (head : s.queue = job :: rest) (kept : made (s.take w job rest) = made s)
    (got : ∀ i, weight i (.got job) = if job.request = i then 1 else 0) : Single weight made (s.take w job rest) := by
  refine single.fewer (fun i => ?_) fun _ unasked => unasked
  have moved := Table.total_replace (w := fun _ => weight i) (u := .got job) here
  rw [got i] at moved
  rw [copies, kept, copies]
  simp only [Service.take, Service.setWorker, head, List.countP_cons, decide_eq_true_eq]
  omega

theorem Single.kill (single : Single weight made s) (here : s.workers.lookup w = some k) (job : Option Job)
    (idle : ∀ i, weight i .dead = 0) (kept : ∀ s' : Service, s'.governed = s.governed → s'.verdicts = s.verdicts → made s' = made s) :
    Single weight made (s.kill w job) := by
  have dead : Single weight made (s.setWorker w .dead) := by
    refine single.setWorker here rfl rfl rfl fun i => ?_
    rw [idle i, kept (s.setWorker w .dead) rfl rfl]
    omega
  rw [Service.kill]
  split
  · rename_i i r _
    exact dead.setRequest ((kept ((s.setWorker w .dead).setRequest i _) rfl rfl).trans (kept (s.setWorker w .dead) rfl rfl).symm)
  · exact dead

end Single

/-- A request is governed at most once and gets at most one verdict. -/
structure Once (s : Service) : Prop where
  governed : Single Worker.before governedOf s
  judged : Single Worker.unfinished judged s

section Once
variable {s s' : Service} {i w : Nat} {k k' : Worker} {job : Job}

/-- The worker's job stays where it is in its course, or nothing is left of it. -/
theorem Once.setWorker (once : Once s) (here : s.workers.lookup w = some k) (workers : s'.workers = s.workers.insert w k')
    (queue : s'.queue = s.queue) (requests : s'.requests = s.requests) (governed : s'.governed = s.governed)
    (verdicts : s'.verdicts = s.verdicts) (before : ∀ i, Worker.before i k' = 0)
    (unfinished : ∀ i, Worker.unfinished i k' ≤ Worker.unfinished i k) : Once s' where
  governed := once.governed.setWorker here workers queue requests fun i => by
    rw [before, governedOf, governedOf, governed]
    omega
  judged := once.judged.setWorker here workers queue requests fun i => by
    rw [Service.judged, Service.judged, verdicts]
    exact Nat.add_le_add_right (unfinished i) _

theorem Once.finish {v : Verdict} (once : Once s) (here : s.workers.lookup w = some k) (workers : s'.workers = s.workers)
    (queue : s'.queue = s.queue) (requests : s'.requests = s.requests) (verdicts : s'.verdicts = s.verdicts)
    (governed : ∀ i, (governedOf s').count i ≤ Worker.before i k + (governedOf s).count i)
    (unfinished : ∀ i, Worker.unfinished i k = if job.request = i then 1 else 0) : Once (s'.finish w job v) := by
  have moved : (s'.finish w job v).workers = s.workers.insert w (.finished job v) := by rw [← workers]; rfl
  refine ⟨once.governed.setWorker here moved queue requests fun i => ?_,
    once.judged.setWorker here moved queue requests fun i => ?_⟩
  · have least := governed i
    exact (Nat.zero_add _).le.trans least
  · have counted : (Service.judged (s'.finish w job v)).count i = (Service.judged s).count i + if job.request = i then 1 else 0 := by
      rw [Service.judged, Service.judged, Service.finish, ← verdicts, List.map_append, List.count_append, List.map_singleton,
        List.count_singleton]
      simp only [beq_iff_eq]
    rw [counted, unfinished i]
    have none : Worker.unfinished i (.finished job v) = 0 := rfl
    omega

theorem Once.setRequest {r : Request} (once : Once s) : Once (s.setRequest i r) :=
  ⟨once.governed.setRequest rfl, once.judged.setRequest rfl⟩

theorem Once.kill (once : Once s) (here : s.workers.lookup w = some k) (job : Option Job) : Once (s.kill w job) where
  governed := once.governed.kill here job (fun _ => rfl) fun s' governed _ => by rw [governedOf, governed]; rfl
  judged := once.judged.kill here job (fun _ => rfl) fun s' _ verdicts => by rw [Service.judged, verdicts]; rfl

theorem Once.spool (once : Once s) (world : Spool.World) : Once { s with spool := some world } :=
  ⟨⟨once.governed.once, once.governed.fresh⟩, ⟨once.judged.once, once.judged.fresh⟩⟩

theorem count_governs (s : Service) (job : Job) (output : Bytes) (i : Nat) :
    (governedOf (s.governs job output)).count i = (governedOf s).count i + if job.request = i then 1 else 0 := by
  rw [governedOf, governedOf, Service.governs, List.map_append, List.count_append, List.map_singleton, List.count_singleton]
  simp only [beq_iff_eq]

end Once

theorem step_once {app : AppState} {s s' : Service} {e : ServiceEvent} (h : s.step app e = some s') (once : Once s) :
    Once s' := by
  cases step_cases h with
  | submit fresh => exact ⟨once.governed.enqueue fresh rfl, once.judged.enqueue fresh rfl⟩
  | closed | answer | dropped | hangUp => exact once.setRequest
  | recv here head => exact ⟨once.governed.take here head rfl fun _ => rfl, once.judged.take here head rfl fun _ => rfl⟩
  | panic here | die here => exact once.kill here _
  | malformed here | forward here | unspooled here | full here | publish here | release here =>
    exact once.finish here rfl rfl rfl rfl (fun _ => Nat.le_add_left _ _) fun _ => rfl
  | @validated w _ _ _ _ job processed _ here =>
    refine once.finish here rfl rfl rfl rfl (fun i => ?_) fun _ => rfl
    rw [count_governs, Nat.add_comm]
    exact Nat.le_refl _
  | @governed w _ _ _ _ job processed _ here =>
    refine ⟨once.governed.setWorker here rfl rfl rfl fun i => ?_, once.judged.setWorker here rfl rfl rfl fun _ => Nat.le_refl _⟩
    have counted := count_governs s job processed.output.contiguous i
    have got : Worker.before i (.got job) = if job.request = i then 1 else 0 := rfl
    rw [got, Nat.add_comm (ite _ _ _), ← counted]
    exact (Nat.zero_add _).le
  | down here | reserve here =>
    exact once.setWorker here rfl rfl rfl rfl rfl (fun _ => rfl) fun _ => Nat.le_refl _
  | unheard here => exact once.setWorker here rfl rfl rfl rfl rfl (fun _ => rfl) fun _ => Nat.le_refl _
  | @overflow w job _ _ after here => exact (once.spool after).kill here _
  | io | drain => exact once.spool _
  | @respond w job v r here =>
    have told : Once (s.setRequest job.request { r with reply := .sent v }) := once.setRequest
    exact told.setWorker here rfl rfl rfl rfl rfl (fun _ => rfl) fun _ => Nat.le_refl _

theorem eq_of_count {β : Type} {l : List (Nat × β)} {i : Nat} {a b : β} (once : (l.map (·.1)).count i ≤ 1) (ha : (i, a) ∈ l)
    (hb : (i, b) ∈ l) : a = b := by
  rw [List.count, List.countP_map, List.countP_eq_length_filter] at once
  have first := List.mem_filter.mpr ⟨ha, show ((· == i) ∘ Prod.fst) (i, a) = true from beq_self_eq_true i⟩
  have second := List.mem_filter.mpr ⟨hb, show ((· == i) ∘ Prod.fst) (i, b) = true from beq_self_eq_true i⟩
  obtain ⟨x, only⟩ := List.length_eq_one_iff.mp (Nat.le_antisymm once (List.length_pos_of_mem first))
  rw [only, List.mem_singleton] at first second
  exact congrArg Prod.snd (first.trans second.symm)

theorem Once.governed_eq {s : Service} (once : Once s) {i : Nat} {a b : Bytes} (ha : (i, a) ∈ s.governed)
    (hb : (i, b) ∈ s.governed) : a = b :=
  eq_of_count (Nat.le_trans (Nat.le_add_left _ _) (once.governed.once i)) ha hb

theorem Once.verdict_eq {s : Service} (once : Once s) {i : Nat} {a b : Bytes × Verdict} (ha : (i, a) ∈ s.verdicts)
    (hb : (i, b) ∈ s.verdicts) : a = b :=
  eq_of_count (Nat.le_trans (Nat.le_add_left _ _) (once.judged.once i)) ha hb

/-! ### A verdict goes to its request -/

/-- The verdict is with its worker, or has gone to its request, or was lost with its worker. -/
def Reaches (s : Service) (i : Nat) (v : Verdict) : Prop :=
  ∃ r, s.requests.lookup i = some r ∧
    (r.reply = .sent v ∨ r.reply = .dropped ∨ ∃ w job, s.workers.lookup w = some (.finished job v) ∧ job.request = i)

section Reaches
variable {app : AppState} {s s' : Service} {i w : Nat} {k k' : Worker} {v : Verdict}

theorem Reaches.setWorker (reaches : s.Reaches i v) (here : s.workers.lookup w = some k)
    (unfinished : ∀ job v, k ≠ .finished job v) (workers : s'.workers = s.workers.insert w k')
    (requests : s'.requests = s.requests) : s'.Reaches i v := by
  obtain ⟨r, asked, sent | dropped | ⟨w', job, held, mine⟩⟩ := reaches
  · exact ⟨r, requests ▸ asked, .inl sent⟩
  · exact ⟨r, requests ▸ asked, .inr (.inl dropped)⟩
  · refine ⟨r, requests ▸ asked, .inr (.inr ⟨w', job, ?_, mine⟩)⟩
    have other : w' ≠ w := by
      rintro rfl
      exact unfinished job v (Option.some.inj (here.symm.trans held))
    rw [workers, AList.lookup_insert_ne other]
    exact held

theorem Reaches.setRequest {j : Nat} {r' : Request} (reaches : s.Reaches i v)
    (keeps : ∀ r, s.requests.lookup j = some r → j = i → r'.reply = r.reply ∨ r'.reply = .sent v ∨ r'.reply = .dropped) :
    (s.setRequest j r').Reaches i v := by
  obtain ⟨r, asked, told⟩ := reaches
  by_cases same : j = i
  · refine ⟨r', by rw [same]; exact AList.lookup_insert _, ?_⟩
    rcases keeps r (same ▸ asked) same with kept | sent | dropped
    · rw [kept]
      exact told
    · exact .inl sent
    · exact .inr (.inl dropped)
  · exact ⟨r, (AList.lookup_insert_ne (Ne.symm same)).trans asked, told⟩

theorem kill_workers (s : Service) (w : Nat) (job : Option Job) : (s.kill w job).workers = s.workers.insert w .dead := by
  rw [kill]
  split <;> rfl

theorem kill_verdicts (s : Service) (w : Nat) (job : Option Job) : (s.kill w job).verdicts = s.verdicts := by
  rw [kill]
  split <;> rfl

/-- The channel that goes with a worker. -/
def closes (r : Request) : Request := { r with reply := if r.reply = .waiting then .dropped else r.reply }

theorem kill_requests (s : Service) (w : Nat) (job : Option Job) (i : Nat) : (s.kill w job).requests.lookup i =
    if job.map (·.request) = some i then (s.requests.lookup i).map closes else s.requests.lookup i := by
  cases job with
  | none => rfl
  | some job =>
    cases found : s.requests.lookup job.request with
    | none =>
      have same : (s.kill w (some job)).requests = s.requests := by rw [kill, Option.bind_some, found]; rfl
      rw [same]
      split
      · rename_i mine
        cases mine
        rw [found, Option.map_none]
      · rfl
    | some r =>
      have same : (s.kill w (some job)).requests = s.requests.insert job.request (closes r) := by
        rw [kill, Option.bind_some, found]
        rfl
      rw [same]
      split
      · rename_i mine
        cases mine
        rw [AList.lookup_insert, found, Option.map_some]
      · rename_i other
        exact AList.lookup_insert_ne fun mine => other (by rw [mine]; rfl)

theorem Reaches.kill (reaches : s.Reaches i v) (here : s.workers.lookup w = some k)
    (told : ∀ r v', s.requests.lookup i = some r → r.reply = .sent v' → v' = v) : (s.kill w k.job).Reaches i v := by
  obtain ⟨r, asked, state⟩ := reaches
  rw [Reaches, kill_requests, kill_workers, asked]
  by_cases mine : k.job.map (·.request) = some i
  · refine ⟨closes r, by rw [if_pos mine, Option.map_some], ?_⟩
    cases reply : r.reply with
    | waiting => exact .inr (.inl (by rw [closes, reply, if_pos rfl]))
    | sent v' => exact .inl (by rw [closes, reply, if_neg nofun, told r v' asked reply])
    | dropped => exact .inr (.inl (by rw [closes, reply, if_neg nofun]))
  · refine ⟨r, by rw [if_neg mine], state.imp_right (Or.imp_right fun ⟨w', job, held, same⟩ => ⟨w', job, ?_, same⟩)⟩
    have other : w' ≠ w := by
      rintro rfl
      rw [Option.some.inj (here.symm.trans held)] at mine
      exact mine (congrArg some same)
    exact (AList.lookup_insert_ne other).trans held

theorem reaches_finish {job : Job} (reached : ∀ x ∈ s.verdicts, s.Reaches x.1 x.2.2) (here : s.workers.lookup w = some k)
    (unfinished : ∀ job v, k ≠ .finished job v) (asked : s.raw job.request = some job.raw)
    (workers : s'.workers = s.workers) (requests : s'.requests = s.requests) (verdicts : s'.verdicts = s.verdicts) :
    ∀ x ∈ (s'.finish w job v).verdicts, (s'.finish w job v).Reaches x.1 x.2.2 := by
  have moved : (s'.finish w job v).workers = s.workers.insert w (.finished job v) := by rw [← workers]; rfl
  intro x member
  rw [finish, verdicts] at member
  rcases List.mem_append.mp member with old | new
  · exact (reached x old).setWorker here unfinished moved requests
  · rw [List.mem_singleton.mp new]
    obtain ⟨r, found, -⟩ := Option.map_eq_some_iff.mp asked
    exact ⟨r, requests ▸ found, .inr (.inr ⟨w, job, by rw [moved]; exact AList.lookup_insert _, rfl⟩)⟩

end Reaches

theorem step_reaches {app : AppState} {s s' : Service} {e : ServiceEvent} (h : s.step app e = some s') (sound : s.Sound app)
    (once : Once s) (reached : ∀ x ∈ s.verdicts, s.Reaches x.1 x.2.2) : ∀ x ∈ s'.verdicts, s'.Reaches x.1 x.2.2 := by
  -- what a request has been told is its one verdict
  have told : ∀ x ∈ s.verdicts, ∀ r v', s.requests.lookup x.1 = some r → r.reply = .sent v' → v' = x.2.2 :=
    fun x member r v' asked sent => congrArg Prod.snd (once.verdict_eq (sound.replies x.1 r asked v' sent) member)
  cases step_cases h with
  | submit fresh | closed fresh =>
    intro x member
    refine (reached x member).setRequest fun r asked _ => ?_
    rw [fresh] at asked
    cases asked
  | recv here => exact fun x member => (reached x member).setWorker here nofun rfl rfl
  | panic here =>
    rw [kill_verdicts]
    exact fun x member => (reached x member).kill here (told x member)
  | die here =>
    rw [kill_verdicts]
    exact fun x member => (reached x member).kill here (told x member)
  | @overflow w job _ _ after here =>
    rw [kill_verdicts]
    have spooled : ∀ x ∈ s.verdicts, Reaches { s with spool := some after } x.1 x.2.2 := reached
    exact fun x member => (spooled x member).kill here (told x member)
  | malformed here => exact reaches_finish reached here nofun (sound.working _ _ here) rfl rfl rfl
  | validated here => exact reaches_finish reached here nofun (sound.working _ _ here) rfl rfl rfl
  | forward here | unspooled here | full here | publish here | release here =>
    exact reaches_finish reached here nofun (sound.working _ _ here).1 rfl rfl rfl
  | governed here | down here | reserve here => exact fun x member => (reached x member).setWorker here nofun rfl rfl
  | io | drain => exact reached
  | @respond w job v r here asked =>
    have mine := (sound.working w _ here).2
    intro x member
    obtain ⟨r', found, state⟩ := reached x member
    by_cases same : job.request = x.1
    · have verdict : v = x.2.2 := congrArg Prod.snd (once.verdict_eq (same ▸ mine) member)
      exact ⟨{ r with reply := .sent v }, by rw [← same]; exact AList.lookup_insert _, .inl (congrArg Reply.sent verdict)⟩
    · refine ⟨r', (AList.lookup_insert_ne (Ne.symm same)).trans found,
        state.imp_right (Or.imp_right fun ⟨w', job', held, theirs⟩ => ⟨w', job', ?_, theirs⟩)⟩
      have other : w' ≠ w := by
        rintro rfl
        cases here.symm.trans held
        exact same theirs
      exact (AList.lookup_insert_ne other).trans held
  | @unheard w job v here unasked =>
    obtain ⟨r, asked, -⟩ := Option.map_eq_some_iff.mp (sound.working w _ here).1
    rw [unasked] at asked
    cases asked
  | answer asked | dropped asked | hangUp asked =>
    intro x member
    refine (reached x member).setRequest fun r found _ => .inl ?_
    cases asked.symm.trans found
    rfl

/-! ### Every run -/

/-- A spool as `open` left it, or none. -/
def Opened (spool : Option Spool.World) : Prop :=
  ∀ world ∈ spool, ∃ io files maxBytes sp files', Spool.open io files maxBytes = .ok (sp, files') ∧ world = .start sp files'

def Safekept (s : Service) (i : Nat) (output : Bytes) : Prop :=
  (i, output) ∈ s.forwarded ∨ ∃ world ∈ s.spool, ∃ seq,
    (seq, output) ∈ world.delivered ∨
      (world.state.pending.lookup seq = some output.length ∧ world.files.lookup (Spool.otlpName seq) = some output)

section Runs
variable {app : AppState} {workers : Nat} {spool : Option Spool.World} {es : List ServiceEvent} {s : Service}

theorem spawnPool_workers {w : Nat} {k : Worker} (found : (spawnPool workers spool).workers.lookup w = some k) : k = .idle := by
  rw [spawnPool, AList.lookup_to_alist] at found
  obtain ⟨v, -, same⟩ := List.mem_map.mp (List.of_mem_dlookup found)
  cases same
  rfl

theorem spawnPool_sound (opened : Opened spool) : (spawnPool workers spool).Sound app where
  spool world here := by
    obtain ⟨io, files, maxBytes, sp, files', ok, rfl⟩ := opened world here
    exact ⟨⟨_, Spool.World.start_accounted ok⟩, Spool.World.start_held sp files'⟩
  queued _ member := nomatch member
  working w k found := by
    rw [spawnPool_workers found]
    trivial
  governed _ member := nomatch member
  computed _ member := nomatch member
  accepted _ member := nomatch member
  replies _ _ found := nomatch found
  answers _ _ found := nomatch found

theorem spawnPool_once : Once (spawnPool workers spool) := by
  have none : ∀ (weight : Nat → Worker → Nat) (made : Service → List Nat), made (spawnPool workers spool) = [] →
      (∀ i, weight i .idle = 0) → Single weight made (spawnPool workers spool) := by
    intro weight made nothing idle
    have zero : ∀ i, copies weight made (spawnPool workers spool) i = 0 := by
      intro i
      rw [copies, nothing, Table.total_eq_zero fun w k found => by rw [spawnPool_workers found, idle]]
      rfl
    exact ⟨fun i => (zero i).le.trans (Nat.zero_le 1), fun i _ => zero i⟩
  exact ⟨none _ _ rfl fun _ => rfl, none _ _ rfl fun _ => rfl⟩

structure Serves (app : AppState) (s : Service) : Prop where
  sound : s.Sound app
  once : Once s
  reached : ∀ x ∈ s.verdicts, s.Reaches x.1 x.2.2

theorem run_serves (opened : Opened spool) (ran : (spawnPool workers spool).run app es = some s) : s.Serves app :=
  Transition.run_invariant (Serves app) ran
    (fun _ _ _ _ one serves => ⟨step_sound one serves.sound, step_once one serves.once,
      step_reaches one serves.sound serves.once serves.reached⟩)
    ⟨spawnPool_sound opened, spawnPool_once, nofun⟩

theorem Sound.safekept (sound : s.Sound app) {i : Nat} {output : Bytes} (safe : s.Safe i output) : s.Safekept i output := by
  rcases safe with forwarded | ⟨seq, member⟩
  · exact .inl forwarded
  · cases spool : s.spool with
    | none =>
      rw [acked, spool] at member
      cases member
    | some world =>
      rw [acked, spool] at member
      exact .inr ⟨world, spool, seq, (sound.spool world spool).2.kept _ member⟩

/-- What a reachable state owes its requests. -/
structure Owed (app : AppState) (s : Service) : Prop where
  accepted : ∀ i r, s.requests.lookup i = some r → r.answer = .returned .accepted →
    ∃ output, (∀ other, (i, other) ∈ s.governed ↔ other = output) ∧ s.Governs app i output ∧ s.Safekept i output
  returned : ∀ i r, s.requests.lookup i = some r → ∀ v, r.answer = .returned v → (i, r.raw, v) ∈ s.verdicts ∨ v = .forwardFailed
  single : ∀ i x y, (i, x) ∈ s.verdicts → (i, y) ∈ s.verdicts → x = y
  reached : ∀ i raw v, (i, raw, v) ∈ s.verdicts → s.raw i = some raw ∧ s.Reaches i v

theorem accepted_kept (forwards : app.forwardEndpoint ≠ none) (opened : Opened spool)
    (ran : (spawnPool workers spool).run app es = some s) : s.Owed app := by
  have serves := run_serves opened ran
  refine ⟨fun i r asked answer => ?_, serves.sound.answers, fun i x y => serves.once.verdict_eq,
    fun i raw v member => ⟨serves.sound.computed _ member, serves.reached _ member⟩⟩
  have member : (i, r.raw, .accepted) ∈ s.verdicts := by
    rcases serves.sound.answers i r asked _ answer with member | failed
    · exact member
    · cases failed
  obtain ⟨output, governed, safe⟩ := serves.sound.accepted _ member rfl
  refine ⟨output, fun other => ⟨fun also => serves.once.governed_eq also governed, ?_⟩, serves.sound.governed _ governed,
    serves.sound.safekept (safe forwards)⟩
  rintro rfl
  exact governed

end Runs

/-- One request, whose forward fails and whose output is spooled. -/
def spooledRun : List ServiceEvent :=
  [.submit 0 [0x0A, 0], .recv 0, .process 0 ⟨⟨[], [], []⟩, [], ⟨[], 100⟩, 100, .withDefaults⟩ .closed 0 none, .refuse 0,
    .push 0, .io 0 (.create 0), .io 0 (.write 0 2), .io 0 (.sync 0), .io 0 (.rename 0), .publish 0, .respond 0, .answer 0]

theorem accepted_kept_spooled : ∃ s, (spawnPool 1 (some (.start ⟨10, 0, 0, ∅⟩ ∅))).run ⟨.literal, some [], 1⟩ spooledRun = some s ∧
    (s.requests.lookup 0).map (·.answer) = some (.returned .accepted) ∧ s.Owed ⟨.literal, some [], 1⟩ := by
  obtain ⟨s, ran, answered⟩ := Option.map_eq_some_iff.mp
    (show ((spawnPool 1 (some (.start ⟨10, 0, 0, ∅⟩ ∅))).run ⟨.literal, some [], 1⟩ spooledRun).map
      (fun s => (s.requests.lookup 0).map (·.answer)) = some (some (.returned .accepted)) by decide +kernel)
  refine ⟨s, ran, answered, accepted_kept nofun ?_ ran⟩
  rintro world ⟨⟩
  exact ⟨{}, ∅, 10, ⟨10, 0, 0, ∅⟩, ∅, rfl, rfl⟩

end Service

end ArchivAgent
