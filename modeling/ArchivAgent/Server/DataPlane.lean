import ArchivAgent.Server.Accepted
import ArchivAgent.Spool.Sole

/-!
# The agent over its spool

`src/main.rs` joins the two receivers and the drain loop over one spool. The data plane is here one
receiver with its pool, the drain loop, and the pushes of the other receiver. The destination's 2xx
come for what a worker forwards itself and for the entries that the loop sends.
-/

namespace ArchivAgent
open Wire (Bytes)
open Spool (World DrainLoop LoopEvent)

structure DataPlane where
  service : Service
  /-- The loop works on the service's spool. -/
  drainer : Option DrainLoop
  /-- The requests whose push returned `Ok`, each with the number it returned. -/
  spooled : List (Nat × Nat) := []

inductive DataPlaneEvent where
  | serve (e : ServiceEvent)
  | loop (e : LoopEvent)

/-- A step of a drain, which is the loop's. -/
def ServiceEvent.isDrain : ServiceEvent → Bool
  | .drain _ => true
  | _ => false

namespace Service

def lodged (s : Service) : ServiceEvent → List (Nat × Nat)
  | .publish w =>
    match s.workers.lookup w, s.spool.bind fun world => world.pushes.lookup w with
    | some (.spooling job _), some p => [(job.request, p.seq)]
    | _, _ => []
  | _ => []

/-- No push of the pool's own. -/
def isForeign (s : Service) : LoopEvent → Bool
  | .push e => match e.pushId with
    | some id => (s.workers.lookup id).isNone
    | none => false
  | _ => true

def accepts (s : Service) : List Nat := (s.verdicts.filter fun x => x.2.2 = .accepted).map (·.1)

end Service

namespace DataPlane

def loop (n : DataPlane) : Option DrainLoop :=
  n.service.spool.bind fun world => n.drainer.map fun drainer => { drainer with world }

def step (app : AppState) (n : DataPlane) : DataPlaneEvent → Option DataPlane
  | .serve e =>
    if e.isDrain then none
    else (n.service.step app e).map fun service => { n with service, spooled := n.spooled ++ n.service.lodged e }
  | .loop e =>
    if n.service.isForeign e then
      (n.loop.bind (·.step e)).map fun drainer =>
        { n with service := { n.service with spool := some drainer.world }, drainer := some drainer }
    else none

def run (app : AppState) (n : DataPlane) (es : List DataPlaneEvent) : Option DataPlane := Transition.run (step app) n es

/-- `main`: where there is a spool, the loop drains it. -/
def start (workers : Nat) (spool : Option World) : DataPlane where
  service := .spawnPool workers spool
  drainer := spool.map fun world => { world }

def owner (n : DataPlane) (seq : Nat) : Option Nat := (n.spooled.find? fun x => x.2 = seq).map (·.1)

/-- What the destination has answered with a 2xx, with the request it is for. -/
def sent (n : DataPlane) : List (Nat × Bytes) :=
  n.service.forwarded ++
    ((n.service.spool.map (·.delivered)).getD []).filterMap fun x => (n.owner x.1).map fun i => (i, x.2)

def Holds (n : DataPlane) (i : Nat) (output : Bytes) : Prop :=
  ∃ world ∈ n.service.spool, ∃ seq, (i, seq) ∈ n.spooled ∧ world.Waits (seq, output)

end DataPlane

/-! ### What a step settles -/

namespace Service

/-- What a step adds to the accepted requests, with the 2xx or the entry it rests on. -/
inductive Settles (s s' : Service) (e : ServiceEvent) : Prop where
  | quiet (accepts : s'.accepts = s.accepts) (forwarded : s'.forwarded = s.forwarded) (lodged : s.lodged e = [])
  | forwards {i output} (accepts : s'.accepts = s.accepts ++ [i]) (forwarded : s'.forwarded = s.forwarded ++ [(i, output)])
      (lodged : s.lodged e = []) (governed : (i, output) ∈ s.governed)
  | lodges {i seq output world} (accepts : s'.accepts = s.accepts ++ [i]) (forwarded : s'.forwarded = s.forwarded)
      (lodged : s.lodged e = [(i, seq)]) (governed : (i, output) ∈ s.governed) (spool : s.spool = some world)
      (fresh : ∀ x ∈ world.acked, x.1 ≠ seq) (acked : (seq, output) ∈ s'.acked)

section Settles
variable {app : AppState} {s s' : Service} {e : ServiceEvent}

theorem accepts_finish (s : Service) (w : Nat) (job : Job) (v : Verdict) :
    (s.finish w job v).accepts = s.accepts ++ if v = .accepted then [job.request] else [] := by
  rw [accepts, accepts, finish, List.filter_append, List.map_append]
  cases v <;> rfl

theorem kill_forwarded (s : Service) (w : Nat) (job : Option Job) : (s.kill w job).forwarded = s.forwarded := by
  rw [kill]
  split <;> rfl

theorem accepts_kill (s : Service) (w : Nat) (job : Option Job) : (s.kill w job).accepts = s.accepts := by
  rw [accepts, accepts, kill_verdicts]

theorem step_settles (h : s.step app e = some s') (sound : s.Sound app) (forwards : app.forwardEndpoint ≠ none) :
    Settles s s' e := by
  cases step_cases h with
  | submit | closed | recv | governed | down | reserve | io | drain | respond | unheard | answer | dropped | hangUp =>
    exact .quiet rfl rfl rfl
  | panic | die => exact .quiet (accepts_kill ..) (kill_forwarded ..) rfl
  | @overflow w job _ _ after => exact .quiet (accepts_kill ..) (kill_forwarded ..) rfl
  | malformed | unspooled | full => exact .quiet ((accepts_finish ..).trans (List.append_nil _)) rfl rfl
  | release => exact .quiet ((accepts_finish ..).trans (List.append_nil _)) rfl rfl
  | validated _ _ _ unforwarded => exact absurd unforwarded forwards
  | @forward w job output here =>
    exact .forwards ((accepts_finish ..).trans rfl) rfl rfl (sound.working w _ here).2
  | @publish w job output world after here spool one =>
    obtain ⟨-, member, world', there, mine⟩ := sound.working w _ here
    cases spool.symm.trans there
    obtain ⟨-, held⟩ := sound.spool world spool
    cases World.step_cases one with
    | @publish _ p found phase =>
      rw [World.payload, found] at mine
      cases mine
      refine .lodges ((accepts_finish ..).trans rfl) rfl ?_ member spool (fun x old => (held.ackedApart x old w p found).symm)
        (List.mem_append_right _ (List.mem_singleton_self _))
      simp only [lodged, here, spool, Option.bind_some, found]

end Settles

end Service

namespace DataPlane

/-! ### What a step is to its parts -/

/-- A step is the pool's, with the loop seeing at most a push of it, or it is the loop's. -/
inductive Step (app : AppState) (n : DataPlane) : DataPlaneEvent → DataPlane → Prop where
  | serve {e service} (own : e.isDrain = false) (one : n.service.step app e = some service) :
      Step app n (.serve e) { n with service, spooled := n.spooled ++ n.service.lodged e }
  | loop {e drainer drainer'} (foreign : n.service.isForeign e = true) (here : n.loop = some drainer)
      (one : drainer.step e = some drainer') :
      Step app n (.loop e) { n with service := { n.service with spool := some drainer'.world }, drainer := some drainer' }

theorem step_cases {app : AppState} {n n' : DataPlane} {e : DataPlaneEvent} (h : n.step app e = some n') : Step app n e n' := by
  cases e with
  | serve e =>
    simp only [step] at h
    split at h
    · cases h
    · obtain ⟨service, one, rfl⟩ := Option.map_eq_some_iff.mp h
      exact .serve (Bool.eq_false_iff.mpr ‹_›) one
  | loop e =>
    simp only [step] at h
    split at h
    · obtain ⟨drainer', found, rfl⟩ := Option.map_eq_some_iff.mp h
      obtain ⟨drainer, here, one⟩ := Option.bind_eq_some_iff.mp found
      exact .loop ‹_› here one
    · cases h

end DataPlane

namespace Service

section Parts
variable {app : AppState} {s s' : Service} {e : ServiceEvent} {world after : World}

theorem kill_spool (s : Service) (w : Nat) (job : Option Job) : (s.kill w job).spool = s.spool := by
  rw [kill]
  split <;> rfl

theorem kill_governed (s : Service) (w : Nat) (job : Option Job) : (s.kill w job).governed = s.governed := by
  rw [kill]
  split <;> rfl

/-- What the pool does to the spool is a push beside the loop. -/
theorem step_spool (h : s.step app e = some s') (own : e.isDrain = false) : s'.spool = s.spool ∨
    ∃ world after i, s.spool = some world ∧ s'.spool = some after ∧ world.step i = some after ∧ i.pushId.isSome = true := by
  cases step_cases h with
  | panic | die => exact .inl (kill_spool ..)
  | overflow _ spool one => exact .inr ⟨_, _, _, spool, kill_spool .., one, rfl⟩
  | reserve _ spool one | full _ spool one | publish _ spool one | release _ spool one =>
    exact .inr ⟨_, _, _, spool, rfl, one, rfl⟩
  | @io w i _ _ spool isIo one =>
    refine .inr ⟨_, _, _, spool, rfl, one, ?_⟩
    cases i <;> first | rfl | cases isIo
  | drain => cases own
  | _ => exact .inl rfl

theorem step_governed (h : s.step app e = some s') : ∀ x ∈ s.governed, x ∈ s'.governed := by
  cases step_cases h with
  | panic | die | overflow =>
    rw [kill_governed]
    exact fun _ member => member
  | validated | governed => exact fun _ member => List.mem_append_left _ member
  | _ => exact fun _ member => member

theorem acked_grows (spool : s.spool = some world) (after_ : s'.spool = some after) {i : Spool.Event}
    (one : world.step i = some after) : ∀ x ∈ s.acked, x ∈ s'.acked := by
  intro x member
  rw [acked, spool] at member
  rw [acked, after_]
  exact World.acked_mono one x member

theorem step_acked (h : s.step app e = some s') (own : e.isDrain = false) : ∀ x ∈ s.acked, x ∈ s'.acked := by
  rcases step_spool h own with same | ⟨world, after, i, spool, grown, one, -⟩
  · intro x member
    rw [acked, same]
    exact member
  · exact acked_grows spool grown one

theorem Sound.beside (sound : s.Sound app) (spool : s.spool = some world) {i : Spool.Event} (one : world.step i = some after)
    (apart : ∀ w k, s.workers.lookup w = some k → i.pushId ≠ some w) : Sound app { s with spool := some after } :=
  sound.withSpool spool one fun w k found =>
    (sound.working w k found).spool spool one (World.payload_frame one (apart w k found)) _

theorem loop_spool {l l' : DrainLoop} {e : LoopEvent} (h : l.step e = some l') (foreign : s.isForeign e = true) :
    l'.world = l.world ∨ ∃ i, l.world.step i = some l'.world ∧ ∀ w k, s.workers.lookup w = some k → i.pushId ≠ some w := by
  cases DrainLoop.step_cases h with
  | @push i world mine one =>
    refine .inr ⟨i, one, fun w k found own => ?_⟩
    simp only [isForeign, own, found] at foreign
    cases foreign
  | @goes i _ world _ one goes =>
    refine .inr ⟨i, one, fun w k _ => ?_⟩
    cases goes <;> exact nofun
  | @ends i n outcome world _ one ends =>
    refine .inr ⟨i, by rw [DrainLoop.answered_world]; exact one, fun w k _ => ?_⟩
    cases ends <;> exact nofun
  | wake | shutdown => exact .inl rfl

end Parts

end Service

namespace DataPlane

/-! ### Every run -/

theorem loop_some {n : DataPlane} {l : DrainLoop} : n.loop = some l ↔
    n.service.spool = some l.world ∧ ∃ drainer, n.drainer = some drainer ∧ { drainer with world := l.world } = l := by
  rw [loop, Option.bind_eq_some_iff]
  constructor
  · rintro ⟨world, spool, found⟩
    obtain ⟨drainer, there, rfl⟩ := Option.map_eq_some_iff.mp found
    exact ⟨spool, drainer, there, rfl⟩
  · rintro ⟨spool, drainer, there, same⟩
    exact ⟨l.world, spool, by rw [there, Option.map_some, same]⟩

/-- The loop sees a run of its own, with the pushes of both receivers beside it. -/
theorem loop_of_step {app : AppState} {n n' : DataPlane} {e : DataPlaneEvent} (h : n.step app e = some n') {l' : DrainLoop}
    (there : n'.loop = some l') : n.loop = some l' ∨ ∃ l i, n.loop = some l ∧ l.step i = some l' := by
  cases step_cases h with
  | @serve e service own one =>
    obtain ⟨spool', drainer, found, same⟩ := loop_some.mp there
    rcases Service.step_spool one own with kept | ⟨world, after, i, spool, grown, moved, mine⟩
    · exact .inl (loop_some.mpr ⟨kept.symm.trans spool', drainer, found, same⟩)
    · cases grown.symm.trans spool'
      refine .inr ⟨{ drainer with world }, .push i, loop_some.mpr ⟨spool, drainer, found, rfl⟩, ?_⟩
      rw [DrainLoop.step, if_pos mine, moved, Option.map_some, same]
  | @loop e l m foreign here one =>
    obtain ⟨-, drainer, found, same⟩ := loop_some.mp there
    obtain ⟨spool, -⟩ := loop_some.mp there
    cases found
    rw [← Option.some.inj spool] at same
    exact .inr ⟨l, e, here, one.trans (congrArg some same)⟩

structure Sound (app : AppState) (backlog : Nat × Bytes → Prop) (n : DataPlane) : Prop where
  service : n.service.Sound app
  once : n.service.Once
  drained : n.service.spool.isSome = true → n.drainer.isSome = true
  loop : ∀ l, n.loop = some l → l.Sound backlog
  ledger : n.service.accepts.Perm (n.service.forwarded.map (·.1) ++ n.spooled.map (·.1))
  forwards : ∀ x ∈ n.service.forwarded, x ∈ n.service.governed
  numbers : (n.spooled.map (·.2)).Nodup
  lodged : ∀ x ∈ n.spooled, ∃ output, (x.1, output) ∈ n.service.governed ∧ (x.2, output) ∈ n.service.acked

section Runs
variable {app : AppState} {backlog : Nat × Bytes → Prop} {n n' : DataPlane} {e : DataPlaneEvent}

theorem Sound.serve (sound : n.Sound app backlog) {e : ServiceEvent} {s : Service} (h : n.service.step app e = some s)
    (own : e.isDrain = false) (forwards : app.forwardEndpoint ≠ none)
    (loop : ∀ l, DataPlane.loop { n with service := s, spooled := n.spooled ++ n.service.lodged e } = some l → l.Sound backlog) :
    Sound app backlog { n with service := s, spooled := n.spooled ++ n.service.lodged e } := by
  have governed := Service.step_governed h
  have acked := Service.step_acked h own
  have drained : s.spool.isSome = true → n.drainer.isSome = true := by
    rcases Service.step_spool h own with same | ⟨world, after, i, spool, -⟩
    · rw [same]
      exact sound.drained
    · exact fun _ => sound.drained (by rw [spool]; rfl)
  have lodged : ∀ x ∈ n.spooled, ∃ output, (x.1, output) ∈ s.governed ∧ (x.2, output) ∈ s.acked := by
    intro x member
    obtain ⟨output, made, told⟩ := sound.lodged x member
    exact ⟨output, governed _ made, acked _ told⟩
  have base := Service.step_sound h sound.service
  have once := Service.step_once h sound.once
  rcases Service.step_settles h sound.service forwards with ⟨accepts, forwarded, none⟩ |
    ⟨accepts, forwarded, none, made⟩ | @⟨i, seq, output, world, accepts, forwarded, one, made, spool, fresh, told⟩
  · refine ⟨base, once, drained, loop, ?_, ?_, ?_, ?_⟩ <;> simp only [none, List.append_nil]
    · rw [accepts, forwarded]
      exact sound.ledger
    · rw [forwarded]
      exact fun x member => governed x (sound.forwards x member)
    · exact sound.numbers
    · exact lodged
  · refine ⟨base, once, drained, loop, ?_, ?_, ?_, ?_⟩ <;> simp only [none, List.append_nil]
    · rw [accepts, forwarded, List.map_append, List.map_singleton, List.append_assoc]
      exact (sound.ledger.append_right _).trans (by
        rw [List.append_assoc]
        exact List.perm_append_comm.append_left _)
    · rw [forwarded]
      intro x member
      rcases List.mem_append.mp member with old | new
      · exact governed x (sound.forwards x old)
      · rw [List.mem_singleton.mp new]
        exact governed _ made
    · exact sound.numbers
    · exact lodged
  · refine ⟨base, once, drained, loop, ?_, ?_, ?_, ?_⟩ <;> simp only [one]
    · rw [accepts, forwarded, List.map_append, List.map_singleton, ← List.append_assoc]
      exact sound.ledger.append_right _
    · rw [forwarded]
      exact fun x member => governed x (sound.forwards x member)
    · rw [List.map_append, List.map_singleton]
      refine List.nodup_append.mpr ⟨sound.numbers, List.nodup_singleton _, ?_⟩
      intro number old number' new same
      obtain ⟨x, member, rfl⟩ := List.mem_map.mp old
      obtain ⟨output', -, before⟩ := sound.lodged x member
      rw [Service.acked, spool] at before
      exact fresh _ before (same.trans (List.mem_singleton.mp new))
    · intro x member
      rcases List.mem_append.mp member with old | new
      · exact lodged x old
      · rw [List.mem_singleton.mp new]
        exact ⟨output, governed _ made, told⟩

theorem step_sound (h : n.step app e = some n') (forwards : app.forwardEndpoint ≠ none) (sound : n.Sound app backlog) :
    n'.Sound app backlog := by
  have loop : ∀ l, n'.loop = some l → l.Sound backlog := by
    intro l there
    rcases loop_of_step h there with same | ⟨m, i, here, one⟩
    · exact sound.loop l same
    · exact DrainLoop.step_sound one (sound.loop m here)
  cases step_cases h with
  | serve own one => exact sound.serve one own forwards loop
  | @loop e l m foreign here one =>
    obtain ⟨spool, -⟩ := loop_some.mp here
    rcases Service.loop_spool one foreign with same | ⟨i, moved, apart⟩
    · have kept : { n.service with spool := some m.world } = n.service := by rw [same, ← spool]
      refine { sound with service := ?_, once := ?_, drained := fun _ => rfl, loop := loop, lodged := ?_ } <;> simp only [kept]
      · exact sound.service
      · exact sound.once
      · exact sound.lodged
    · refine { sound with
        service := sound.service.beside spool moved apart
        once := sound.once.spool _
        drained := fun _ => rfl
        loop := loop
        lodged := fun x member => ?_ }
      obtain ⟨output, made, told⟩ := sound.lodged x member
      exact ⟨output, made, Service.acked_grows spool rfl moved _ told⟩

theorem start_sound_of {workers : Nat} {spool : Option World} (opened : Service.Opened spool)
    (loop : ∀ l, (start workers spool).loop = some l → l.Sound backlog) : (start workers spool).Sound app backlog := by
  refine ⟨Service.spawnPool_sound opened, Service.spawnPool_once, fun there => ?_, loop, .nil, nofun, .nil, nofun⟩
  rw [start, Option.isSome_map]
  exact there

theorem start_sound {workers : Nat} {spool : Option World} (opened : Service.Opened spool) :
    ∃ backlog, (start workers spool).Sound app backlog := by
  have loop : ∃ backlog, ∀ l, (start workers spool).loop = some l → l.Sound backlog := by
    cases spool with
    | none => exact ⟨fun _ => False, nofun⟩
    | some world =>
      obtain ⟨io, files, maxBytes, sp, files', ok, rfl⟩ := opened world rfl
      refine ⟨World.Backlog sp files', fun l there => ?_⟩
      cases there
      exact DrainLoop.start_sound ok
  obtain ⟨backlog, loop⟩ := loop
  exact ⟨backlog, start_sound_of opened loop⟩

theorem run_sound {es : List DataPlaneEvent} (ran : n.run app es = some n') (forwards : app.forwardEndpoint ≠ none)
    (sound : n.Sound app backlog) : n'.Sound app backlog :=
  Transition.run_invariant (Sound app backlog) ran (fun _ _ _ _ one sound => step_sound one forwards sound) sound

end Runs

/-! ### What becomes of a request -/

section Fates
variable {app : AppState} {backlog : Nat × Bytes → Prop} {n : DataPlane} {i seq : Nat}

theorem owner_mem (found : n.owner seq = some i) : (i, seq) ∈ n.spooled := by
  obtain ⟨x, here, rfl⟩ := Option.map_eq_some_iff.mp found
  have same : x.2 = seq := by simpa using List.find?_some here
  subst same
  exact List.mem_of_find?_eq_some here

theorem Sound.owner_eq (sound : n.Sound app backlog) (member : (i, seq) ∈ n.spooled) : n.owner seq = some i := by
  cases found : n.spooled.find? fun x => x.2 = seq with
  | none => exact absurd (decide_eq_true rfl) (List.find?_eq_none.mp found _ member)
  | some x =>
    have same : x.2 = seq := by simpa using List.find?_some found
    have only := List.inj_on_of_nodup_map sound.numbers (List.mem_of_find?_eq_some found) member same
    rw [owner, found, Option.map_some, only]

theorem Sound.singly (sound : n.Sound app backlog) : (n.service.forwarded.map (·.1) ++ n.spooled.map (·.1)).Nodup := by
  refine sound.ledger.nodup_iff.mp ?_
  have judged : (n.service.verdicts.map (·.1)).Nodup :=
    List.nodup_iff_count_le_one.mpr fun i => Nat.le_trans (Nat.le_add_left _ _) (sound.once.judged.once i)
  exact judged.sublist (List.filter_sublist.map _)

/-- An entry is for the request's output, and it is sent or waits. -/
theorem Sound.entry (sound : n.Sound app backlog) (member : (i, seq) ∈ n.spooled) : ∃ world output,
    n.service.spool = some world ∧ world.Sole backlog ∧ (i, output) ∈ n.service.governed ∧
      ((seq, output) ∈ world.delivered ∨ world.Waits (seq, output)) := by
  obtain ⟨output, made, told⟩ := sound.lodged _ member
  cases spool : n.service.spool with
  | none =>
    rw [Service.acked, spool] at told
    cases told
  | some world =>
    rw [Service.acked, spool] at told
    obtain ⟨drainer, there⟩ := Option.isSome_iff_exists.mp (sound.drained (by rw [spool]; rfl))
    have sole := (sound.loop { drainer with world } (loop_some.mpr ⟨spool, drainer, there, rfl⟩)).sole
    exact ⟨world, output, rfl, sole, made, (sole.conserved _).mp (.inr told)⟩

theorem mem_sent {x : Nat × Bytes} : x ∈ n.sent ↔ x ∈ n.service.forwarded ∨
    ∃ world, n.service.spool = some world ∧ ∃ seq, (seq, x.2) ∈ world.delivered ∧ n.owner seq = some x.1 := by
  rw [sent, List.mem_append, List.mem_filterMap]
  refine or_congr_right ?_
  cases spool : n.service.spool with
  | none => exact iff_of_false (by rintro ⟨_, member, -⟩; cases member) (by rintro ⟨_, there, -⟩; cases there)
  | some world =>
    constructor
    · rintro ⟨y, member, found⟩
      obtain ⟨i, mine, rfl⟩ := Option.map_eq_some_iff.mp found
      exact ⟨world, rfl, y.1, member, mine⟩
    · rintro ⟨_, ⟨⟩, seq, member, mine⟩
      exact ⟨(seq, x.2), member, by rw [mine, Option.map_some]⟩

/-- Every request's output is sent at most once; an accepted one is sent or waits in the spool, and
no other leaves the agent. -/
structure Fates (n : DataPlane) : Prop where
  once : (n.sent.map (·.1)).Nodup
  governed : ∀ i output, (i, output) ∈ n.sent ∨ n.Holds i output → (i, output) ∈ n.service.governed
  accepted : ∀ i, i ∈ n.service.accepts ↔ ∃ output, (i, output) ∈ n.sent ∨ n.Holds i output
  apart : ∀ i output other, (i, output) ∈ n.sent → ¬ n.Holds i other
  answered : ∀ i r, n.service.requests.lookup i = some r → r.answer = .returned .accepted → i ∈ n.service.accepts

theorem Sound.sent_once (sound : n.Sound app backlog) : (n.sent.map (·.1)).Nodup := by
  obtain ⟨forwarded, spooled, apart⟩ := List.nodup_append.mp sound.singly
  have owned : ∀ world : World, (world.delivered.filterMap fun x => (n.owner x.1).map fun i => (i, x.2)).map (·.1) =
      (world.delivered.map (·.1)).filterMap n.owner := by
    intro world
    rw [List.map_filterMap, List.filterMap_map]
    refine List.filterMap_congr fun x _ => ?_
    rw [Option.map_map, Function.comp_apply]
    exact Option.map_id'
  rw [sent, List.map_append]
  cases spool : n.service.spool with
  | none => exact (List.append_nil _).symm ▸ forwarded
  | some world =>
    rw [Option.map_some, Option.getD_some, owned]
    refine List.nodup_append.mpr ⟨forwarded, ?_, ?_⟩
    · obtain ⟨drainer, there⟩ := Option.isSome_iff_exists.mp (sound.drained (by rw [spool]; rfl))
      have sole := (sound.loop { drainer with world } (loop_some.mpr ⟨spool, drainer, there, rfl⟩)).sole
      refine sole.once.filterMap fun seq seq' i mine theirs => ?_
      exact congrArg Prod.snd (List.inj_on_of_nodup_map spooled (owner_mem mine) (owner_mem theirs) rfl)
    · intro i direct j drained
      obtain ⟨seq, -, mine⟩ := List.mem_filterMap.mp drained
      exact apart i direct j (List.mem_map_of_mem (owner_mem mine))

theorem Sound.own_entry (sound : n.Sound app backlog) {seq' : Nat} (member : (i, seq) ∈ n.spooled) (also : (i, seq') ∈ n.spooled) :
    seq = seq' :=
  congrArg Prod.snd (List.inj_on_of_nodup_map (List.nodup_append.mp sound.singly).2.1 member also rfl)

theorem Sound.fates (sound : n.Sound app backlog) : n.Fates where
  once := sound.sent_once
  governed i output := by
    rintro (gone | ⟨world, spool, seq, member, waits⟩)
    · rcases mem_sent.mp gone with direct | ⟨world, spool, seq, drained, mine⟩
      · exact sound.forwards _ direct
      · obtain ⟨world', output', spool', sole, made, sent | waits⟩ := sound.entry (owner_mem mine)
        · cases spool.symm.trans spool'
          have same : output = output' := congrArg Prod.snd (List.inj_on_of_nodup_map sole.once drained sent rfl)
          exact same ▸ made
        · cases spool.symm.trans spool'
          exact absurd waits (sole.apart drained)
    · obtain ⟨world', output', spool', sole, made, sent | waits'⟩ := sound.entry member
      · cases spool.symm.trans spool'
        exact absurd waits (sole.apart sent)
      · cases spool.symm.trans spool'
        have same : output = output' := Option.some.inj (waits.2.1.symm.trans waits'.2.1)
        exact same ▸ made
  accepted i := by
    rw [sound.ledger.mem_iff, List.mem_append]
    constructor
    · rintro (direct | lodged)
      · obtain ⟨x, member, rfl⟩ := List.mem_map.mp direct
        exact ⟨x.2, .inl (mem_sent.mpr (.inl member))⟩
      · obtain ⟨x, member, rfl⟩ := List.mem_map.mp lodged
        obtain ⟨world, output, spool, -, -, sent | waits⟩ := sound.entry member
        · exact ⟨output, .inl (mem_sent.mpr (.inr ⟨world, spool, x.2, sent, sound.owner_eq member⟩))⟩
        · exact ⟨output, .inr ⟨world, spool, x.2, member, waits⟩⟩
    · rintro ⟨output, gone | ⟨world, -, seq, member, -⟩⟩
      · rcases mem_sent.mp gone with direct | ⟨world, -, seq, -, mine⟩
        · exact .inl (List.mem_map_of_mem direct)
        · exact .inr (List.mem_map_of_mem (owner_mem mine))
      · exact .inr (List.mem_map_of_mem member)
  apart i output other := by
    rintro gone ⟨world, spool, seq, member, waits⟩
    rcases mem_sent.mp gone with direct | ⟨world', spool', seq', drained, mine⟩
    · exact (List.nodup_append.mp sound.singly).2.2 i (List.mem_map_of_mem direct) i (List.mem_map_of_mem member) rfl
    · obtain ⟨world'', -, spool'', sole, -⟩ := sound.entry member
      cases spool.symm.trans spool'
      cases spool.symm.trans spool''
      rw [sound.own_entry member (owner_mem mine)] at waits
      exact sole.apart drained waits
  answered i r asked answer := by
    rcases sound.service.answers i r asked _ answer with member | failed
    · exact List.mem_map.mpr ⟨_, List.mem_filter.mpr ⟨member, rfl⟩, rfl⟩
    · cases failed

end Fates

/-- However the receivers, the workers and the drain loop interleave, whatever fails. -/
theorem accepted_once {app : AppState} (forwards : app.forwardEndpoint ≠ none) {workers : Nat} {spool : Option World}
    (opened : Service.Opened spool) {es : List DataPlaneEvent} {n : DataPlane} (ran : (start workers spool).run app es = some n) :
    n.Fates := by
  obtain ⟨backlog, sound⟩ := @start_sound app workers _ opened
  exact (run_sound ran forwards sound).fates

/-- A request is spooled and drained, and another is forwarded beside it. -/
def drainedRun : List DataPlaneEvent :=
  (Service.spooledRun.map .serve) ++
    [.loop (.drain (.select 0) 0), .serve (.submit 1 [0x0A, 0]), .loop (.drain (.read 0) 0), .serve (.recv 0),
      .serve (.process 0 ⟨⟨[], [], []⟩, [], ⟨[], 100⟩, 100, .withDefaults⟩ .closed 0 none), .serve (.forward 0),
      .loop (.drain (.forward 0) 0), .loop (.push (.push 7 [1]))]

theorem accepted_once_drained : ∃ n, (start 1 (some (.start ⟨10, 0, 0, ∅⟩ ∅))).run ⟨.literal, some [], 1⟩ drainedRun = some n ∧
    n.sent = [(1, [0x0A, 0]), (0, [0x0A, 0])] ∧ n.Fates := by
  obtain ⟨n, ran, sent⟩ := Option.map_eq_some_iff.mp
    (show ((start 1 (some (.start ⟨10, 0, 0, ∅⟩ ∅))).run ⟨.literal, some [], 1⟩ drainedRun).map sent =
      some [(1, [0x0A, 0]), (0, [0x0A, 0])] by decide +kernel)
  refine ⟨n, ran, sent, accepted_once (Option.some_ne_none _) ?_ ran⟩
  rintro world ⟨⟩
  exact ⟨{}, ∅, 10, ⟨10, 0, 0, ∅⟩, ∅, rfl, rfl⟩

end DataPlane

end ArchivAgent
