import ArchivAgent.Spool.Recovery
import ArchivAgent.Transition.Run

/-!
# Calls in flight

Any number of `push` and `drain_once` calls on one spool. A call is a record of how far it has
come; an event is one atomic step of one call: what it does under the lock, or one file
operation with its answer. A call that takes no further step has been cancelled or its task has
died. `acked` and `delivered` remember what the calls returned.
-/

namespace ArchivAgent.Spool
open Wire (Bytes)

inductive PushPhase where
  | reserved
  /-- `<seq>.otlp.tmp` holds that many bytes of the payload. -/
  | writing (n : Nat)
  | synced
  | renamed
  | failed (e : IoError)
  deriving DecidableEq, Repr

structure Push where
  seq : Nat
  payload : Bytes
  phase : PushPhase
  deriving DecidableEq, Repr

inductive DrainPhase where
  | selected
  | read (bytes : Bytes)
  | forwarded (bytes : Bytes)
  | removed (bytes : Bytes)
  deriving DecidableEq, Repr

structure Drain where
  seq : Nat
  len : Nat
  phase : DrainPhase
  deriving DecidableEq, Repr

structure World extends Spool where
  files : Files
  pushes : Table Nat Push := ∅
  drains : Table Nat Drain := ∅
  /-- Sequence numbers handed out, each with its payload. -/
  issued : List (Nat × Bytes) := []
  /-- Pushes that returned `Ok(seq)`. -/
  acked : List (Nat × Bytes) := []
  /-- What the destination has answered with a 2xx. -/
  delivered : List (Nat × Bytes) := []

inductive Event where
  | push (id : Nat) (payload : Bytes)
  | create (id : Nat)
  | write (id n : Nat)
  | sync (id : Nat)
  | rename (id : Nat)
  /-- The file operation the push is at fails. -/
  | fail (id : Nat) (e : IoError)
  | publish (id : Nat)
  | release (id : Nat)
  | select (id : Nat)
  | read (id : Nat)
  | unreadable (id : Nat)
  | forward (id : Nat)
  | refuse (id : Nat)
  | remove (id : Nat)
  | removeFailed (id : Nat)
  | settle (id : Nat)
  deriving DecidableEq, Repr

def Event.pushId : Event → Option Nat
  | .push id _ | .create id | .write id _ | .sync id | .rename id | .fail id _ | .publish id | .release id => some id
  | _ => none

inductive Returned where
  | pushed (r : Except SpoolError Nat)
  | drained (o : DrainOutcome)

namespace World

def setPush (s : World) (id : Nat) (p : Push) (phase : PushPhase) : World :=
  { s with pushes := s.pushes.insert id { p with phase } }

def setDrain (s : World) (id : Nat) (d : Drain) (phase : DrainPhase) : World :=
  { s with drains := s.drains.insert id { d with phase } }

/-- `File::create` has made the file, or emptied the one that was there. -/
def createTmp (s : World) (p : Push) : World := { s with files := s.files.insert (tmpName p.seq) [] }

def writeTmp (s : World) (p : Push) (n : Nat) : World :=
  { s with files := s.files.insert (tmpName p.seq) (p.payload.take n) }

def renameTmp (s : World) (p : Push) (content : Bytes) : World :=
  { s with files := (s.files.erase (tmpName p.seq)).insert (otlpName p.seq) content }

def removeFile (s : World) (seq : Nat) : World := { s with files := s.files.erase (otlpName seq) }

def reserved (s : World) (id : Nat) (payload : Bytes) (state : State) : World :=
  { s with
    state
    pushes := s.pushes.insert id ⟨s.state.nextSeq, payload, .reserved⟩
    issued := s.issued ++ [(s.state.nextSeq, payload)] }

def published (s : World) (id : Nat) (p : Push) : World :=
  { s with
    state := s.state.publish p.seq p.payload.length
    pushes := s.pushes.erase id
    acked := s.acked ++ [(p.seq, p.payload)] }

def released (s : World) (id : Nat) (p : Push) : World :=
  { s with state := s.state.release p.payload.length, pushes := s.pushes.erase id }

def delivers (s : World) (id : Nat) (d : Drain) (bytes : Bytes) : World :=
  { s.setDrain id d (.forwarded bytes) with delivered := s.delivered ++ [(d.seq, bytes)] }

def settled (s : World) (id : Nat) (d : Drain) : World :=
  { s with state := s.state.settle d.seq d.len, drains := s.drains.erase id }

def retried (s : World) (id : Nat) : World := { s with drains := s.drains.erase id }

def step (s : World) : Event → Option World
  | .push id payload =>
    match s.pushes.lookup id with
    | some _ => none
    | none =>
      match s.state.reserve s.maxBytes payload.length with
      | .ok (_, state) => some (s.reserved id payload state)
      -- `Full`, or a sum out of range: the call ends with nothing reserved
      | .error _ => some s
  | .create id => do
    let p ← s.pushes.lookup id
    if p.phase = .reserved then some ((s.createTmp p).setPush id p (.writing 0)) else none
  | .write id n => do
    let p ← s.pushes.lookup id
    match p.phase with
    | .writing m => if m ≤ n ∧ n ≤ p.payload.length then some ((s.writeTmp p n).setPush id p (.writing n)) else none
    | _ => none
  | .sync id => do
    let p ← s.pushes.lookup id
    if p.phase = .writing p.payload.length then some (s.setPush id p .synced) else none
  | .rename id => do
    let p ← s.pushes.lookup id
    let content ← s.files.lookup (tmpName p.seq)
    if p.phase = .synced then some ((s.renameTmp p content).setPush id p .renamed) else none
  | .fail id e => do
    let p ← s.pushes.lookup id
    match p.phase with
    | .reserved | .writing _ | .synced => some (s.setPush id p (.failed e))
    | _ => none
  | .publish id => do
    let p ← s.pushes.lookup id
    if p.phase = .renamed then some (s.published id p) else none
  | .release id => do
    let p ← s.pushes.lookup id
    match p.phase with
    | .failed _ => some (s.released id p)
    | _ => none
  | .select id =>
    match s.drains.lookup id, s.state.oldest with
    | some _, _ => none
    | none, none => some s
    | none, some (seq, len) => some { s with drains := s.drains.insert id ⟨seq, len, .selected⟩ }
  | .read id => do
    let d ← s.drains.lookup id
    let bytes ← s.files.lookup (otlpName d.seq)
    if d.phase = .selected then some (s.setDrain id d (.read bytes)) else none
  | .unreadable id => do
    let d ← s.drains.lookup id
    if d.phase = .selected then some (s.retried id) else none
  | .forward id => do
    let d ← s.drains.lookup id
    match d.phase with
    | .read bytes => some (s.delivers id d bytes)
    | _ => none
  | .refuse id => do
    let d ← s.drains.lookup id
    match d.phase with
    | .read _ => some (s.retried id)
    | _ => none
  | .remove id => do
    let d ← s.drains.lookup id
    let _ ← s.files.lookup (otlpName d.seq)
    match d.phase with
    | .forwarded bytes => some ((s.removeFile d.seq).setDrain id d (.removed bytes))
    | _ => none
  | .removeFailed id => do
    let d ← s.drains.lookup id
    match d.phase with
    | .forwarded bytes => some (s.setDrain id d (.removed bytes))
    | _ => none
  | .settle id => do
    let d ← s.drains.lookup id
    match d.phase with
    | .removed _ => some (s.settled id d)
    | _ => none

/-- What a call returns at the event that ends it. -/
def returns (s : World) : Event → Option (Nat × Returned)
  | .push id payload =>
    match s.state.reserve s.maxBytes payload.length with
    | .error (.err e) => some (id, .pushed (.error e))
    | _ => none
  | .publish id => (s.pushes.lookup id).map fun p => (id, .pushed (.ok p.seq))
  | .release id => (s.pushes.lookup id).bind fun p =>
    match p.phase with
    | .failed e => some (id, .pushed (.error (.io e)))
    | _ => none
  | .select id => if s.state.oldest = none then some (id, .drained .idle) else none
  | .unreadable id | .refuse id => some (id, .drained .retry)
  | .settle id => some (id, .drained .delivered)
  | _ => none

def run (s : World) (es : List Event) : Option World := Transition.run step s es

def start (sp : Spool) (files : Files) : World := { sp with files }

/-! ### What a step does -/

/-- What the events do, with what each finds. -/
inductive Step (s : World) : Event → World → Prop where
  | reserve {id payload seq state} (fresh : s.pushes.lookup id = none)
      (ok : s.state.reserve s.maxBytes payload.length = .ok (seq, state)) :
      Step s (.push id payload) (s.reserved id payload state)
  | refuse {id payload stop} (fresh : s.pushes.lookup id = none)
      (failed : s.state.reserve s.maxBytes payload.length = .error stop) : Step s (.push id payload) s
  | create {id p} (here : s.pushes.lookup id = some p) (phase : p.phase = .reserved) :
      Step s (.create id) ((s.createTmp p).setPush id p (.writing 0))
  | write {id p m n} (here : s.pushes.lookup id = some p) (phase : p.phase = .writing m) (more : m ≤ n)
      (within : n ≤ p.payload.length) : Step s (.write id n) ((s.writeTmp p n).setPush id p (.writing n))
  | sync {id p} (here : s.pushes.lookup id = some p) (phase : p.phase = .writing p.payload.length) :
      Step s (.sync id) (s.setPush id p .synced)
  | rename {id p content} (here : s.pushes.lookup id = some p) (phase : p.phase = .synced)
      (held : s.files.lookup (tmpName p.seq) = some content) :
      Step s (.rename id) ((s.renameTmp p content).setPush id p .renamed)
  | fail {id p e} (here : s.pushes.lookup id = some p) (unfinished : p.phase ≠ .renamed) (first : ∀ e', p.phase ≠ .failed e') :
      Step s (.fail id e) (s.setPush id p (.failed e))
  | publish {id p} (here : s.pushes.lookup id = some p) (phase : p.phase = .renamed) :
      Step s (.publish id) (s.published id p)
  | release {id p e} (here : s.pushes.lookup id = some p) (phase : p.phase = .failed e) :
      Step s (.release id) (s.released id p)
  | select {id seq len} (fresh : s.drains.lookup id = none) (oldest : s.state.oldest = some (seq, len)) :
      Step s (.select id) { s with drains := s.drains.insert id ⟨seq, len, .selected⟩ }
  | idle {id} (fresh : s.drains.lookup id = none) (empty : s.state.oldest = none) : Step s (.select id) s
  | read {id d bytes} (here : s.drains.lookup id = some d) (phase : d.phase = .selected)
      (held : s.files.lookup (otlpName d.seq) = some bytes) : Step s (.read id) (s.setDrain id d (.read bytes))
  | unreadable {id d} (here : s.drains.lookup id = some d) (phase : d.phase = .selected) :
      Step s (.unreadable id) (s.retried id)
  | forward {id d bytes} (here : s.drains.lookup id = some d) (phase : d.phase = .read bytes) :
      Step s (.forward id) (s.delivers id d bytes)
  | retry {id d bytes} (here : s.drains.lookup id = some d) (phase : d.phase = .read bytes) :
      Step s (.refuse id) (s.retried id)
  | remove {id d bytes content} (here : s.drains.lookup id = some d) (phase : d.phase = .forwarded bytes)
      (held : s.files.lookup (otlpName d.seq) = some content) :
      Step s (.remove id) ((s.removeFile d.seq).setDrain id d (.removed bytes))
  | removeFailed {id d bytes} (here : s.drains.lookup id = some d) (phase : d.phase = .forwarded bytes) :
      Step s (.removeFailed id) (s.setDrain id d (.removed bytes))
  | settle {id d bytes} (here : s.drains.lookup id = some d) (phase : d.phase = .removed bytes) :
      Step s (.settle id) (s.settled id d)

theorem step_cases {s s' : World} {e : Event} (h : s.step e = some s') : Step s e s' := by
  cases e with
  | push id payload =>
    simp only [step] at h
    cases fresh : s.pushes.lookup id with
    | some p => rw [fresh] at h; cases h
    | none =>
      rw [fresh] at h
      cases result : s.state.reserve s.maxBytes payload.length with
      | ok r =>
        simp only [result] at h
        cases h
        exact .reserve fresh result
      | error stop =>
        simp only [result] at h
        cases h
        exact .refuse fresh result
  | create id =>
    obtain ⟨p, here, h⟩ := Option.bind_eq_some_iff.mp h
    split at h <;> cases h
    exact .create here ‹_›
  | write id n =>
    obtain ⟨p, here, h⟩ := Option.bind_eq_some_iff.mp h
    split at h
    · split at h <;> cases h
      rename_i phase bounds
      exact .write here phase bounds.1 bounds.2
    · cases h
  | sync id =>
    obtain ⟨p, here, h⟩ := Option.bind_eq_some_iff.mp h
    split at h <;> cases h
    exact .sync here ‹_›
  | rename id =>
    obtain ⟨p, here, h⟩ := Option.bind_eq_some_iff.mp h
    obtain ⟨content, held, h⟩ := Option.bind_eq_some_iff.mp h
    split at h <;> cases h
    exact .rename here ‹_› held
  | fail id e =>
    obtain ⟨p, here, h⟩ := Option.bind_eq_some_iff.mp h
    cases phase : p.phase with
    | renamed => rw [phase] at h; cases h
    | failed e' => rw [phase] at h; cases h
    | reserved | writing n | synced =>
      rw [phase] at h
      cases h
      exact .fail here (by rw [phase]; nofun) (by rw [phase]; nofun)
  | publish id =>
    obtain ⟨p, here, h⟩ := Option.bind_eq_some_iff.mp h
    split at h <;> cases h
    exact .publish here ‹_›
  | release id =>
    obtain ⟨p, here, h⟩ := Option.bind_eq_some_iff.mp h
    split at h <;> cases h
    exact .release here ‹_›
  | select id =>
    simp only [step] at h
    split at h <;> cases h
    · exact .idle ‹_› ‹_›
    · exact .select ‹_› ‹_›
  | read id =>
    obtain ⟨d, here, h⟩ := Option.bind_eq_some_iff.mp h
    obtain ⟨bytes, held, h⟩ := Option.bind_eq_some_iff.mp h
    split at h <;> cases h
    exact .read here ‹_› held
  | unreadable id =>
    obtain ⟨d, here, h⟩ := Option.bind_eq_some_iff.mp h
    split at h <;> cases h
    exact .unreadable here ‹_›
  | forward id =>
    obtain ⟨d, here, h⟩ := Option.bind_eq_some_iff.mp h
    split at h <;> cases h
    exact .forward here ‹_›
  | refuse id =>
    obtain ⟨d, here, h⟩ := Option.bind_eq_some_iff.mp h
    split at h <;> cases h
    exact .retry here ‹_›
  | remove id =>
    obtain ⟨d, here, h⟩ := Option.bind_eq_some_iff.mp h
    obtain ⟨content, held, h⟩ := Option.bind_eq_some_iff.mp h
    split at h <;> cases h
    exact .remove here ‹_› held
  | removeFailed id =>
    obtain ⟨d, here, h⟩ := Option.bind_eq_some_iff.mp h
    split at h <;> cases h
    exact .removeFailed here ‹_›
  | settle id =>
    obtain ⟨d, here, h⟩ := Option.bind_eq_some_iff.mp h
    split at h <;> cases h
    exact .settle here ‹_›

end World

end ArchivAgent.Spool
