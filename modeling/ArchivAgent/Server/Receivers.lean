import ArchivAgent.Server.Enforced
import ArchivAgent.Server.Grpc

/-!
# What a client is told

`handle` of `src/server.rs` and `handle_grpc` of `src/grpc.rs` from the request to the response. A
`Transport` is what the two have in common: a request is refused or a message is submitted, and the
verdict on the message becomes the response.
-/

namespace ArchivAgent
open Wire (Bytes)
open Spool (World)

/-! ### OTLP/HTTP -/

structure HttpRequest where
  method : Method
  path : String
  /-- Reading it can fail. -/
  body : Option Bytes
  deriving DecidableEq, Repr

structure HttpResponse where
  status : Nat
  contentType : String
  body : String
  deriving DecidableEq, Repr

def response (status : Nat) (body : String) : HttpResponse := ⟨status, "application/x-protobuf", body⟩

/-- The empty `ExportLogsServiceResponse`. -/
def otlpOk : HttpResponse := response 200 ""

/-- Up to the hand-off. -/
def handle (maxBodyBytes : Nat) (req : HttpRequest) : HttpResponse ⊕ Bytes :=
  if req.method ≠ .post ∨ req.path ≠ "/v1/logs" then .inl (response 404 "not found\n")
  else match req.body.bind (limited maxBodyBytes) with
    | none => .inl (response 413 "too large\n")
    | some raw => .inr raw

def httpAnswer : Verdict → HttpResponse
  | .accepted => otlpOk
  | .malformed => response 400 "unparseable OTLP\n"
  | .forwardFailed => response 503 "forward failed\n"

/-! ### OTLP/gRPC -/

inductive Frame where
  | data (bytes : Bytes)
  | trailers (headers : List (String × String))
  deriving DecidableEq, Repr

structure GrpcBody where
  data : Option Bytes
  trailers : Option (List (String × String))
  deriving DecidableEq, Repr

namespace GrpcBody

def pollFrame (body : GrpcBody) : Option Frame × GrpcBody :=
  match body.data with
  | some data => (some (.data data), { body with data := none })
  | none =>
    match body.trailers with
    | some trailers => (some (.trailers trailers), { body with trailers := none })
    | none => (none, body)

def polls : Nat → GrpcBody → List (Option Frame)
  | 0, _ => []
  | n + 1, body => body.pollFrame.1 :: polls n body.pollFrame.2

end GrpcBody

def statusValue : Nat → String
  | 0 => "0"
  | 3 => "3"
  | 8 => "8"
  | 12 => "12"
  | 14 => "14"
  -- UNKNOWN
  | _ => "2"

structure GrpcResponse where
  status : Nat
  contentType : String
  body : GrpcBody
  deriving DecidableEq, Repr

def grpcResponse (statusCode : Nat) (withMessage : Bool) : GrpcResponse where
  status := 200
  contentType := "application/grpc"
  body := ⟨if withMessage then some [0, 0, 0, 0, 0] else none, some [("grpc-status", statusValue statusCode)]⟩

/-- The status a client finds in the trailers, behind the message if there is one. -/
def GrpcResponse.grpcStatus (resp : GrpcResponse) : Option String :=
  (resp.body.polls 2).findSome? fun
    | some (.trailers headers) => headers.lookup "grpc-status"
    | some (.data _) | none => none

def GrpcStep.outcome : GrpcStep → GrpcResponse ⊕ Bytes
  | .respond status withMessage => .inl (grpcResponse status withMessage)
  | .submit message => .inr message

def grpcAnswer : Verdict → GrpcResponse
  | .accepted => grpcResponse 0 true
  | .malformed => grpcResponse 3 false
  | .forwardFailed => grpcResponse 14 false

/-! ### What the receivers have in common -/

theorem limited_fits {n : Nat} {body raw : Bytes} (within : limited n body = some raw) : raw.length ≤ n := by
  unfold limited at within
  split at within <;> cases within
  assumption

structure Transport where
  Req : Type
  Resp : Type
  handle : Nat → Req → Resp ⊕ Bytes
  answer : Verdict → Resp
  /-- The client may forget its data. -/
  ok : Resp → Bool
  /-- A refusal is no acceptance, and not the answer that asks for a retry. -/
  refuses : ∀ maxBodyBytes req resp, handle maxBodyBytes req = .inl resp → ok resp = false ∧ resp ≠ answer .forwardFailed
  answers : ∀ v, ok (answer v) = true ↔ v = .accepted
  fits : ∀ maxBodyBytes req m, handle maxBodyBytes req = .inr m → m.length ≤ maxBodyBytes

def Transport.http : Transport where
  Req := HttpRequest
  Resp := HttpResponse
  handle := ArchivAgent.handle
  answer := httpAnswer
  ok resp := resp.status = 200
  refuses := by
    intro maxBodyBytes req resp refused
    unfold ArchivAgent.handle at refused
    split at refused
    · cases refused
      decide
    · split at refused <;> cases refused
      decide
  answers := by
    intro v
    cases v <;> decide
  fits := by
    intro maxBodyBytes req m submits
    unfold ArchivAgent.handle at submits
    split at submits
    · cases submits
    · split at submits <;> cases submits
      obtain ⟨body, -, within⟩ := Option.bind_eq_some_iff.mp ‹_›
      exact limited_fits within

theorem handleGrpc_respond {maxBodyBytes : Nat} {req : GrpcRequest} {status : Nat} {withMessage : Bool}
    (responds : handleGrpc maxBodyBytes req = .respond status withMessage) : status ∈ [3, 8, 12] ∧ withMessage = false := by
  unfold handleGrpc at responds
  split at responds
  · cases responds
    decide
  split at responds
  · cases responds
    decide
  split at responds
  · cases responds
    decide
  split at responds
  · cases responds
    decide
  split at responds
  · cases responds
    decide
  simp only at responds
  split at responds <;> cases responds
  decide

theorem handleGrpc_onExport {maxBodyBytes : Nat} {req : GrpcRequest} {m : Bytes} (submits : handleGrpc maxBodyBytes req = .submit m) :
    req.OnExport := by
  unfold handleGrpc at submits
  split at submits
  · cases submits
  · rename_i routed
    obtain ⟨post, path⟩ := not_or.mp routed
    split at submits
    · cases submits
    · rename_i typed
      exact ⟨not_not.mp post, not_not.mp path, by simpa using typed⟩

def Transport.grpc : Transport where
  Req := GrpcRequest
  Resp := GrpcResponse
  handle maxBodyBytes req := (handleGrpc maxBodyBytes req).outcome
  answer := grpcAnswer
  ok resp := resp.status = 200 && resp.grpcStatus = some "0"
  refuses := by
    intro maxBodyBytes req resp refused
    cases step : handleGrpc maxBodyBytes req with
    | submit m =>
      rw [step] at refused
      cases refused
    | respond status withMessage =>
      rw [step] at refused
      cases refused
      obtain ⟨known, rfl⟩ := handleGrpc_respond step
      clear step
      revert status
      decide
  answers := by
    intro v
    cases v <;> decide
  fits := by
    intro maxBodyBytes req m submits
    cases step : handleGrpc maxBodyBytes req with
    | respond =>
      rw [step] at submits
      cases submits
    | submit message =>
      rw [step] at submits
      cases submits
      obtain ⟨within, rest, -, framed⟩ := (handleGrpc_submits (handleGrpc_onExport step)).mp step
      rw [framed, List.length_append, grpcFrame_length] at within
      have := Nat.mod_le (maxBodyBytes + 5) (2 ^ 64)
      omega

inductive Protocol where
  | http
  | grpc
  deriving DecidableEq, Repr

def Protocol.transport : Protocol → Transport
  | .http => .http
  | .grpc => .grpc

/-! ### A receiver before its pool -/

structure Edge (t : Transport) where
  plane : DataPlane
  /-- Each request, with the limit in force when its body is read. -/
  arrivals : Table Nat (t.Req × Nat) := ∅

inductive EdgeEvent (t : Transport) where
  | arrive (request : Nat) (req : t.Req) (maxBodyBytes : Nat)
  | plane (e : DataPlaneEvent)

/-- What a step hands to the queue. -/
def DataPlaneEvent.submits : DataPlaneEvent → Option (Nat × Bytes)
  | .serve (.submit i raw) | .serve (.closed i raw) => some (i, raw)
  | _ => none

namespace Edge
variable {t : Transport}

def message (n : Edge t) (i : Nat) : Option Bytes :=
  (n.arrivals.lookup i).bind fun a => (t.handle a.2 a.1).getRight?

def response (n : Edge t) (i : Nat) : Option t.Resp :=
  (n.arrivals.lookup i).bind fun a =>
    match t.handle a.2 a.1 with
    | .inl resp => some resp
    | .inr _ => (n.plane.service.requests.lookup i).bind fun r =>
      match r.answer with
      | .returned v => some (t.answer v)
      | .pending | .gone => none

def step (app : AppState) (n : Edge t) : EdgeEvent t → Option (Edge t)
  | .arrive i req maxBodyBytes =>
    match n.arrivals.lookup i with
    | some _ => none
    | none => some { n with arrivals := n.arrivals.insert i (req, maxBodyBytes) }
  | .plane e =>
    if e.submits.all fun x => n.message x.1 = some x.2 then (n.plane.step app e).map fun plane => { n with plane } else none

def run (app : AppState) (n : Edge t) (es : List (EdgeEvent t)) : Option (Edge t) := Transition.run (step app) n es

def start (t : Transport) (workers : Nat) (spool : Option World) : Edge t where
  plane := .start workers spool

end Edge

/-! ### What a step leaves as it is -/

namespace Service
variable {app : AppState} {s s' : Service} {e : ServiceEvent} {i : Nat} {raw : Bytes}

/-- The bytes of a request come with its submission. -/
theorem step_asks (h : s.step app e = some s') (asked : s'.raw i = some raw) :
    s.raw i = some raw ∨ e = .submit i raw ∨ e = .closed i raw := by
  have set : ∀ {j : Nat} {r : Request}, (s.setRequest j r).raw i = some raw → (i = j ∧ r.raw = raw) ∨ s.raw i = some raw := by
    intro j r here
    obtain ⟨r', found, same⟩ := Option.map_eq_some_iff.mp here
    rcases Table.lookup_of_insert found with ⟨rfl, rfl⟩ | ⟨-, old⟩
    · exact .inl ⟨rfl, same⟩
    · exact .inr (Option.map_eq_some_iff.mpr ⟨r', old, same⟩)
  have kept : ∀ {j : Nat} {r r' : Request}, (s.setRequest j r').raw i = some raw → s.requests.lookup j = some r →
      r'.raw = r.raw → s.raw i = some raw := by
    intro j r r' here found same
    rcases set here with ⟨rfl, mine⟩ | old
    · rw [raw_of_lookup found, ← same, mine]
    · exact old
  cases step_cases h with
  | @submit j bytes =>
    rcases set asked with ⟨rfl, mine⟩ | old
    · exact .inr (.inl (congrArg _ mine))
    · exact .inl old
  | @closed j bytes =>
    rcases set asked with ⟨rfl, mine⟩ | old
    · exact .inr (.inr (congrArg _ mine))
    · exact .inl old
  | panic | die =>
    rw [kill_raw] at asked
    exact .inl asked
  | @overflow w job output world after =>
    rw [kill_raw] at asked
    exact .inl asked
  | @respond w job v r _ found => exact .inl (@kept _ _ { r with reply := .sent v } asked found rfl)
  | answer found | dropped found | hangUp found => exact .inl (kept asked found rfl)
  | _ => exact .inl asked

end Service

theorem DataPlane.step_asks {app : AppState} {n n' : DataPlane} {e : DataPlaneEvent} (h : n.step app e = some n') {i : Nat}
    {raw : Bytes} (asked : n'.service.raw i = some raw) : n.service.raw i = some raw ∨ e.submits = some (i, raw) := by
  cases step_cases h with
  | serve own one =>
    rcases Service.step_asks one asked with old | rfl | rfl
    · exact .inl old
    · exact .inr rfl
    · exact .inr rfl
  | loop => exact .inl asked

namespace Edge
variable {t : Transport} {app : AppState} {n n' : Edge t} {e : EdgeEvent t} {i : Nat}

inductive Step (app : AppState) (n : Edge t) : EdgeEvent t → Edge t → Prop where
  | arrive {i req maxBodyBytes} (fresh : n.arrivals.lookup i = none) :
      Step app n (.arrive i req maxBodyBytes) { n with arrivals := n.arrivals.insert i (req, maxBodyBytes) }
  | plane {e plane} (given : ∀ x ∈ e.submits, n.message x.1 = some x.2) (one : n.plane.step app e = some plane) :
      Step app n (.plane e) { n with plane }

theorem step_cases (h : n.step app e = some n') : Step app n e n' := by
  cases e with
  | arrive i req maxBodyBytes =>
    simp only [step] at h
    split at h
    · cases h
    · cases h
      exact .arrive ‹_›
  | plane e =>
    simp only [step] at h
    split at h
    · rename_i given
      obtain ⟨plane, one, rfl⟩ := Option.map_eq_some_iff.mp h
      exact .plane (fun x member => of_decide_eq_true ((Option.all_eq_true _ _).mp given x member)) one
    · cases h

theorem step_arrived (h : n.step app e = some n') {a : t.Req × Nat} (arrived : n.arrivals.lookup i = some a) :
    n'.arrivals.lookup i = some a := by
  cases step_cases h with
  | arrive fresh =>
    refine (AList.lookup_insert_ne ?_).trans arrived
    rintro rfl
    rw [fresh] at arrived
    cases arrived
  | plane => exact arrived

theorem step_message (h : n.step app e = some n') {m : Bytes} (submitted : n.message i = some m) : n'.message i = some m := by
  obtain ⟨a, arrived, submits⟩ := Option.bind_eq_some_iff.mp submitted
  exact Option.bind_eq_some_iff.mpr ⟨a, step_arrived h arrived, submits⟩

structure Sound (app : AppState) (backlog : Nat × Bytes → Prop) (n : Edge t) : Prop where
  plane : n.plane.Sound app backlog
  asked : ∀ i raw, n.plane.service.raw i = some raw → n.message i = some raw

theorem step_sound {backlog : Nat × Bytes → Prop} (h : n.step app e = some n') (forwards : app.forwardEndpoint ≠ none)
    (sound : n.Sound app backlog) : n'.Sound app backlog := by
  have kept : ∀ i raw, n.plane.service.raw i = some raw → n'.message i = some raw := fun i raw asked =>
    step_message h (sound.asked i raw asked)
  cases step_cases h with
  | arrive => exact ⟨sound.plane, kept⟩
  | plane given one =>
    refine ⟨DataPlane.step_sound one forwards sound.plane, fun i raw asked => ?_⟩
    rcases DataPlane.step_asks one asked with old | submitted
    · exact kept i raw old
    · exact step_message h (given _ submitted)

/-- One request is spooled, answered and drained, another goes to the wrong path. -/
def clientRun : List (EdgeEvent .http) :=
  [.arrive 0 ⟨.post, "/v1/logs", some [0x0A, 0]⟩ 100, .arrive 1 ⟨.post, "/v1/logs", some [0x0A, 0]⟩ 100,
    .arrive 2 ⟨.post, "/v1/traces", some [0x0A, 0]⟩ 100] ++ DataPlane.drainedRun.map .plane

end Edge

end ArchivAgent
