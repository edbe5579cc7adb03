import ArchivAgent.Server.Service

/-!
# The gRPC receiver

`handle_grpc` of `src/grpc.rs` up to the hand-off: the request is refused with a status, or one
message is submitted. `max + 5` is a sum of two `usize`, which wraps in a release build.
-/

namespace ArchivAgent
open Wire (Bytes slice At)

inductive Method where
  | post
  | other
  deriving DecidableEq, Repr

structure GrpcRequest where
  method : Method
  path : String
  contentType : Option Bytes
  body : Bytes
  deriving DecidableEq, Repr

inductive GrpcStep where
  /-- The grpc-status, and whether an empty response message goes before it. -/
  | respond (status : Nat) (withMessage : Bool)
  | submit (message : Bytes)
  deriving DecidableEq, Repr

def logsExportPath : String := "/opentelemetry.proto.collector.logs.v1.LogsService/Export"

def applicationGrpc : Bytes := [97, 112, 112, 108, 105, 99, 97, 116, 105, 111, 110, 47, 103, 114, 112, 99]

/-- `HeaderValue::to_str`: visible ASCII and tabs. -/
def headerStr (v : Bytes) : Option Bytes := if v.all fun b => b = 9 ∨ 32 ≤ b ∧ b < 127 then some v else none

def contentTypeOk (req : GrpcRequest) : Bool :=
  match req.contentType.bind headerStr with
  | some s => applicationGrpc.isPrefixOf s
  | none => false

/-- `Limited::new(body, n).collect()` -/
def limited (n : Nat) (body : Bytes) : Option Bytes := if body.length ≤ n then some body else none

/-- `u32::from_be_bytes` -/
def fromBeBytes : Bytes → Nat
  | [a, b, c, d] => ((a.toNat * 256 + b.toNat) * 256 + c.toNat) * 256 + d.toNat
  | _ => 0

def handleGrpc (maxBodyBytes : Nat) (req : GrpcRequest) : GrpcStep :=
  if req.method ≠ .post ∨ req.path ≠ logsExportPath then .respond 12 false
  else if !contentTypeOk req then .respond 3 false
  else match limited ((maxBodyBytes + 5) % 2 ^ 64) req.body with
    | none => .respond 8 false
    | some framed =>
      if framed.length < 5 then .respond 3 false
      else if framed[0]? ≠ some 0 then .respond 12 false
      else
        let len := fromBeBytes (slice framed 1 5)
        if framed.length < 5 + len then .respond 3 false
        else .submit (slice framed 5 (5 + len))

/-! ### Frames -/

def toBeBytes (n : Nat) : Bytes :=
  [UInt8.ofNat (n / 2 ^ 24), UInt8.ofNat (n / 2 ^ 16), UInt8.ofNat (n / 2 ^ 8), UInt8.ofNat n]

/-- An uncompressed message. -/
def grpcFrame (m : Bytes) : Bytes := 0 :: toBeBytes m.length ++ m

def Framed (body m : Bytes) : Prop := m.length < 2 ^ 32 ∧ body = grpcFrame m

/-- The body is a frame with bytes behind it. -/
def Trailed (body : Bytes) : Prop := ∃ m rest, m.length < 2 ^ 32 ∧ rest ≠ [] ∧ body = grpcFrame m ++ rest

/-- A request the receiver reads the body of. -/
def GrpcRequest.OnExport (req : GrpcRequest) : Prop :=
  req.method = .post ∧ req.path = logsExportPath ∧ contentTypeOk req = true

theorem toBeBytes_fromBeBytes {bs : Bytes} (four : bs.length = 4) : toBeBytes (fromBeBytes bs) = bs ∧ fromBeBytes bs < 2 ^ 32 := by
  obtain ⟨a, b, c, d, rfl⟩ := List.length_eq_four.mp four
  have := a.toNat_lt
  have := b.toNat_lt
  have := c.toNat_lt
  have := d.toNat_lt
  refine ⟨?_, by simp only [fromBeBytes]; omega⟩
  simp only [toBeBytes, fromBeBytes, List.cons.injEq, and_true]
  refine ⟨?_, ?_, ?_, ?_⟩ <;>
  · apply UInt8.toNat_inj.mp
    rw [UInt8.toNat_ofNat']
    omega

theorem fromBeBytes_toBeBytes {n : Nat} (small : n < 2 ^ 32) : fromBeBytes (toBeBytes n) = n := by
  simp only [toBeBytes, fromBeBytes, UInt8.toNat_ofNat']
  omega

theorem grpcFrame_length (m : Bytes) : (grpcFrame m).length = m.length + 5 := rfl

/-- The frame at the start of a body, if it has the whole of one. -/
theorem framed_iff {framed m : Bytes} : (5 ≤ framed.length ∧ framed[0]? = some 0 ∧
      5 + fromBeBytes (slice framed 1 5) ≤ framed.length ∧ m = slice framed 5 (5 + fromBeBytes (slice framed 1 5))) ↔
    ∃ rest, m.length < 2 ^ 32 ∧ framed = grpcFrame m ++ rest := by
  constructor
  · rintro ⟨long, flag, whole, rfl⟩
    obtain ⟨b, bs, rfl⟩ : ∃ b bs, framed = b :: bs := List.exists_cons_of_length_pos (by omega)
    obtain rfl : b = 0 := by simpa using flag
    have header : slice (0 :: bs) 1 5 = bs.take 4 := rfl
    rw [header] at whole ⊢
    rw [List.length_cons] at long whole
    obtain ⟨back, small⟩ := @toBeBytes_fromBeBytes (bs.take 4) (by rw [List.length_take]; omega)
    generalize fromBeBytes (bs.take 4) = len at back small whole
    have message : slice (0 :: bs) 5 (5 + len) = (bs.drop 4).take len := by
      rw [slice, show 5 + len = (4 + len) + 1 by omega, List.take_succ_cons, List.drop_succ_cons, List.drop_take,
        Nat.add_sub_cancel_left]
    have length : ((bs.drop 4).take len).length = len := by
      rw [List.length_take, List.length_drop]
      omega
    refine ⟨(bs.drop 4).drop len, ?_, ?_⟩
    · rw [message, length]
      exact small
    · rw [message, grpcFrame, length, back, List.cons_append, List.cons_append, List.append_assoc, List.take_append_drop,
        List.take_append_drop]
  · rintro ⟨rest, small, rfl⟩
    have header : slice (grpcFrame m ++ rest) 1 5 = toBeBytes m.length := rfl
    rw [header, fromBeBytes_toBeBytes small]
    refine ⟨by rw [List.length_append, grpcFrame_length]; omega, rfl, by rw [List.length_append, grpcFrame_length]; omega, ?_⟩
    have split : At (grpcFrame m ++ rest) 5 m := ⟨0 :: toBeBytes m.length, rest, rfl, rfl⟩
    exact split.slice.symm

theorem handleGrpc_submits {maxBodyBytes : Nat} {req : GrpcRequest} (onExport : req.OnExport) {m : Bytes} :
    handleGrpc maxBodyBytes req = .submit m ↔ req.body.length ≤ (maxBodyBytes + 5) % 2 ^ 64 ∧
      ∃ rest, m.length < 2 ^ 32 ∧ req.body = grpcFrame m ++ rest := by
  obtain ⟨post, path, contentType⟩ := onExport
  rw [← framed_iff]
  unfold handleGrpc
  rw [if_neg (by simp [post, path]), contentType, if_neg (by decide)]
  by_cases fits : req.body.length ≤ (maxBodyBytes + 5) % 2 ^ 64
  swap
  · have refused : limited ((maxBodyBytes + 5) % 2 ^ 64) req.body = none := if_neg fits
    rw [refused]
    simp only [fits, false_and, reduceCtorEq]
  have read : limited ((maxBodyBytes + 5) % 2 ^ 64) req.body = some req.body := if_pos fits
  rw [read]
  simp only [fits, true_and]
  by_cases short : req.body.length < 5
  · simp only [if_pos short, reduceCtorEq, false_iff]
    omega
  rw [if_neg short]
  by_cases flag : req.body[0]? = some 0
  swap
  · simp [flag]
  rw [if_neg (not_not_intro flag)]
  by_cases cut : req.body.length < 5 + fromBeBytes (slice req.body 1 5)
  · simp only [if_pos cut, reduceCtorEq, false_iff]
    omega
  · simp only [if_neg cut, GrpcStep.submit.injEq, flag, true_and]
    constructor
    · rintro rfl
      exact ⟨by omega, by omega, rfl⟩
    · rintro ⟨-, -, rfl⟩
      rfl

/-- Exactly the messages that stand alone in a body are submitted, unless a body within the limit
has bytes behind its message, or the limit wraps. -/
theorem handleGrpc_exact_iff {maxBodyBytes : Nat} (usize : maxBodyBytes < 2 ^ 64) {req : GrpcRequest} (onExport : req.OnExport) :
    (∀ m, handleGrpc maxBodyBytes req = .submit m ↔ Framed req.body m ∧ m.length ≤ maxBodyBytes) ↔
      (maxBodyBytes + 5 < 2 ^ 64 → req.body.length ≤ maxBodyBytes + 5 → ¬ Trailed req.body) ∧
        (2 ^ 64 ≤ maxBodyBytes + 5 → ∀ m, ¬ Framed req.body m) := by
  simp only [handleGrpc_submits onExport]
  by_cases wraps : maxBodyBytes + 5 < 2 ^ 64
  · simp only [Nat.mod_eq_of_lt wraps, wraps, true_implies, Nat.not_le.mpr wraps, false_implies, and_true]
    constructor
    · rintro exact' fits ⟨m, rest, small, nonempty, trailed⟩
      obtain ⟨⟨-, alone⟩, -⟩ := (exact' m).mp ⟨fits, rest, small, trailed⟩
      rw [alone] at trailed
      exact nonempty (List.self_eq_append_right.mp trailed)
    · intro alone m
      constructor
      · rintro ⟨fits, rest, small, framed⟩
        by_cases nonempty : rest = []
        · rw [nonempty, List.append_nil] at framed
          rw [framed, grpcFrame_length] at fits
          exact ⟨⟨small, framed⟩, by omega⟩
        · exact absurd ⟨m, rest, small, nonempty, framed⟩ (alone fits)
      · rintro ⟨⟨small, framed⟩, within⟩
        refine ⟨?_, [], small, by rw [framed, List.append_nil]⟩
        rw [framed, grpcFrame_length]
        omega
  · have tiny : (maxBodyBytes + 5) % 2 ^ 64 < 5 := by omega
    have none : ∀ m, ¬ (req.body.length ≤ (maxBodyBytes + 5) % 2 ^ 64 ∧
        ∃ rest, m.length < 2 ^ 32 ∧ req.body = grpcFrame m ++ rest) := by
      rintro m ⟨fits, rest, -, framed⟩
      rw [framed, List.length_append, grpcFrame_length] at fits
      omega
    simp only [wraps, false_implies, true_and, Nat.le_of_not_lt wraps, true_implies]
    refine forall_congr' fun m => ?_
    rw [iff_false_left (none m)]
    constructor
    · intro nothing framed
      have := framed.1
      exact nothing ⟨framed, by omega⟩
    · exact fun alone framed => alone framed.1

/-- A request with the empty message and one more byte. -/
def trailedRequest : GrpcRequest where
  method := .post
  path := logsExportPath
  contentType := some applicationGrpc
  body := [0, 0, 0, 0, 0, 7]

theorem handleGrpc_exact_iff_trailed :
    (∀ m, handleGrpc 4194304 trailedRequest = .submit m ↔ Framed trailedRequest.body m ∧ m.length ≤ 4194304) ↔
      (4194304 + 5 < 2 ^ 64 → trailedRequest.body.length ≤ 4194304 + 5 → ¬ Trailed trailedRequest.body) ∧
        (2 ^ 64 ≤ 4194304 + 5 → ∀ m, ¬ Framed trailedRequest.body m) :=
  @handleGrpc_exact_iff 4194304 (by decide) trailedRequest ⟨rfl, rfl, rfl⟩

/-- The byte behind the message is dropped, and the message is submitted. -/
theorem handleGrpc_exact_not : ¬ ∀ config : AgentConfig, config.validate = .ok () → config.limits.maxBodyBytes < 2 ^ 64 →
    ∀ req : GrpcRequest, req.OnExport → ∀ m, handleGrpc config.limits.maxBodyBytes req = .submit m ↔
      Framed req.body m ∧ m.length ≤ config.limits.maxBodyBytes := by
  intro exact'
  have framed := (exact' {} rfl (by decide) trailedRequest ⟨rfl, rfl, rfl⟩ []).mp rfl
  exact absurd framed.1.2 (by decide)

end ArchivAgent
