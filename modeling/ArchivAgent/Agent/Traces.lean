import ArchivAgent.Agent.Replay
import ArchivAgent.Ingest.Inputs
import ArchivAgent.Pipeline.Hex

/-!
# Records of one trace

The verdict on a record with a trace id is that of the id: two records of one trace get the same
verdict under one target, and what a target keeps, every higher one keeps.
-/

namespace ArchivAgent
open Wire

/-- `v` is the view of a record of the request, and `src` the last of the trace ids in its message
that have the length of one. -/
def TraceField (raw : Bytes) (v : RecordView) (src : Bytes) : Prop :=
  ∃ views, parseExportLogsRequest raw [] = .ok views ∧ ∃ i : Nat, views[i]? = some v ∧
    ∃ s : Site, (sites raw)[i]? = some s ∧ (((children 9 s.text).map Text.bytes).filter fun bs =>
      bs.length = 16 ∨ bs.length = 32).getLast? = some src

section Field
variable {raw src id : Bytes} {v : RecordView}

theorem TraceField.traceIdBytes (field : TraceField raw v src) : v.traceIdBytes raw = traceBytes src := by
  obtain ⟨views, parsed, i, here, s, stands, last⟩ := field
  have stood := ((parse_sites parsed).2 i v s here stands).traceId
  rw [List.filter_map, List.getLast?_map] at last
  have read : (v.content raw).traceId = some src := stood.trans last
  rw [traceIdBytes_content, read]
  rfl

theorem traceBytes_denotes (denotes : Denotes src id) : traceBytes src = some id := by
  obtain ⟨sixteen, rfl | hex⟩ := denotes
  · exact if_pos sixteen
  · obtain ⟨length, decoded⟩ := decodeHex16_denotes sixteen hex
    rw [traceBytes, if_neg (by omega), if_pos length, decoded]

theorem TraceField.sampleVerdict (field : TraceField raw v src) (denotes : Denotes src id) (crates : Crates) (p : Pipeline) :
    p.sampleVerdict crates v raw =
      if keep crates.xxh64 id (p.policy.resolve (v.namespaceBytes raw) v.severityNumber) then .keep else .drop := by
  unfold Pipeline.sampleVerdict
  rw [field.traceIdBytes, traceBytes_denotes denotes]

end Field

structure TracesNest (crates : Crates) (p p' : Pipeline) : Prop where
  /-- Of two records of one trace, the one under the higher target is kept when the other is. -/
  nested : ∀ {raw raw' v v' src src' id}, TraceField raw v src → TraceField raw' v' src' → Denotes src id → Denotes src' id →
    p.policy.resolve (v.namespaceBytes raw) v.severityNumber ≤ p'.policy.resolve (v'.namespaceBytes raw') v'.severityNumber →
      p.sampleVerdict crates v raw = .keep → p'.sampleVerdict crates v' raw' = .keep
  /-- Under one target they get the same verdict. -/
  equal : ∀ {raw raw' v v' src src' id}, TraceField raw v src → TraceField raw' v' src' → Denotes src id → Denotes src' id →
    p.policy.resolve (v.namespaceBytes raw) v.severityNumber = p'.policy.resolve (v'.namespaceBytes raw') v'.severityNumber →
      p.sampleVerdict crates v raw = p'.sampleVerdict crates v' raw'
  /-- A field of 32 bytes is an id exactly when all of them are digits. -/
  decoded : ∀ {raw v src}, TraceField raw v src → src.length = 32 →
    ((v.traceIdBytes raw).isSome ↔ ∀ b ∈ src, HexDigit b)
  /-- The id in hex is the field again, but for the case. -/
  encoded : ∀ {raw v src id}, TraceField raw v src → src.length = 32 → v.traceIdBytes raw = some id →
    encodeHex id = src.map toAsciiLowercase

theorem traces_nest (crates : Crates) (p p' : Pipeline) : TracesNest crates p p' where
  nested field field' denotes denotes' higher kept := by
    rw [field.sampleVerdict denotes] at kept
    rw [field'.sampleVerdict denotes']
    apply if_pos
    split at kept
    · rename_i low
      unfold keep at low ⊢
      rw [decide_eq_true_eq] at low ⊢
      exact Nat.lt_of_lt_of_le low higher
    · cases kept
  equal field field' denotes denotes' same := by
    rw [field.sampleVerdict denotes, field'.sampleVerdict denotes', same]
  decoded field length := by
    rw [field.traceIdBytes, traceBytes, if_neg (by omega), if_pos length, decodeHex16, if_neg (not_not_intro length)]
    exact decodeHexPairs_isSome (by omega)
  encoded field length read := by
    rw [field.traceIdBytes, traceBytes, if_neg (by omega), if_pos length, decodeHex16, if_neg (not_not_intro length)] at read
    exact decodeHexPairs_encodes (by omega) read

end ArchivAgent
