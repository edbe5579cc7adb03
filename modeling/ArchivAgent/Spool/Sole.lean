import ArchivAgent.Spool.DrainLoop

/-!
# The only drainer

What holds of the spool when no one but the loop drains it: every payload that a push was told
`Ok` for, or that the directory held, has been sent once or waits on disk, never both.
-/

namespace ArchivAgent.Spool
open Wire (Bytes)

namespace World

def Sent (w : World) (seq : Nat) : Prop :=
  ∃ d, w.drains.lookup DrainLoop.call = some d ∧ d.seq = seq ∧ d.sent.isSome = true

/-- On disk, listed, and not sent. -/
def Waits (w : World) (x : Nat × Bytes) : Prop :=
  w.state.pending.lookup x.1 = some x.2.length ∧ w.files.lookup (otlpName x.1) = some x.2 ∧ ¬ w.Sent x.1

structure Sole (backlog : Nat × Bytes → Prop) (w : World) : Prop where
  alone : ∀ id d, w.drains.lookup id = some d → id = DrainLoop.call
  listed : ∀ d, w.drains.lookup DrainLoop.call = some d → w.state.pending.lookup d.seq = some d.len
  backed : ∀ seq len, w.state.pending.lookup seq = some len → w.Sent seq ∨ ∃ content, w.Waits (seq, content)
  read : ∀ d bytes, w.drains.lookup DrainLoop.call = some d → d.phase = .read bytes →
    w.files.lookup (otlpName d.seq) = some bytes
  once : (w.delivered.map (·.1)).Nodup
  gone : ∀ x ∈ w.delivered, x.1 < w.state.nextSeq ∧ (∀ id p, w.pushes.lookup id = some p → p.seq ≠ x.1) ∧
    (w.state.pending.lookup x.1 = none ∨ w.Sent x.1)
  conserved : ∀ x, backlog x ∨ x ∈ w.acked ↔ x ∈ w.delivered ∨ w.Waits x

/-- What the directory held when the spool was opened. -/
def Backlog (sp : Spool) (files : Files) (x : Nat × Bytes) : Prop :=
  sp.state.pending.lookup x.1 = some x.2.length ∧ files.lookup (otlpName x.1) = some x.2

theorem start_sole {io : OpenIo} {files files' : Files} {maxBytes : Nat} {sp : Spool}
    (opened : Spool.open io files maxBytes = .ok (sp, files')) : Sole (Backlog sp files') (start sp files') := by
  obtain ⟨-, swept, recovers⟩ := open_ok opened
  have unsent : ∀ seq, ¬ (start sp files').Sent seq := by
    rintro seq ⟨d, found, -⟩
    cases found
  refine ⟨?_, ?_, fun seq len found => .inr ?_, ?_, List.nodup_nil, ?_, fun x => ?_⟩
  · intro id d found
    cases found
  · intro d found
    cases found
  · obtain ⟨-, content, there, length⟩ := (recovers.pending seq len).mp found
    exact ⟨content, length ▸ found, (swept.otlp seq).trans there, unsent seq⟩
  · intro d bytes found
    cases found
  · intro x member
    cases member
  · constructor
    · rintro (held | acked)
      · exact .inr ⟨held.1, held.2, unsent x.1⟩
      · cases acked
    · rintro (sent | waits)
      · cases sent
      · exact .inl ⟨waits.1, waits.2.1⟩

/-! ### Pushes beside the loop -/

structure Beside (w w' : World) : Prop where
  drains : w'.drains = w.drains
  delivered : w'.delivered = w.delivered
  nextSeq : w.state.nextSeq ≤ w'.state.nextSeq
  files : ∀ seq len, w.state.pending.lookup seq = some len → w'.files.lookup (otlpName seq) = w.files.lookup (otlpName seq)
  pushes : ∀ id p, w'.pushes.lookup id = some p → (∃ q, w.pushes.lookup id = some q ∧ q.seq = p.seq) ∨ p.seq = w.state.nextSeq
  entries : (w'.state.pending = w.state.pending ∧ w'.acked = w.acked) ∨
    ∃ id p, w.pushes.lookup id = some p ∧ w.state.pending.lookup p.seq = none ∧
      w'.state.pending = w.state.pending.insert p.seq p.payload.length ∧ w'.acked = w.acked ++ [(p.seq, p.payload)] ∧
      w'.files.lookup (otlpName p.seq) = some p.payload

section Steps
variable {backlog : Nat × Bytes → Prop} {limit : Nat} {w w' : World} {e : Event}

theorem step_beside (h : w.step e = some w') (mine : e.pushId.isSome = true) (books : Accounted limit w) (held : w.Held) :
    Beside w w' := by
  have pushes : ∀ id p, w'.pushes.lookup id = some p →
      (∃ q, w.pushes.lookup id = some q ∧ q.seq = p.seq) ∨ p.seq = w.state.nextSeq := by
    intro id p found
    rcases pushes_of_step h found with ⟨q, here, same, -⟩ | ⟨next, -⟩
    · exact .inl ⟨q, here, same⟩
    · exact .inr next
  have later := nextSeq_mono h
  cases step_cases h with
  | reserve fresh ok =>
    obtain ⟨-, -, -, rfl⟩ := State.reserve_ok ok
    exact ⟨rfl, rfl, later, fun _ _ _ => rfl, pushes, .inl ⟨rfl, rfl⟩⟩
  | refuse | sync | fail | release => exact ⟨rfl, rfl, later, fun _ _ _ => rfl, pushes, .inl ⟨rfl, rfl⟩⟩
  | create | write =>
    exact ⟨rfl, rfl, later, fun _ _ _ => lookup_insert_tmp_otlp _ _, pushes, .inl ⟨rfl, rfl⟩⟩
  | @rename id p content here phase found =>
    refine ⟨rfl, rfl, later, fun seq len entry => ?_, pushes, .inl ⟨rfl, rfl⟩⟩
    have small := Nat.lt_trans (books.entryBelow seq len entry) books.range
    have apart : otlpName seq ≠ otlpName p.seq := by
      intro same
      have absent := books.unpublished id p here
      rw [← otlpName_injective small (books.push_lt here) same, entry] at absent
      cases absent
    exact (AList.lookup_insert_ne apart).trans (AList.lookup_erase_ne fun same => tmpName_ne_otlpName _ _ same.symm)
  | @publish id p here phase =>
    have stored := held.stored id p here
    rw [Push.Stored, phase] at stored
    exact ⟨rfl, rfl, later, fun _ _ _ => rfl, pushes, .inr ⟨id, p, here, books.unpublished id p here, rfl, rfl, stored⟩⟩
  | _ => cases mine

theorem Beside.sent (beside : Beside w w') (seq : Nat) : w'.Sent seq ↔ w.Sent seq := by
  rw [Sent, Sent, beside.drains]

theorem Beside.lookup (beside : Beside w w') {seq len : Nat} (entry : w.state.pending.lookup seq = some len) :
    w'.state.pending.lookup seq = some len := by
  rcases beside.entries with ⟨same, -⟩ | ⟨id, p, -, absent, grown, -⟩
  · rw [same]
    exact entry
  · have apart : seq ≠ p.seq := by
      rintro rfl
      rw [absent] at entry
      cases entry
    rw [grown, AList.lookup_insert_ne apart]
    exact entry

theorem Beside.waits (beside : Beside w w') {x : Nat × Bytes} (waits : w.Waits x) : w'.Waits x :=
  ⟨beside.lookup waits.1, (beside.files x.1 _ waits.1).trans waits.2.1, fun sent => waits.2.2 ((beside.sent x.1).mp sent)⟩

/-- What waits after a push waited before it, or is what it was told `Ok` for. -/
theorem Beside.waits_of (beside : Beside w w') {x : Nat × Bytes} (waits : w'.Waits x) :
    w.Waits x ∨ x ∈ w'.acked := by
  have unsent := fun sent => waits.2.2 ((beside.sent x.1).mpr sent)
  rcases beside.entries with ⟨same, -⟩ | ⟨id, p, -, absent, grown, acked, stored⟩
  · have entry := same ▸ waits.1
    exact .inl ⟨entry, (beside.files x.1 _ entry).symm.trans waits.2.1, unsent⟩
  · have entry := waits.1
    rw [grown] at entry
    rcases Table.lookup_of_insert entry with ⟨same, -⟩ | ⟨-, entry⟩
    · have content := waits.2.1
      rw [same, stored] at content
      have pushed : x = (p.seq, p.payload) := Prod.ext same (Option.some.inj content).symm
      rw [acked, pushed]
      exact .inr (List.mem_append_right _ (List.mem_singleton_self _))
    · exact .inl ⟨entry, (beside.files x.1 _ entry).symm.trans waits.2.1, unsent⟩

theorem Beside.acked (beside : Beside w w') {x : Nat × Bytes} (old : x ∈ w.acked) : x ∈ w'.acked := by
  rcases beside.entries with ⟨-, same⟩ | ⟨_, _, _, _, _, grown, _⟩
  · rw [same]
    exact old
  · rw [grown]
    exact List.mem_append_left _ old

theorem Sole.beside (sole : Sole backlog w) (beside : Beside w w') : Sole backlog w' := by
  have fresh : ∀ seq, w.Sent seq → (w.state.pending.lookup seq).isSome = true := by
    rintro seq ⟨d, here, rfl, -⟩
    rw [sole.listed d here]
    rfl
  have added : ∀ x ∈ w'.acked, x ∈ w.acked ∨ w'.Waits x := by
    intro x member
    rcases beside.entries with ⟨-, same⟩ | ⟨id, p, -, absent, grown, acked, stored⟩
    · rw [same] at member
      exact .inl member
    · rw [acked] at member
      refine (List.mem_append.mp member).imp_right fun new => ?_
      obtain rfl := List.mem_singleton.mp new
      refine ⟨by rw [grown]; exact AList.lookup_insert _, stored, fun sent => ?_⟩
      have listed := fresh p.seq ((beside.sent _).mp sent)
      rw [absent] at listed
      cases listed
  refine ⟨?_, ?_, fun seq len entry => ?_, ?_, ?_, ?_, fun x => ?_⟩
  · rw [beside.drains]
    exact sole.alone
  · intro d here
    rw [beside.drains] at here
    exact beside.lookup (sole.listed d here)
  · rw [beside.sent]
    rcases beside.entries with ⟨same, -⟩ | ⟨id, p, here, -, grown, acked, -⟩
    · rw [same] at entry
      exact (sole.backed seq len entry).imp_right fun ⟨content, waits⟩ => ⟨content, beside.waits waits⟩
    · rw [grown] at entry
      rcases Table.lookup_of_insert entry with ⟨rfl, -⟩ | ⟨-, entry⟩
      · have member : (p.seq, p.payload) ∈ w'.acked := by
          rw [acked]
          exact List.mem_append_right _ (List.mem_singleton_self _)
        rcases added _ member with old | waits
        · rcases (sole.conserved (p.seq, p.payload)).mp (.inr old) with sent | waits
          · exact absurd rfl ((sole.gone _ sent).2.1 id p here)
          · exact .inr ⟨p.payload, beside.waits waits⟩
        · exact .inr ⟨p.payload, waits⟩
      · exact (sole.backed seq len entry).imp_right fun ⟨content, waits⟩ => ⟨content, beside.waits waits⟩
  · intro d bytes here phase
    rw [beside.drains] at here
    rw [beside.files d.seq d.len (sole.listed d here)]
    exact sole.read d bytes here phase
  · rw [beside.delivered]
    exact sole.once
  · intro x member
    rw [beside.delivered] at member
    obtain ⟨below, pushes, gone⟩ := sole.gone x member
    refine ⟨Nat.lt_of_lt_of_le below beside.nextSeq, fun id p found => ?_, ?_⟩
    · rcases beside.pushes id p found with ⟨q, here, same⟩ | next
      · exact same ▸ pushes id q here
      · exact next ▸ Nat.ne_of_gt below
    · rw [beside.sent]
      refine gone.imp_left fun absent => ?_
      rcases beside.entries with ⟨same, -⟩ | ⟨id, p, here, -, grown, -⟩
      · rw [same]
        exact absent
      · rw [grown, AList.lookup_insert_ne (Ne.symm (pushes id p here))]
        exact absent
  · rw [beside.delivered]
    constructor
    · rintro (held | acked)
      · exact ((sole.conserved x).mp (.inl held)).imp_right beside.waits
      · rcases added x acked with old | waits
        · exact ((sole.conserved x).mp (.inr old)).imp_right beside.waits
        · exact .inr waits
    · rintro (sent | waits)
      · exact ((sole.conserved x).mpr (.inl sent)).imp_right beside.acked
      · rcases beside.waits_of waits with old | acked
        · exact ((sole.conserved x).mpr (.inr old)).imp_right beside.acked
        · exact .inr acked

/-! ### The loop's own steps -/

theorem sent_iff {d : Drain} (here : w.drains.lookup DrainLoop.call = some d) (seq : Nat) :
    w.Sent seq ↔ d.seq = seq ∧ d.sent.isSome = true := by
  constructor
  · rintro ⟨d', found, same, sent⟩
    rw [here] at found
    cases found
    exact ⟨same, sent⟩
  · exact fun ⟨same, sent⟩ => ⟨d, here, same, sent⟩

theorem not_sent (none : w.drains.lookup DrainLoop.call = none) (seq : Nat) : ¬ w.Sent seq := by
  rintro ⟨d, found, -⟩
  rw [none] at found
  cases found

theorem lookup_call (d : Drain) (phase : DrainPhase) :
    (w.setDrain DrainLoop.call d phase).drains.lookup DrainLoop.call = some { d with phase } :=
  AList.lookup_insert _

/-- A step that sends nothing and lists nothing, and touches no file that waits. -/
theorem Sole.moves (sole : Sole backlog w) (state : w'.state = w.state) (delivered : w'.delivered = w.delivered)
    (acked : w'.acked = w.acked) (pushes : w'.pushes = w.pushes) (sent : ∀ seq, w'.Sent seq ↔ w.Sent seq)
    (files : ∀ seq len, w.state.pending.lookup seq = some len → ¬ w.Sent seq →
      w'.files.lookup (otlpName seq) = w.files.lookup (otlpName seq))
    (alone : ∀ id d, w'.drains.lookup id = some d → id = DrainLoop.call)
    (listed : ∀ d, w'.drains.lookup DrainLoop.call = some d → w.state.pending.lookup d.seq = some d.len)
    (read : ∀ d bytes, w'.drains.lookup DrainLoop.call = some d → d.phase = .read bytes →
      w'.files.lookup (otlpName d.seq) = some bytes) : Sole backlog w' := by
  have waits : ∀ x, w'.Waits x ↔ w.Waits x := by
    intro x
    rw [Waits, Waits, state, sent]
    constructor
    · exact fun ⟨entry, file, unsent⟩ => ⟨entry, (files _ _ entry unsent).symm.trans file, unsent⟩
    · exact fun ⟨entry, file, unsent⟩ => ⟨entry, (files _ _ entry unsent).trans file, unsent⟩
  refine ⟨alone, fun d here => state ▸ listed d here, fun seq len entry => ?_, read, delivered ▸ sole.once, fun x member => ?_,
    fun x => ?_⟩
  · rw [sent]
    rw [state] at entry
    exact (sole.backed seq len entry).imp_right fun ⟨content, waiting⟩ => ⟨content, (waits _).mpr waiting⟩
  · rw [state, pushes, sent]
    exact sole.gone x (delivered ▸ member)
  · rw [acked, delivered, waits]
    exact sole.conserved x

theorem alone_insert (sole : Sole backlog w) (d : Drain) {id : Nat} {d' : Drain}
    (found : (w.drains.insert DrainLoop.call d).lookup id = some d') : id = DrainLoop.call := by
  rcases Table.lookup_of_insert found with ⟨same, -⟩ | ⟨-, found⟩
  · exact same
  · exact sole.alone id d' found

theorem Sole.reads (sole : Sole backlog w) {d : Drain} {bytes : Bytes} (here : w.drains.lookup DrainLoop.call = some d)
    (phase : d.phase = .read bytes) : w.Waits (d.seq, bytes) := by
  have unsent : ¬ w.Sent d.seq := by
    rw [sent_iff here, Drain.sent, phase]
    rintro ⟨-, sent⟩
    cases sent
  rcases sole.backed d.seq d.len (sole.listed d here) with sent | ⟨content, waits⟩
  · exact absurd sent unsent
  · have same := (sole.read d bytes here phase).symm.trans waits.2.1
    cases same
    exact waits

theorem Sole.forward (sole : Sole backlog w) (books : Accounted limit w) {d : Drain} {bytes : Bytes}
    (here : w.drains.lookup DrainLoop.call = some d) (phase : d.phase = .read bytes) :
    Sole backlog (w.delivers DrainLoop.call d bytes) := by
  have waiting := sole.reads here phase
  have sent : ∀ seq, (w.delivers DrainLoop.call d bytes).Sent seq ↔ d.seq = seq := by
    intro seq
    rw [sent_iff (d := { d with phase := .forwarded bytes }) (AList.lookup_insert _)]
    exact and_iff_left rfl
  have unsent : ∀ seq, ¬ w.Sent seq := by
    intro seq
    rw [sent_iff here, Drain.sent, phase]
    rintro ⟨-, sent⟩
    cases sent
  have others : ∀ x, (w.delivers DrainLoop.call d bytes).Waits x ↔ w.Waits x ∧ d.seq ≠ x.1 := by
    intro x
    rw [Waits, sent]
    constructor
    · rintro ⟨entry, file, other⟩
      exact ⟨⟨entry, file, unsent x.1⟩, other⟩
    · rintro ⟨⟨entry, file, -⟩, other⟩
      exact ⟨entry, file, other⟩
  have members : ∀ x, x ∈ (w.delivers DrainLoop.call d bytes).delivered ↔ x ∈ w.delivered ∨ x = (d.seq, bytes) := by
    intro x
    rw [delivers, List.mem_append, List.mem_singleton]
  refine ⟨fun id d' found => alone_insert sole _ found, fun d' found => ?_, fun seq len entry => ?_, fun d' b found reads => ?_,
    ?_, fun x member => ?_, fun x => ?_⟩
  · rw [show (w.delivers DrainLoop.call d bytes).drains.lookup DrainLoop.call = _ from AList.lookup_insert _] at found
    cases found
    exact sole.listed d here
  · rw [sent]
    by_cases same : d.seq = seq
    · exact .inl same
    · rcases sole.backed seq len entry with gone | ⟨content, waits⟩
      · exact absurd gone (unsent seq)
      · exact .inr ⟨content, (others _).mpr ⟨waits, same⟩⟩
  · rw [show (w.delivers DrainLoop.call d bytes).drains.lookup DrainLoop.call = _ from AList.lookup_insert _] at found
    cases found
    cases reads
  · rw [show (w.delivers DrainLoop.call d bytes).delivered = w.delivered ++ [(d.seq, bytes)] from rfl, List.map_append]
    refine List.nodup_append.mpr ⟨sole.once, List.nodup_singleton _, ?_⟩
    intro seq sentBefore seq' now same
    obtain ⟨x, member, rfl⟩ := List.mem_map.mp sentBefore
    obtain rfl : seq' = d.seq := List.mem_singleton.mp now
    rcases (sole.gone x member).2.2 with absent | before
    · rw [same, sole.listed d here] at absent
      cases absent
    · exact unsent _ before
  · rw [sent]
    rcases (members x).mp member with old | rfl
    · obtain ⟨below, pushes, gone⟩ := sole.gone x old
      exact ⟨below, pushes, .inl (gone.resolve_right (unsent x.1))⟩
    · exact ⟨books.drainBelow _ d here, fun id p found same => books.drainApart _ d id p here found same.symm, .inr rfl⟩
  · rw [members, others]
    constructor
    · intro held
      rcases (sole.conserved x).mp held with sentBefore | waits
      · exact .inl (.inl sentBefore)
      · by_cases same : d.seq = x.1
        · have file := waits.2.1
          rw [← same, sole.read d bytes here phase] at file
          exact .inl (.inr (Prod.ext same.symm (Option.some.inj file).symm))
        · exact .inr ⟨waits, same⟩
    · rintro ((old | rfl) | ⟨waits, -⟩)
      · exact (sole.conserved x).mpr (.inl old)
      · exact (sole.conserved _).mpr (.inr waiting)
      · exact (sole.conserved x).mpr (.inr waits)

theorem Sole.settle (sole : Sole backlog w) {d : Drain} {bytes : Bytes} (here : w.drains.lookup DrainLoop.call = some d)
    (phase : d.phase = .removed bytes) : Sole backlog (w.settled DrainLoop.call d) := by
  have entry := sole.listed d here
  have pending : (w.settled DrainLoop.call d).state.pending = w.state.pending.erase d.seq := by
    simp only [settled, State.settle, entry, Option.isSome_some, if_true]
  have next : (w.settled DrainLoop.call d).state.nextSeq = w.state.nextSeq := settle_nextSeq _ _ _
  have free : (w.settled DrainLoop.call d).drains.lookup DrainLoop.call = none := AList.lookup_erase _ _
  have unsent := not_sent free
  have wasSent : w.Sent d.seq := (sent_iff here d.seq).mpr ⟨rfl, by rw [Drain.sent, phase]; rfl⟩
  have others : ∀ x, (w.settled DrainLoop.call d).Waits x ↔ w.Waits x := by
    intro x
    rw [Waits, Waits, pending]
    constructor
    · rintro ⟨found, file, -⟩
      obtain ⟨apart, found⟩ := Table.lookup_of_erase found
      exact ⟨found, file, fun sent => apart ((sent_iff here x.1).mp sent).1.symm⟩
    · rintro ⟨found, file, other⟩
      refine ⟨(AList.lookup_erase_ne fun same => other ?_).trans found, file, unsent x.1⟩
      rw [same]
      exact wasSent
  refine ⟨fun id d' found => sole.alone id d' (Table.lookup_of_erase found).2, fun d' found => ?_, fun seq len found => ?_,
    fun d' b found => ?_, sole.once, fun x member => ?_, fun x => ?_⟩
  · rw [free] at found
    cases found
  · rw [pending] at found
    obtain ⟨apart, found⟩ := Table.lookup_of_erase found
    rcases sole.backed seq len found with sent | ⟨content, waits⟩
    · exact absurd ((sent_iff here seq).mp sent).1.symm apart
    · exact .inr ⟨content, (others _).mpr waits⟩
  · rw [free] at found
    cases found
  · obtain ⟨below, pushes, gone⟩ := sole.gone x member
    refine ⟨next ▸ below, pushes, .inl ?_⟩
    rw [pending]
    by_cases same : x.1 = d.seq
    · rw [same]
      exact AList.lookup_erase _ _
    · rw [AList.lookup_erase_ne same]
      exact gone.resolve_right fun sent => same ((sent_iff here x.1).mp sent).1.symm
  · rw [others]
    exact sole.conserved x

theorem Sole.goes (sole : Sole backlog w) (goes : DrainLoop.Goes w e w') (books : Accounted limit w) : Sole backlog w' := by
  cases goes with
  | @select seq len fresh oldest =>
    have unsent : ∀ seq', ¬ World.Sent { w with drains := w.drains.insert DrainLoop.call ⟨seq, len, .selected⟩ } seq' := by
      intro seq'
      rw [sent_iff (d := ⟨seq, len, .selected⟩) (AList.lookup_insert _)]
      rintro ⟨-, sent⟩
      cases sent
    refine sole.moves rfl rfl rfl rfl (fun seq' => iff_of_false (unsent seq') (not_sent fresh seq')) (fun _ _ _ _ => rfl)
      (fun id d found => alone_insert sole _ found) (fun d found => ?_) fun d bytes found reads => ?_
    · rw [show AList.lookup _ _ = _ from AList.lookup_insert _] at found
      cases found
      exact (Table.first_some oldest).1
    · rw [show AList.lookup _ _ = _ from AList.lookup_insert _] at found
      cases found
      cases reads
  | @read d bytes here phase held =>
    refine sole.moves rfl rfl rfl rfl (fun seq' => ?_) (fun _ _ _ _ => rfl) (fun id d found => alone_insert sole _ found)
      (fun d' found => ?_) fun d' b found reads => ?_
    · rw [sent_iff (lookup_call d _), sent_iff here, Drain.sent, Drain.sent, phase]
    · rw [lookup_call] at found
      cases found
      exact sole.listed d here
    · rw [lookup_call] at found
      cases found
      cases reads
      exact held
  | forward here phase => exact sole.forward books here phase
  | @remove d bytes content here phase held =>
    refine sole.moves rfl rfl rfl rfl (fun seq' => ?_) (fun seq len entry unsent => ?_)
      (fun id d found => alone_insert sole _ found) (fun d' found => ?_) fun d' b found reads => ?_
    · rw [sent_iff (lookup_call d _), sent_iff here, Drain.sent, Drain.sent, phase]
    · refine AList.lookup_erase_ne fun same => unsent ((sent_iff here seq).mpr ⟨?_, by rw [Drain.sent, phase]; rfl⟩)
      exact (otlpName_injective (Nat.lt_trans (books.entryBelow seq len entry) books.range)
        (Nat.lt_trans (books.drainBelow _ d here) books.range) same).symm
    · rw [lookup_call] at found
      cases found
      exact sole.listed d here
    · rw [lookup_call] at found
      cases found
      cases reads
  | @removeFailed d bytes here phase =>
    refine sole.moves rfl rfl rfl rfl (fun seq' => ?_) (fun _ _ _ _ => rfl) (fun id d found => alone_insert sole _ found)
      (fun d' found => ?_) fun d' b found reads => ?_
    · rw [sent_iff (lookup_call d _), sent_iff here, Drain.sent, Drain.sent, phase]
    · rw [lookup_call] at found
      cases found
      exact sole.listed d here
    · rw [lookup_call] at found
      cases found
      cases reads

theorem Sole.retried (sole : Sole backlog w) {d : Drain} (here : w.drains.lookup DrainLoop.call = some d)
    (unsent : d.sent = none) : Sole backlog (w.retried DrainLoop.call) := by
  have free : (w.retried DrainLoop.call).drains.lookup DrainLoop.call = none := AList.lookup_erase _ _
  have before : ∀ seq, ¬ w.Sent seq := by
    intro seq
    rw [sent_iff here, unsent]
    rintro ⟨-, sent⟩
    cases sent
  refine sole.moves rfl rfl rfl rfl (fun seq => iff_of_false (not_sent free seq) (before seq)) (fun _ _ _ _ => rfl)
    (fun id d' found => sole.alone id d' (Table.lookup_of_erase found).2) (fun d' found => ?_) fun d' b found => ?_
  · rw [free] at found
    cases found
  · rw [free] at found
    cases found

theorem Sole.ends (sole : Sole backlog w) {outcome : DrainOutcome} (ends : DrainLoop.Ends w e outcome w') : Sole backlog w' := by
  cases ends with
  | idle => exact sole
  | unreadable here phase => exact sole.retried here (by rw [Drain.sent, phase])
  | refuse here phase => exact sole.retried here (by rw [Drain.sent, phase])
  | settle here phase => exact sole.settle here phase

theorem Sole.apart (sole : Sole backlog w) {x : Nat × Bytes} (member : x ∈ w.delivered) {content : Bytes} :
    ¬ w.Waits (x.1, content) := by
  intro waits
  rcases (sole.gone x member).2.2 with absent | sent
  · have entry := waits.1
    rw [absent] at entry
    cases entry
  · exact waits.2.2 sent

end Steps

end World

namespace DrainLoop

structure Sound (backlog : Nat × Bytes → Prop) (s : DrainLoop) : Prop where
  books : ∃ limit, s.world.Accounted limit
  held : s.world.Held
  sole : s.world.Sole backlog
  resting : s.phase ≠ .draining → s.world.drains.lookup call = none

theorem start_sound {io : OpenIo} {files files' : Files} {maxBytes : Nat} {sp : Spool}
    (opened : Spool.open io files maxBytes = .ok (sp, files')) : (start sp files').Sound (World.Backlog sp files') where
  books := ⟨_, World.start_accounted opened⟩
  held := World.start_held sp files'
  sole := World.start_sole opened
  resting waits := absurd rfl waits

section Runs
variable {backlog : Nat × Bytes → Prop} {s s' : DrainLoop}

theorem Ends.free {w w' : World} {e : Event} {outcome : DrainOutcome} (ends : Ends w e outcome w') :
    w'.drains.lookup call = none := by
  cases ends with
  | idle fresh => exact fresh
  | unreadable | refuse | settle => exact AList.lookup_erase _ _

theorem step_sound {e : LoopEvent} (h : s.step e = some s') (sound : s.Sound backlog) : s'.Sound backlog := by
  obtain ⟨limit, books⟩ := sound.books
  cases step_cases h with
  | push mine one =>
    have beside := World.step_beside one mine books sound.held
    refine ⟨⟨limit, World.step_accounted one books⟩, World.step_held one books sound.held, sound.sole.beside beside, ?_⟩
    intro waits
    rw [beside.drains]
    exact sound.resting waits
  | goes draining one goes =>
    exact ⟨⟨limit, World.step_accounted one books⟩, World.step_held one books sound.held, sound.sole.goes goes books,
      fun waits => absurd draining waits⟩
  | ends draining one ends =>
    constructor
    · rw [answered_world]
      exact ⟨limit, World.step_accounted one books⟩
    · rw [answered_world]
      exact World.step_held one books sound.held
    · rw [answered_world]
      exact sound.sole.ends ends
    · rw [answered_world]
      exact fun _ => ends.free
  | wake waiting => exact ⟨⟨limit, books⟩, sound.held, sound.sole, fun waits => absurd rfl waits⟩
  | shutdown waiting =>
    exact ⟨⟨limit, books⟩, sound.held, sound.sole, fun _ => sound.resting (by rw [waiting]; nofun)⟩

theorem run_sound {es : List LoopEvent} (ran : s.run es = some s') (sound : s.Sound backlog) : s'.Sound backlog :=
  Transition.run_invariant (Sound backlog) ran (fun _ _ _ _ one sound => step_sound one sound) sound

end Runs

/-! ### Once -/

end DrainLoop

end ArchivAgent.Spool
