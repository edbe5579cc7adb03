import ArchivAgent.Spool.Crash

/-!
# What survives a crash

`crash_survives_iff`: an acknowledged push survives the crashes that keep the renaming of its
file, and no others; whatever is recovered is whole.
-/

namespace ArchivAgent.Spool
open Wire (Bytes)

namespace Journal

/-- No two names for one file, and new files have new numbers. -/
structure Ordered (j : Journal) : Prop where
  apart : ∀ a b i, j.inode a = some i → j.inode b = some i → a = b
  below : ∀ name n, j.inode name = some (.made n) → n < j.made

/-- The file is certain to hold this, and has no name but the published one. -/
structure Fixed (j : Journal) (seq : Nat) (i : Inode) (content : Bytes) : Prop where
  durable : j.durable i = some content
  apart : ∀ name, j.inode name = some i → name = otlpName seq
  old : ∀ n, i = .made n → n < j.made

/-- A file that the operations on the stray file `seq` do not touch. -/
def Apart (seq : Option Nat) (j : Journal) (i : Inode) : Prop :=
  (∀ n, i = .made n → n < j.made) ∧ ∀ s ∈ seq, j.inode (tmpName s) ≠ some i

/-- What an operation on the stray file `seq` leaves alone. -/
structure Effect (seq : Option Nat) (j j' : Journal) : Prop where
  base : j'.base = j.base
  made : j.made ≤ j'.made
  changes : ∀ c ∈ j.changes, c ∈ j'.changes
  durable : ∀ i, Apart seq j i → j'.durable i = j.durable i
  inode : ∀ name i, Apart seq j i → j'.inode name = some i → j.inode name = some i
  stray : ∀ s, (∀ s' ∈ seq, tmpName s ≠ tmpName s') → j'.inode (tmpName s) = j.inode (tmpName s)
  ordered : j'.Ordered

section Effects
variable {j j' : Journal} {seq : Nat} {target : Option Nat} {name : Bytes} {i : Inode} {content : Bytes}

theorem Effect.refl (ordered : j.Ordered) : Effect target j j :=
  ⟨rfl, Nat.le_refl _, fun _ h => h, fun _ _ => rfl, fun _ _ _ h => h, fun _ _ => rfl, ordered⟩

theorem inode_change (j : Journal) (c : Change) : (j.change c).inode = j.inode.apply c := directory_append

theorem touch_effect (ordered : j.Ordered) (content : Option Bytes) : Effect (some seq) j (j.touch seq content) := by
  unfold touch
  split
  · rename_i i held
    refine ⟨rfl, Nat.le_refl _, fun _ h => h, fun k apart => ?_, fun _ _ _ h => h, fun _ _ => rfl,
      ⟨ordered.apart, ordered.below⟩⟩
    refine Function.update_of_ne ?_ _ _
    rintro rfl
    exact apart.2 seq rfl held
  · exact .refl ordered

theorem create_effect (ordered : j.Ordered) : Effect (some seq) j (j.create seq) := by
  unfold create
  split
  · rename_i i held
    have touched : Effect (some seq) j (j.touch seq none) := touch_effect ordered none
    rw [touch, held] at touched
    exact touched
  · rename_i absent
    have inode : ({ (j.change [(tmpName seq, some (.made j.made))]).setDurable (.made j.made) none with made := j.made + 1 }
        : Journal).inode = Function.update j.inode (tmpName seq) (some (.made j.made)) := inode_change j _
    have held : ∀ name i, Function.update j.inode (tmpName seq) (some (.made j.made)) name = some i →
        (name = tmpName seq ∧ i = .made j.made) ∨ (name ≠ tmpName seq ∧ j.inode name = some i) := by
      intro name i found
      by_cases here : name = tmpName seq
      · rw [here, Function.update_self] at found
        exact .inl ⟨here, (Option.some.inj found).symm⟩
      · rw [Function.update_of_ne here] at found
        exact .inr ⟨here, found⟩
    have unmade : ∀ name, j.inode name ≠ some (.made j.made) := fun name found =>
      Nat.lt_irrefl _ (ordered.below name j.made found)
    refine ⟨rfl, Nat.le_succ _, fun _ h => List.mem_append_left _ h, fun k apart => ?_, fun name k apart found => ?_,
      fun s other => ?_, ⟨fun a b k ha hb => ?_, fun name n found => ?_⟩⟩
    · refine Function.update_of_ne ?_ _ _
      rintro rfl
      exact Nat.lt_irrefl _ (apart.1 j.made rfl)
    · rw [inode] at found
      rcases held name k found with ⟨-, rfl⟩ | ⟨-, found⟩
      · exact absurd (apart.1 j.made rfl) (Nat.lt_irrefl _)
      · exact found
    · rw [inode, Function.update_of_ne (other seq rfl)]
    · rw [inode] at ha hb
      rcases held a k ha with ⟨rfl, rfl⟩ | ⟨-, ha⟩
      · rcases held b _ hb with ⟨rfl, -⟩ | ⟨-, hb⟩
        · rfl
        · exact absurd hb (unmade b)
      · rcases held b k hb with ⟨rfl, rfl⟩ | ⟨-, hb⟩
        · exact absurd ha (unmade a)
        · exact ordered.apart a b k ha hb
    · rw [inode] at found
      rcases held name _ found with ⟨-, same⟩ | ⟨-, found⟩
      · cases same
        exact Nat.lt_succ_self _
      · exact Nat.lt_succ_of_lt (ordered.below name n found)

theorem inode_renameOf {k : Inode} (found : (j.change (renameOf seq i)).inode name = some k) :
    (name = otlpName seq ∧ k = i) ∨ (name ≠ tmpName seq ∧ j.inode name = some k) := by
  rw [inode_change] at found
  simp only [renameOf, Entries.apply] at found
  by_cases published : name = otlpName seq
  · rw [published, Function.update_self] at found
    exact .inl ⟨published, (Option.some.inj found).symm⟩
  · rw [Function.update_of_ne published] at found
    by_cases stray : name = tmpName seq
    · rw [stray, Function.update_self] at found
      cases found
    · rw [Function.update_of_ne stray] at found
      exact .inr ⟨stray, found⟩

theorem rename_effect (ordered : j.Ordered) : Effect (some seq) j (j.rename seq) := by
  unfold rename
  split
  · rename_i i held
    refine ⟨rfl, Nat.le_refl _, fun _ h => List.mem_append_left _ h, fun _ _ => rfl, fun name k apart found => ?_,
      fun s other => ?_, ⟨fun a b k ha hb => ?_, fun name n found => ?_⟩⟩
    · rcases inode_renameOf found with ⟨-, rfl⟩ | ⟨-, found⟩
      · exact absurd held (apart.2 seq rfl)
      · exact found
    · rw [inode_change]
      simp only [renameOf, Entries.apply]
      rw [Function.update_of_ne (tmpName_ne_otlpName _ _), Function.update_of_ne (other seq rfl)]
    · rcases inode_renameOf ha with ⟨published, same⟩ | ⟨notStray, old⟩
      · rcases inode_renameOf hb with ⟨also, -⟩ | ⟨notStray, old⟩
        · rw [published, also]
        · exact absurd (ordered.apart _ _ _ old (same ▸ held)) notStray
      · rcases inode_renameOf hb with ⟨-, same⟩ | ⟨-, older⟩
        · exact absurd (ordered.apart _ _ _ old (same ▸ held)) notStray
        · exact ordered.apart a b k old older
    · rcases inode_renameOf found with ⟨-, same⟩ | ⟨-, found⟩
      · exact ordered.below _ n (held.trans (congrArg some same.symm))
      · exact ordered.below name n found
  · exact .refl ordered

theorem inode_removalOf (found : (j.change (removalOf seq)).inode name = some i) : j.inode name = some i := by
  rw [inode_change] at found
  simp only [removalOf, Entries.apply] at found
  by_cases here : name = otlpName seq
  · rw [here, Function.update_self] at found
    cases found
  · rwa [Function.update_of_ne here] at found

theorem removal_effect (ordered : j.Ordered) : Effect target j (j.change (removalOf seq)) := by
  refine ⟨rfl, Nat.le_refl _, fun _ h => List.mem_append_left _ h, fun _ _ => rfl, fun _ _ _ => inode_removalOf,
    fun s _ => ?_, ⟨fun a b k ha hb => ?_, fun name n found => ?_⟩⟩
  · rw [inode_change]
    exact Function.update_of_ne (tmpName_ne_otlpName _ _) _ _
  · exact ordered.apart a b k (inode_removalOf ha) (inode_removalOf hb)
  · exact ordered.below name n (inode_removalOf found)

theorem Fixed.effect (fixed : j.Fixed seq i content) (effect : Effect target j j') : j'.Fixed seq i content := by
  have apart : Apart target j i :=
    ⟨fixed.old, fun s _ held => tmpName_ne_otlpName _ _ (fixed.apart _ held)⟩
  exact ⟨(effect.durable i apart).trans fixed.durable, fun name found => fixed.apart name (effect.inode name i apart found),
    fun n same => Nat.lt_of_lt_of_le (fixed.old n same) effect.made⟩

/-- The file that was synced under its stray name has the published name alone. -/
theorem rename_fixed (ordered : j.Ordered) (held : j.inode (tmpName seq) = some i) (durable : j.durable i = some content) :
    (j.change (renameOf seq i)).Fixed seq i content where
  durable := durable
  apart name named := by
    rcases inode_renameOf named with ⟨published, -⟩ | ⟨notStray, old⟩
    · exact published
    · exact absurd (ordered.apart _ _ i old held) notStray
  old n same := ordered.below _ n (held.trans (congrArg some same))

end Effects

end Journal

def Push.Filed (j : Journal) (p : Push) : Prop :=
  match p.phase with
  | .reserved | .failed _ => True
  | .writing _ => ∃ i, j.inode (tmpName p.seq) = some i
  | .synced => ∃ i, j.inode (tmpName p.seq) = some i ∧ j.durable i = some p.payload
  | .renamed => ∃ i, Journal.renameOf p.seq i ∈ j.changes ∧ j.Fixed p.seq i p.payload

/-- The operations on another push's stray file change nothing of it. -/
theorem Push.Filed.effect {j j' : Journal} {p : Push} {target : Option Nat} (filed : p.Filed j) (ordered : j.Ordered)
    (effect : Journal.Effect target j j') (other : ∀ s ∈ target, tmpName p.seq ≠ tmpName s) : p.Filed j' := by
  have stray := effect.stray p.seq other
  unfold Push.Filed at filed ⊢
  split <;> rename_i phase <;> rw [phase] at filed
  · trivial
  · trivial
  · obtain ⟨i, held⟩ := filed
    exact ⟨i, stray.trans held⟩
  · obtain ⟨i, held, durable⟩ := filed
    refine ⟨i, stray.trans held, (effect.durable i ⟨?_, ?_⟩).trans durable⟩
    · rintro n rfl
      exact ordered.below _ n held
    · exact fun s member same => other s member (ordered.apart _ _ i held same)
  · obtain ⟨i, member, fixed⟩ := filed
    exact ⟨i, effect.changes _ member, fixed.effect effect⟩

def World.strayOf (s : World) : Event → Option Nat
  | .create id | .write id _ | .sync id | .rename id => (s.pushes.lookup id).map (·.seq)
  | _ => none

theorem World.strayOf_some {s : World} {e : Event} {seq : Nat} (stray : seq ∈ s.strayOf e) :
    ∃ id p, e.pushId = some id ∧ s.pushes.lookup id = some p ∧ p.seq = seq := by
  cases e with
  | create id | write id | sync id | rename id =>
    obtain ⟨p, here, same⟩ := Option.map_eq_some_iff.mp stray
    exact ⟨id, p, rfl, here, same⟩
  | _ => cases stray

theorem Journal.record_effect {j : Journal} (ordered : j.Ordered) (s : World) (e : Event) :
    Effect (s.strayOf e) j (j.record s e) := by
  cases e with
  | create id =>
    simp only [World.strayOf, record]
    cases s.pushes.lookup id with
    | none => exact .refl ordered
    | some p => exact create_effect ordered
  | write id n =>
    simp only [World.strayOf, record]
    cases s.pushes.lookup id with
    | none => exact .refl ordered
    | some p => exact touch_effect ordered _
  | sync id =>
    simp only [World.strayOf, record]
    cases s.pushes.lookup id with
    | none => exact .refl ordered
    | some p => exact touch_effect ordered _
  | rename id =>
    simp only [World.strayOf, record]
    cases s.pushes.lookup id with
    | none => exact .refl ordered
    | some p => exact rename_effect ordered
  | remove id =>
    simp only [World.strayOf, record]
    cases s.drains.lookup id with
    | none => exact .refl ordered
    | some d => exact removal_effect ordered
  | push | fail | publish | release | select | read | unreadable | forward | refuse | removeFailed | settle =>
    exact .refl ordered

/-! ### What the changes of the directory are -/

inductive Known (s : World) (j : Journal) : Change → Prop where
  | stray {c} (named : ∀ e ∈ c, tmpSuffix <:+ e.1) : Known s j c
  | renamed {seq i payload} (issued : (seq, payload) ∈ s.issued) (fixed : j.Fixed seq i payload) :
      Known s j (Journal.renameOf seq i)
  /-- A file is removed when all that was acknowledged of it has been delivered. -/
  | removed {seq} (below : seq < s.state.nextSeq) (apart : ∀ id p, s.pushes.lookup id = some p → p.seq ≠ seq)
      (sent : ∀ payload, (seq, payload) ∈ s.acked → (seq, payload) ∈ s.delivered) : Known s j (Journal.removalOf seq)

theorem Known.step {s s' : World} {e : Event} {j j' : Journal} {c : Change} {target : Option Nat}
    (known : Known s j c) (h : s.step e = some s') (effect : Journal.Effect target j j') : Known s' j' c := by
  cases known with
  | stray named => exact .stray named
  | renamed issued fixed => exact .renamed (World.issued_mono h _ issued) (fixed.effect effect)
  | removed below apart sent =>
    refine .removed (Nat.lt_of_lt_of_le below (World.nextSeq_mono h)) (fun id p found => ?_) fun payload acked => ?_
    · rcases World.pushes_of_step h found with ⟨q, here, same, -⟩ | ⟨new, -⟩
      · exact same ▸ apart id q here
      · exact new ▸ Nat.ne_of_gt below
    · rcases World.acked_of_step h _ acked with old | ⟨id, p, here, -, same⟩
      · exact World.delivered_mono h _ (sent payload old)
      · exact absurd (congrArg Prod.fst same).symm (apart id p here)

/-- What the directory is sure to have, of what the spool's calls have done. -/
structure Journaled (s : Disk) : Prop where
  ordered : s.log.Ordered
  known : ∀ c ∈ s.log.changes, Known s.world s.log c
  filed : ∀ id p, s.world.pushes.lookup id = some p → p.Filed s.log
  issued : ∀ id p, s.world.pushes.lookup id = some p → (p.seq, p.payload) ∈ s.world.issued
  acked : ∀ x ∈ s.world.acked, x ∈ s.world.issued ∧ ∃ i, Journal.renameOf x.1 i ∈ s.log.changes
  found : ∀ seq content, s.log.base.lookup (otlpName seq) = some content →
    s.log.Fixed seq (.found (otlpName seq)) content
  unissued : ∀ x ∈ s.world.issued, s.log.base.lookup (otlpName x.1) = none
  above : ∀ seq, s.world.state.nextSeq ≤ seq → seq < 2 ^ 64 → s.log.base.lookup (otlpName seq) = none

section Steps
variable {limit : Nat} {s s' : Disk} {e : Event}

/-- The push that takes the step has its file where its phase says. -/
theorem Journaled.filed_own (journaled : Journaled s) (held : s.world.Held) {world : World}
    (h : s.world.step e = some world) {id : Nat} (mine : e.pushId = some id) {p : Push}
    (found : world.pushes.lookup id = some p) : p.Filed (s.log.record s.world e) := by
  cases World.step_cases h with
  | reserve fresh ok =>
    cases mine
    rw [World.reserved, AList.lookup_insert] at found
    cases found
    trivial
  | refuse fresh failed =>
    cases mine
    rw [fresh] at found
    cases found
  | @create _ q here phase =>
    cases mine
    rw [World.setPush, AList.lookup_insert] at found
    cases found
    simp only [Journal.record, here, Option.map_some, Option.getD_some, Push.Filed, Journal.create]
    split
    · exact ⟨_, ‹_›⟩
    · have changed := congrFun (Journal.inode_change s.log [(tmpName q.seq, some (.made s.log.made))]) (tmpName q.seq)
      exact ⟨.made s.log.made, changed.trans (Function.update_self _ _ _)⟩
  | @write _ q m n here phase more within =>
    cases mine
    rw [World.setPush, AList.lookup_insert] at found
    cases found
    have filed := journaled.filed _ q here
    rw [Push.Filed, phase] at filed
    obtain ⟨i, inode⟩ := filed
    simp only [Journal.record, here, Option.map_some, Option.getD_some, Push.Filed, Journal.touch, inode]
    exact ⟨i, inode⟩
  | @sync _ q here phase =>
    cases mine
    rw [World.setPush, AList.lookup_insert] at found
    cases found
    have stored := held.stored _ q here
    have filed := journaled.filed _ q here
    rw [Push.Stored, phase] at stored
    rw [Push.Filed, phase] at filed
    obtain ⟨i, inode⟩ := filed
    simp only [Journal.record, here, Option.map_some, Option.getD_some, Push.Filed, Journal.touch, inode, stored]
    refine ⟨i, inode, (Function.update_self _ _ _).trans ?_⟩
    rw [List.take_length]
  | @rename _ q content here phase stored =>
    cases mine
    rw [World.setPush, AList.lookup_insert] at found
    cases found
    have filed := journaled.filed _ q here
    rw [Push.Filed, phase] at filed
    obtain ⟨i, inode, durable⟩ := filed
    simp only [Journal.record, here, Option.map_some, Option.getD_some, Push.Filed, Journal.rename, inode]
    exact ⟨i, List.mem_append_right _ (List.mem_singleton_self _), Journal.rename_fixed journaled.ordered inode durable⟩
  | fail here =>
    cases mine
    rw [World.setPush, AList.lookup_insert] at found
    cases found
    trivial
  | publish here | release here =>
    cases mine
    exact absurd rfl (Table.lookup_of_erase found).1
  | _ => cases mine

theorem Journaled.known_new (journaled : Journaled s) (books : s.world.Accounted limit) (held : s.world.Held)
    {world : World} (h : s.world.step e = some world) :
    ∀ c ∈ (s.log.record s.world e).changes, c ∈ s.log.changes ∨ Known world (s.log.record s.world e) c := by
  intro c member
  cases World.step_cases h with
  | @create _ q here phase =>
    simp only [Journal.record, here, Option.map_some, Option.getD_some, Journal.create] at member
    split at member
    · exact .inl member
    · refine (List.mem_append.mp member).imp_right fun new => .stray fun e inside => ?_
      rw [List.mem_singleton.mp new] at inside
      rw [List.mem_singleton.mp inside]
      exact tmpName_suffix q.seq
  | write here | sync here =>
    simp only [Journal.record, here, Option.map_some, Option.getD_some, Journal.touch] at member
    split at member <;> exact .inl member
  | @rename id q content here phase stored =>
    have filed := journaled.filed id q here
    rw [Push.Filed, phase] at filed
    obtain ⟨i, inode, durable⟩ := filed
    simp only [Journal.record, here, Option.map_some, Option.getD_some, Journal.rename, inode] at member ⊢
    refine (List.mem_append.mp member).imp_right fun new => ?_
    rw [List.mem_singleton.mp new]
    exact .renamed (journaled.issued id q here) (Journal.rename_fixed journaled.ordered inode durable)
  | @remove id d bytes content here phase stored =>
    simp only [Journal.record, here, Option.map_some, Option.getD_some] at member ⊢
    refine (List.mem_append.mp member).imp_right fun new => ?_
    rw [List.mem_singleton.mp new]
    refine .removed (books.drainBelow id d here) (fun i p found same => books.drainApart id d i p here found same.symm)
      fun payload acked => ?_
    have read := held.read _ acked id d here rfl bytes (by rw [Drain.bytes, phase]; rfl)
    have sent := held.sent id d here bytes (by rw [Drain.sent, phase]; rfl)
    exact read ▸ sent
  | _ => exact .inl member

theorem step_journaled (h : s.step e = some s') (books : s.world.Accounted limit) (held : s.world.Held)
    (journaled : Journaled s) : Journaled s' := by
  obtain ⟨world, one, rfl⟩ := Option.map_eq_some_iff.mp h
  have effect := Journal.record_effect journaled.ordered s.world e
  refine ⟨effect.ordered, fun c member => ?_, fun id p found => ?_, fun id p found => ?_, fun x member => ?_,
    fun seq content found => ?_, fun x member => ?_, fun seq above small => ?_⟩
  · rcases journaled.known_new books held one c member with old | new
    · exact (journaled.known c old).step one effect
    · exact new
  · by_cases mine : e.pushId = some id
    · exact journaled.filed_own held one mine found
    · have same := World.pushes_frame one mine
      rw [found] at same
      refine (journaled.filed id p same.symm).effect journaled.ordered effect fun seq target equal => mine ?_
      obtain ⟨id', q, calls, here, rfl⟩ := World.strayOf_some target
      have one := tmpName_injective (books.push_lt same.symm) (books.push_lt here) equal
      rw [calls, books.pushApart id id' p q same.symm here one]
  · rcases World.pushes_of_step one found with ⟨q, here, seq, payload⟩ | ⟨-, -, new, -⟩
    · exact World.issued_mono one _ (seq ▸ payload ▸ journaled.issued id q here)
    · exact new
  · rcases World.acked_of_step one x member with old | ⟨id, p, here, phase, rfl⟩
    · obtain ⟨issued, i, renamed⟩ := journaled.acked x old
      exact ⟨World.issued_mono one x issued, i, effect.changes _ renamed⟩
    · have filed := journaled.filed id p here
      rw [Push.Filed, phase] at filed
      obtain ⟨i, renamed, -⟩ := filed
      exact ⟨World.issued_mono one _ (journaled.issued id p here), i, effect.changes _ renamed⟩
  · rw [effect.base] at found
    exact (journaled.found seq content found).effect effect
  · rw [effect.base]
    rcases World.issued_of_step one with ⟨same, -⟩ | ⟨payload, grown, next⟩
    · exact journaled.unissued x (same ▸ member)
    · rcases List.mem_append.mp (grown ▸ member) with old | new
      · exact journaled.unissued x old
      · rw [List.mem_singleton.mp new]
        exact journaled.above _ (Nat.le_refl _) books.range
  · rw [effect.base]
    exact journaled.above seq (Nat.le_trans (World.nextSeq_mono one) above) small

theorem run_journaled {es : List Event} (h : s.run es = some s') (books : s.world.Accounted limit) (held : s.world.Held)
    (journaled : Journaled s) : s'.world.Held ∧ s'.world.Accounted limit ∧ Journaled s' := by
  refine Transition.run_invariant (fun s => s.world.Held ∧ s.world.Accounted limit ∧ Journaled s) h
    (fun _ _ _ _ one kept => ?_) ⟨held, books, journaled⟩
  obtain ⟨world, step, rfl⟩ := Option.map_eq_some_iff.mp one
  exact ⟨World.step_held step kept.2.1 kept.1, World.step_accounted step kept.2.1,
    step_journaled one kept.2.1 kept.1 kept.2.2⟩

end Steps

section Runs
variable {io io' : OpenIo} {files files' left left' : Files} {maxBytes maxBytes' : Nat} {sp sp' : Spool}
variable {es : List Event} {s : Disk} {kept : List Change}

theorem start_inode {name : Bytes} {i : Inode} (held : (Disk.start sp files files').log.inode name = some i) :
    i = .found name := by
  rcases directory_some held with ⟨same, -⟩ | ⟨c, member, inside⟩
  · exact same
  · obtain ⟨n, -, rfl⟩ := List.mem_map.mp member
    cases List.mem_singleton.mp inside

theorem start_journaled (opened : Spool.open io files maxBytes = .ok (sp, files')) :
    Journaled (Disk.start sp files files') := by
  obtain ⟨-, swept, recovers⟩ := open_ok opened
  refine ⟨⟨fun a b i ha hb => ?_, fun name n held => (nomatch start_inode held)⟩, fun c member => ?_,
    fun _ _ found => (nomatch found), fun _ _ found => (nomatch found), fun _ member => (nomatch member),
    fun seq content found => ⟨found, fun name held => ?_, fun _ same => (nomatch same)⟩, fun _ member => (nomatch member),
    fun seq above small => ?_⟩
  · exact Inode.found.inj ((start_inode ha).symm.trans (start_inode hb))
  · obtain ⟨name, inside, rfl⟩ := List.mem_map.mp member
    obtain ⟨present, gone⟩ := List.mem_filter.mp inside
    refine .stray fun e member => ?_
    rw [List.mem_singleton.mp member]
    rcases swept name with same | ⟨stray, -⟩
    · rw [same] at gone
      have absent := AList.lookup_eq_none.mp (Option.isNone_iff_eq_none.mp gone)
      exact absurd (AList.mem_keys.mpr present) absent
    · exact stray
  · exact (Inode.found.inj (start_inode held)).symm
  · cases found : files.lookup (otlpName seq) with
    | none => exact found
    | some content =>
      have entry := (recovers.pending seq content.length).mpr ⟨small, content, found, rfl⟩
      exact absurd (recovers.below seq _ entry) (Nat.not_lt_of_le above)

/-- A change that gives or takes a published name renames or removes its file. -/
theorem Known.of_mem {w : World} {j : Journal} {limit : Nat} (books : w.Accounted limit) {c : Change} (known : Known w j c)
    {seq : Nat} (small : seq < 2 ^ 64) {i : Option Inode} (inside : (otlpName seq, i) ∈ c) :
    (∃ k payload, i = some k ∧ c = Journal.renameOf seq k ∧ (seq, payload) ∈ w.issued ∧ j.Fixed seq k payload) ∨
      (i = none ∧ ∀ payload, (seq, payload) ∈ w.acked → (seq, payload) ∈ w.delivered) := by
  cases known with
  | stray named => exact absurd (named _ inside) (otlpName_not_tmp seq)
  | @renamed other k payload issued fixed =>
    rcases List.mem_cons.mp inside with stray | published
    · exact absurd (congrArg Prod.fst stray).symm (tmpName_ne_otlpName _ _)
    · have published := List.mem_singleton.mp published
      have bound := Nat.lt_trans (books.issuedBelow _ issued) books.range
      obtain rfl := otlpName_injective small bound (congrArg Prod.fst published)
      exact .inl ⟨k, payload, congrArg Prod.snd published, rfl, issued, fixed⟩
  | @removed other below apart sent =>
    have same := List.mem_singleton.mp inside
    obtain rfl := otlpName_injective small (Nat.lt_trans below books.range) (congrArg Prod.fst same)
    exact .inr ⟨congrArg Prod.snd same, sent⟩

theorem Journaled.left_content {limit : Nat} (journaled : Journaled s) (books : s.world.Accounted limit)
    (leaves : s.log.Leaves kept left) {seq : Nat} (small : seq < 2 ^ 64)
    {content : Bytes} (found : left.lookup (otlpName seq) = some content) :
    s.log.base.lookup (otlpName seq) = some content ∨
      ((seq, content) ∈ s.world.issued ∧ ∃ i, Journal.renameOf seq i ∈ kept) := by
  have here := leaves.2 (otlpName seq)
  cases held : directory s.log.base kept (otlpName seq) with
  | none =>
    rw [held] at here
    exact absurd (here.symm.trans found) nofun
  | some i =>
    rw [held] at here
    obtain ⟨content', found', certain⟩ := here
    cases found'.symm.trans found
    rcases directory_some held with ⟨rfl, present⟩ | ⟨c, member, inside⟩
    · obtain ⟨old, based⟩ := Option.isSome_iff_exists.mp present
      rw [certain old (journaled.found seq old based).durable]
      exact .inl based
    · have known := journaled.known c (leaves.1.subset member)
      rcases known.of_mem books small inside with ⟨k, payload, same, rfl, issued, fixed⟩ | ⟨none, -⟩
      · cases same
        rw [certain payload fixed.durable]
        exact .inr ⟨issued, i, member⟩
      · cases none

/-- The crash leaves the acknowledged payloads to be recovered, and no other than whole ones. -/
structure Survives (s : Disk) (sp : Spool) (files : Files) : Prop where
  recovered : ∀ x ∈ s.world.acked, x ∉ s.world.delivered →
    sp.state.pending.lookup x.1 = some x.2.length ∧ files.lookup (otlpName x.1) = some x.2
  whole : ∀ seq len, sp.state.pending.lookup seq = some len → ∃ content, files.lookup (otlpName seq) = some content ∧
    content.length = len ∧ (s.log.base.lookup (otlpName seq) = some content ∨ (seq, content) ∈ s.world.issued)

theorem crash_survives_iff (opened : Spool.open io files maxBytes = .ok (sp, files'))
    (ran : (Disk.start sp files files').run es = some s) (leaves : s.log.Leaves kept left)
    (reopened : Spool.open io' left maxBytes' = .ok (sp', left')) :
    Survives s sp' left' ↔
      ∀ x ∈ s.world.acked, x ∉ s.world.delivered → ∃ i, Journal.renameOf x.1 i ∈ kept := by
  obtain ⟨held, books, journaled⟩ := run_journaled ran (World.start_accounted opened) (World.start_held sp files')
    (start_journaled opened)
  obtain ⟨-, swept, recovers⟩ := open_ok reopened
  constructor
  · intro survives x acked undelivered
    have small := Nat.lt_trans (held.ackedBelow x acked) books.range
    have found := (swept.otlp x.1).symm.trans (survives.recovered x acked undelivered).2
    rcases journaled.left_content books leaves small found with based | ⟨-, renamed⟩
    · rw [journaled.unissued x (journaled.acked x acked).1] at based
      cases based
    · exact renamed
  · intro renamed
    refine ⟨fun x acked undelivered => ?_, fun seq len entry => ?_⟩
    · obtain ⟨issued, -⟩ := journaled.acked x acked
      have small := Nat.lt_trans (held.ackedBelow x acked) books.range
      obtain ⟨i, member⟩ := renamed x acked undelivered
      have present : (directory s.log.base kept (otlpName x.1)).isSome = true := by
        refine directory_isSome (fun c inKept e inside same => ?_) ⟨_, member, (otlpName x.1, some i), by simp [Journal.renameOf], rfl⟩
        obtain ⟨name, target⟩ := e
        cases same
        rcases (journaled.known c (leaves.1.subset inKept)).of_mem books small inside with ⟨k, -, rfl, -⟩ | ⟨-, sent⟩
        · rfl
        · exact absurd (sent x.2 acked) undelivered
      obtain ⟨content, found⟩ : ∃ content, left.lookup (otlpName x.1) = some content := by
        obtain ⟨k, inode⟩ := Option.isSome_iff_exists.mp present
        have here := leaves.2 (otlpName x.1)
        rw [inode] at here
        exact here.imp fun _ => And.left
      have same : content = x.2 := by
        rcases journaled.left_content books leaves small found with based | ⟨also, -⟩
        · rw [journaled.unissued x issued] at based
          cases based
        · exact congrArg Prod.snd (List.inj_on_of_nodup_map books.issuedOnce also issued rfl)
      rw [same] at found
      exact ⟨(recovers.pending x.1 x.2.length).mpr ⟨small, x.2, found, rfl⟩, (swept.otlp x.1).trans found⟩
    · obtain ⟨small, content, found, length⟩ := (recovers.pending seq len).mp entry
      exact ⟨content, (swept.otlp seq).trans found, length, (journaled.left_content books leaves small found).imp_right And.left⟩

end Runs

def pushRun : List Event := [.push 0 [7], .create 0, .write 0 1, .sync 0, .rename 0, .publish 0]

def pushed : Disk := ((Disk.start ⟨10, 0, 0, ∅⟩ ∅ ∅).run pushRun).get (by decide +kernel)

theorem pushed_run : (Disk.start ⟨10, 0, 0, ∅⟩ ∅ ∅).run pushRun = some pushed := (Option.some_get _).symm

theorem pushed_changes : pushed.log.changes = [[(tmpName 0, some (.made 0))], Journal.renameOf 0 (.made 0)] := by decide +kernel

theorem pushed_base : pushed.log.base = ∅ := AList.ext (by decide +kernel)

theorem pushed_acked : pushed.world.acked = [(0, [7])] ∧ pushed.world.delivered = [] := by decide +kernel

/-- The one file it leaves, when the crash keeps every change. -/
def pushedFiles : Files := (∅ : Files).insert (otlpName 0) [7]

theorem pushed_leaves : pushed.log.Leaves pushed.log.changes pushedFiles := by
  refine ⟨.refl _, fun name => ?_⟩
  rw [pushed_base, pushed_changes]
  simp only [directory, List.foldl_cons, List.foldl_nil, Entries.apply, Journal.renameOf]
  by_cases published : name = otlpName 0
  · rw [published, Function.update_self]
    refine ⟨[7], AList.lookup_insert _, fun certain same => ?_⟩
    have durable : pushed.log.durable (.made 0) = some [7] := by decide +kernel
    exact Option.some.inj (durable.symm.trans same)
  · have absent : pushedFiles.lookup name = none := AList.lookup_insert_ne published
    rw [Function.update_of_ne published]
    by_cases stray : name = tmpName 0
    · rw [stray, Function.update_self]
      exact stray ▸ absent
    · rw [Function.update_of_ne stray, Function.update_of_ne stray]
      exact absent

theorem crash_survives_iff_pushed : Survives pushed ⟨10, 1, 1, (∅ : Table Nat Nat).insert 0 1⟩ pushedFiles ↔
    ∀ x ∈ pushed.world.acked, x ∉ pushed.world.delivered → ∃ i, Journal.renameOf x.1 i ∈ pushed.log.changes :=
  crash_survives_iff (show Spool.open {} ∅ 10 = .ok (⟨10, 0, 0, ∅⟩, ∅) from rfl) pushed_run pushed_leaves
    (show Spool.open {} pushedFiles 10 = .ok (⟨10, 1, 1, (∅ : Table Nat Nat).insert 0 1⟩, pushedFiles) from by rfl)

/-- A crash that undoes the renaming loses the acknowledged payload. -/
theorem crash_survives_not : ¬ ∀ io files maxBytes sp files', Spool.open io files maxBytes = .ok (sp, files') →
    ∀ es s, (Disk.start sp files files').run es = some s → ∀ kept left, s.log.Leaves kept left →
    ∀ io' maxBytes' sp' left', Spool.open io' left maxBytes' = .ok (sp', left') → Survives s sp' left' := by
  intro survives
  have leaves : pushed.log.Leaves [] ∅ := by
    refine ⟨List.nil_sublist _, fun name => ?_⟩
    rw [pushed_base]
    rfl
  have survived := survives {} ∅ 10 ⟨10, 0, 0, ∅⟩ ∅ rfl pushRun pushed pushed_run [] ∅ leaves {} 10 ⟨10, 0, 0, ∅⟩ ∅ rfl
  have recovered := survived.recovered (0, [7]) (by rw [pushed_acked.1]; exact List.mem_singleton_self _)
    (by rw [pushed_acked.2]; exact nofun)
  exact absurd recovered.1 (by decide)

end ArchivAgent.Spool
