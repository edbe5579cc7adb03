import ArchivAgent.Spool.Accounting

/-!
# What an acknowledged push leaves

`Held`: until it is delivered, a push that returned `Ok(seq)` has an entry of its length and a
published file with exactly its bytes. The drains that took its entry have read those bytes or
none.
-/

namespace ArchivAgent.Spool
open Wire (Bytes)

def Push.Stored (files : Files) (p : Push) : Prop :=
  match p.phase with
  | .reserved | .failed _ => True
  | .writing n => files.lookup (tmpName p.seq) = some (p.payload.take n)
  | .synced => files.lookup (tmpName p.seq) = some p.payload
  | .renamed => files.lookup (otlpName p.seq) = some p.payload

def Drain.bytes (d : Drain) : Option Bytes :=
  match d.phase with
  | .selected => none
  | .read bytes | .forwarded bytes | .removed bytes => some bytes

def Drain.sent (d : Drain) : Option Bytes :=
  match d.phase with
  | .selected | .read _ => none
  | .forwarded bytes | .removed bytes => some bytes

namespace World

structure Held (s : World) : Prop where
  stored : ∀ id p, s.pushes.lookup id = some p → p.Stored s.files
  ackedBelow : ∀ x ∈ s.acked, x.1 < s.state.nextSeq
  ackedApart : ∀ x ∈ s.acked, ∀ id p, s.pushes.lookup id = some p → p.seq ≠ x.1
  file : ∀ x ∈ s.acked, ∀ content, s.files.lookup (otlpName x.1) = some content → content = x.2
  read : ∀ x ∈ s.acked, ∀ id d, s.drains.lookup id = some d → d.seq = x.1 → ∀ bytes ∈ d.bytes, bytes = x.2
  sent : ∀ id d, s.drains.lookup id = some d → ∀ bytes ∈ d.sent, (d.seq, bytes) ∈ s.delivered
  kept : ∀ x ∈ s.acked, x ∈ s.delivered ∨
    (s.state.pending.lookup x.1 = some x.2.length ∧ s.files.lookup (otlpName x.1) = some x.2)

theorem start_held (sp : Spool) (files : Files) : (start sp files).Held where
  stored _ _ found := nomatch found
  ackedBelow _ member := nomatch member
  ackedApart _ member := nomatch member
  file _ member := nomatch member
  read _ member := nomatch member
  sent _ _ found := nomatch found
  kept _ member := nomatch member

section Frames
variable {limit : Nat} {s : World} {id : Nat} {p : Push} {d : Drain}

theorem stored_frame {files files' : Files} (tmp : files'.lookup (tmpName p.seq) = files.lookup (tmpName p.seq))
    (otlp : files'.lookup (otlpName p.seq) = files.lookup (otlpName p.seq)) (stored : p.Stored files) : p.Stored files' := by
  unfold Push.Stored at stored ⊢
  split <;> rename_i phase <;> rw [phase] at stored
  · trivial
  · trivial
  · exact tmp.trans stored
  · exact tmp.trans stored
  · exact otlp.trans stored

/-- A stray file of one push is no file of another. -/
theorem lookup_insert_tmp {m n : Nat} (hm : m < 2 ^ 64) (hn : n < 2 ^ 64) (other : m ≠ n) (files : Files) (content : Bytes) :
    (files.insert (tmpName n) content).lookup (tmpName m) = files.lookup (tmpName m) :=
  AList.lookup_insert_ne fun same => other (tmpName_injective hm hn same)

theorem lookup_insert_tmp_otlp {m n : Nat} (files : Files) (content : Bytes) :
    (files.insert (tmpName n) content).lookup (otlpName m) = files.lookup (otlpName m) :=
  AList.lookup_insert_ne fun same => tmpName_ne_otlpName _ _ same.symm

theorem Accounted.push_lt (books : Accounted limit s) (here : s.pushes.lookup id = some p) : p.seq < 2 ^ 64 :=
  Nat.lt_trans (books.pushBelow id p here) books.range

theorem Held.setPush (held : s.Held) (here : s.pushes.lookup id = some p) {files : Files} {phase : PushPhase}
    (mine : Push.Stored files { p with phase })
    (others : ∀ i q, s.pushes.lookup i = some q → i ≠ id →
      files.lookup (tmpName q.seq) = s.files.lookup (tmpName q.seq) ∧
      files.lookup (otlpName q.seq) = s.files.lookup (otlpName q.seq))
    (published : ∀ x ∈ s.acked, files.lookup (otlpName x.1) = s.files.lookup (otlpName x.1)) :
    ({ s with files }.setPush id p phase).Held where
  stored i q found := by
    rcases Table.lookup_of_insert found with ⟨-, rfl⟩ | ⟨other, found⟩
    · exact mine
    · obtain ⟨tmp, otlp⟩ := others i q found other
      exact stored_frame tmp otlp (held.stored i q found)
  ackedBelow := held.ackedBelow
  ackedApart x member i q found := by
    rcases Table.lookup_of_insert found with ⟨-, rfl⟩ | ⟨-, found⟩
    · exact held.ackedApart x member id p here
    · exact held.ackedApart x member i q found
  file x member content found := held.file x member content ((published x member).symm.trans found)
  read := held.read
  sent := held.sent
  kept x member := (held.kept x member).imp_right fun ⟨entry, file⟩ => ⟨entry, (published x member).trans file⟩

theorem Held.wrote (held : s.Held) (books : Accounted limit s) (here : s.pushes.lookup id = some p) (content : Bytes)
    {phase : PushPhase} (mine : Push.Stored (s.files.insert (tmpName p.seq) content) { p with phase }) :
    ({ s with files := s.files.insert (tmpName p.seq) content }.setPush id p phase).Held := by
  refine held.setPush here mine (fun i q found other => ⟨?_, lookup_insert_tmp_otlp _ _⟩)
    fun x _ => lookup_insert_tmp_otlp _ _
  exact lookup_insert_tmp (books.push_lt found) (books.push_lt here)
    (fun same => other (books.pushApart i id q p found here same)) _ _

theorem Held.rename (held : s.Held) (books : Accounted limit s) (here : s.pushes.lookup id = some p)
    (phase : p.phase = .synced) {content : Bytes} (found : s.files.lookup (tmpName p.seq) = some content) :
    ((s.renameTmp p content).setPush id p .renamed).Held := by
  have stored := held.stored id p here
  rw [Push.Stored, phase] at stored
  obtain rfl := Option.some.inj (found.symm.trans stored)
  refine held.setPush here (AList.lookup_insert _) (fun i q there other => ⟨?_, ?_⟩) fun x member => ?_
  · have apart := fun same => other (books.pushApart i id q p there here same)
    rw [AList.lookup_insert_ne (tmpName_ne_otlpName _ _)]
    exact AList.lookup_erase_ne fun same => apart (tmpName_injective (books.push_lt there) (books.push_lt here) same)
  · have apart := fun same => other (books.pushApart i id q p there here same)
    rw [AList.lookup_insert_ne fun same => apart (otlpName_injective (books.push_lt there) (books.push_lt here) same)]
    exact AList.lookup_erase_ne fun same => tmpName_ne_otlpName _ _ same.symm
  · have apart := held.ackedApart x member id p here
    have small := Nat.lt_trans (held.ackedBelow x member) books.range
    rw [AList.lookup_insert_ne fun same => apart (otlpName_injective small (books.push_lt here) same).symm]
    exact AList.lookup_erase_ne fun same => tmpName_ne_otlpName _ _ same.symm

theorem Held.reserve (held : s.Held) {payload : Bytes} {state : State} {seq : Nat}
    (ok : s.state.reserve s.maxBytes payload.length = .ok (seq, state)) :
    (s.reserved id payload state).Held := by
  obtain ⟨-, -, -, rfl⟩ := State.reserve_ok ok
  refine ⟨?_, fun x member => Nat.lt_succ_of_lt (held.ackedBelow x member), ?_, held.file, held.read, held.sent, held.kept⟩
  · intro i q found
    rcases Table.lookup_of_insert found with ⟨-, rfl⟩ | ⟨-, found⟩
    · trivial
    · exact held.stored i q found
  · intro x member i q found
    rcases Table.lookup_of_insert found with ⟨-, rfl⟩ | ⟨-, found⟩
    · exact Nat.ne_of_gt (held.ackedBelow x member)
    · exact held.ackedApart x member i q found

theorem Held.publish (held : s.Held) (books : Accounted limit s) (here : s.pushes.lookup id = some p)
    (phase : p.phase = .renamed) : (s.published id p).Held := by
  have stored := held.stored id p here
  rw [Push.Stored, phase] at stored
  have members : ∀ x, x ∈ (s.published id p).acked → x ∈ s.acked ∨ x = (p.seq, p.payload) := fun x member =>
    (List.mem_append.mp member).imp_right List.mem_singleton.mp
  refine ⟨fun i q found => held.stored i q (Table.lookup_of_erase found).2, ?_, ?_, ?_, ?_, held.sent, ?_⟩
  · intro x member
    rcases members x member with old | rfl
    · exact held.ackedBelow x old
    · exact books.pushBelow id p here
  · intro x member i q found
    obtain ⟨other, found⟩ := Table.lookup_of_erase found
    rcases members x member with old | rfl
    · exact held.ackedApart x old i q found
    · exact fun same => other (books.pushApart i id q p found here same)
  · intro x member content found
    rcases members x member with old | rfl
    · exact held.file x old content found
    · exact Option.some.inj (found.symm.trans stored)
  · intro x member i d found same
    rcases members x member with old | rfl
    · exact held.read x old i d found same
    · exact absurd same (books.drainApart i d id p found here)
  · intro x member
    rcases members x member with old | rfl
    · refine (held.kept x old).imp_right fun ⟨entry, file⟩ => ⟨?_, file⟩
      exact (AList.lookup_insert_ne fun same => held.ackedApart x old id p here same.symm).trans entry
    · exact .inr ⟨AList.lookup_insert _, stored⟩

theorem Held.release (held : s.Held) : (s.released id p).Held where
  stored i q found := held.stored i q (Table.lookup_of_erase found).2
  ackedBelow := held.ackedBelow
  ackedApart x member i q found := held.ackedApart x member i q (Table.lookup_of_erase found).2
  file := held.file
  read := held.read
  sent := held.sent
  kept := held.kept

theorem Held.setDrain (held : s.Held) (phase : DrainPhase)
    (reads : ∀ x ∈ s.acked, d.seq = x.1 → ∀ bytes ∈ Drain.bytes { d with phase }, bytes = x.2)
    (delivered : List (Nat × Bytes)) (grows : ∀ x ∈ s.delivered, x ∈ delivered)
    (sends : ∀ bytes ∈ Drain.sent { d with phase }, (d.seq, bytes) ∈ delivered) :
    { s.setDrain id d phase with delivered }.Held where
  stored := held.stored
  ackedBelow := held.ackedBelow
  ackedApart := held.ackedApart
  file := held.file
  read x member i e found same := by
    rcases Table.lookup_of_insert found with ⟨-, rfl⟩ | ⟨-, found⟩
    · exact reads x member same
    · exact held.read x member i e found same
  sent i e found bytes member := by
    rcases Table.lookup_of_insert found with ⟨-, rfl⟩ | ⟨-, found⟩
    · exact sends bytes member
    · exact grows _ (held.sent i e found bytes member)
  kept x member := (held.kept x member).imp_left (grows x)

theorem Held.removeFile (held : s.Held) (books : Accounted limit s) (here : s.drains.lookup id = some d) {bytes : Bytes}
    (sent : d.sent = some bytes) (read : d.bytes = some bytes) : (s.removeFile d.seq).Held where
  stored i q found := by
    have apart := books.drainApart id d i q here found
    refine stored_frame ?_ ?_ (held.stored i q found)
    · exact AList.lookup_erase_ne (tmpName_ne_otlpName _ _)
    · refine AList.lookup_erase_ne fun same => apart ?_
      exact (otlpName_injective (books.push_lt found) (Nat.lt_trans (books.drainBelow id d here) books.range) same).symm
  ackedBelow := held.ackedBelow
  ackedApart := held.ackedApart
  file x member content found := held.file x member content (Table.lookup_of_erase found).2
  read := held.read
  sent := held.sent
  kept x member := by
    by_cases same : d.seq = x.1
    · have whole := held.read x member id d here same bytes read
      have sentNow := held.sent id d here bytes sent
      rw [whole, same] at sentNow
      exact .inl sentNow
    · refine (held.kept x member).imp_right fun ⟨entry, file⟩ => ⟨entry, ?_⟩
      refine (AList.lookup_erase_ne fun equal => same ?_).trans file
      exact (otlpName_injective (Nat.lt_trans (held.ackedBelow x member) books.range)
        (Nat.lt_trans (books.drainBelow id d here) books.range) equal).symm

theorem Held.dropDrain (held : s.Held) : (s.retried id).Held where
  stored := held.stored
  ackedBelow := held.ackedBelow
  ackedApart := held.ackedApart
  file := held.file
  read x member i e found := held.read x member i e (Table.lookup_of_erase found).2
  sent i e found := held.sent i e (Table.lookup_of_erase found).2
  kept := held.kept

theorem Held.settle (held : s.Held) (here : s.drains.lookup id = some d) {bytes : Bytes} (phase : d.phase = .removed bytes) :
    (s.settled id d).Held where
  stored := held.stored
  ackedBelow x member := by
    have next : (s.state.settle d.seq d.len).nextSeq = s.state.nextSeq := by
      rw [State.settle]
      split <;> rfl
    rw [show (s.settled id d).state.nextSeq = _ from next]
    exact held.ackedBelow x member
  ackedApart := held.ackedApart
  file := held.file
  read x member i e found := held.read x member i e (Table.lookup_of_erase found).2
  sent i e found := held.sent i e (Table.lookup_of_erase found).2
  kept x member := by
    rcases held.kept x member with sent | ⟨entry, file⟩
    · exact .inl sent
    · by_cases same : d.seq = x.1
      · have read := held.read x member id d here same bytes (by rw [Drain.bytes, phase]; rfl)
        have sent := held.sent id d here bytes (by rw [Drain.sent, phase]; rfl)
        rw [read, same] at sent
        exact .inl sent
      · refine .inr ⟨?_, file⟩
        simp only [settled, State.settle]
        split
        · exact (AList.lookup_erase_ne (Ne.symm same)).trans entry
        · exact entry

end Frames

theorem step_held {limit : Nat} {s s' : World} {e : Event} (h : s.step e = some s') (books : Accounted limit s)
    (held : s.Held) : s'.Held := by
  cases step_cases h with
  | refuse | idle => exact held
  | reserve fresh ok => exact held.reserve ok
  | create here phase => exact held.wrote books here [] (AList.lookup_insert _)
  | write here phase => exact held.wrote books here _ (AList.lookup_insert _)
  | sync here phase =>
    have stored := held.stored _ _ here
    rw [Push.Stored, phase] at stored
    simp only [List.take_length] at stored
    exact held.setPush here stored (fun _ _ _ _ => ⟨rfl, rfl⟩) fun _ _ => rfl
  | rename here phase found => exact held.rename books here phase found
  | fail here => exact held.setPush here trivial (fun _ _ _ _ => ⟨rfl, rfl⟩) fun _ _ => rfl
  | publish here phase => exact held.publish books here phase
  | release => exact held.release
  | select fresh oldest =>
    refine ⟨held.stored, held.ackedBelow, held.ackedApart, held.file, fun x member i e found => ?_, fun i e found => ?_, held.kept⟩
    · rcases Table.lookup_of_insert found with ⟨-, rfl⟩ | ⟨-, found⟩
      · exact fun _ _ unread => nomatch unread
      · exact held.read x member i e found
    · rcases Table.lookup_of_insert found with ⟨-, rfl⟩ | ⟨-, found⟩
      · exact fun _ unsent => nomatch unsent
      · exact held.sent i e found
  | read here phase found =>
    refine held.setDrain _ (fun x member same bytes read => ?_) s.delivered (fun _ old => old) (fun _ unsent => nomatch unsent)
    cases read
    exact held.file x member _ (same ▸ found)
  | unreadable | retry => exact held.dropDrain
  | @forward i d bytes here phase =>
    refine held.setDrain _ (fun x member same b read => ?_) _ (fun _ old => List.mem_append_left _ old)
      (fun b sent => ?_)
    · cases read
      exact held.read x member _ d here same _ (by rw [Drain.bytes, phase]; rfl)
    · cases sent
      exact List.mem_append_right _ (List.mem_singleton_self _)
  | @remove i d bytes content here phase found =>
    have sent : d.sent = some bytes := by rw [Drain.sent, phase]
    have read : d.bytes = some bytes := by rw [Drain.bytes, phase]
    refine (held.removeFile books here sent read).setDrain _ (fun x member same b read' => ?_) s.delivered
      (fun _ old => old) (fun b sent' => ?_)
    · cases read'
      exact held.read x member i d here same bytes read
    · cases sent'
      exact held.sent i d here bytes sent
  | @removeFailed i d bytes here phase =>
    have sent : d.sent = some bytes := by rw [Drain.sent, phase]
    have read : d.bytes = some bytes := by rw [Drain.bytes, phase]
    refine held.setDrain _ (fun x member same b read' => ?_) s.delivered (fun _ old => old) (fun b sent' => ?_)
    · cases read'
      exact held.read x member i d here same bytes read
    · cases sent'
      exact held.sent i d here bytes sent
  | settle here phase => exact held.settle here phase

/-! ### What the steps of other calls leave alone -/

theorem pushes_frame {s s' : World} {e : Event} {id : Nat} (h : s.step e = some s') (other : e.pushId ≠ some id) :
    s'.pushes.lookup id = s.pushes.lookup id := by
  have differs : ∀ i, e.pushId = some i → id ≠ i := fun i mine same => other (same ▸ mine)
  cases step_cases h with
  | reserve | create | write | sync | rename | fail => exact AList.lookup_insert_ne (differs _ rfl)
  | publish | release => exact AList.lookup_erase_ne (differs _ rfl)
  | refuse | select | idle | read | unreadable | forward | retry | remove | removeFailed | settle => rfl

theorem acked_mono {s s' : World} {e : Event} (h : s.step e = some s') : ∀ x ∈ s.acked, x ∈ s'.acked := by
  intro x member
  cases step_cases h with
  | publish => exact List.mem_append_left _ member
  | _ => exact member

theorem delivered_mono {s s' : World} {e : Event} (h : s.step e = some s') : ∀ x ∈ s.delivered, x ∈ s'.delivered := by
  intro x member
  cases step_cases h with
  | forward => exact List.mem_append_left _ member
  | _ => exact member

end World

end ArchivAgent.Spool
