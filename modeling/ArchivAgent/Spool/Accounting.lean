import ArchivAgent.Spool.World

/-!
# The spool's accounting

`Accounted`: the bytes counted are those of the entries and of the pushes that hold a
reservation. Most events only move a call on (`Quiet`); five change the books.
-/

namespace ArchivAgent.Spool
open Wire (Bytes)

namespace World

/-! ### Events that leave the books alone -/

/-- A call has moved on, or a drain has given up. -/
structure Quiet (s s' : World) : Prop where
  maxBytes : s'.maxBytes = s.maxBytes
  state : s'.state = s.state
  issued : s'.issued = s.issued
  pushes : ∀ id, (s'.pushes.lookup id).map (fun p => (p.seq, p.payload))
    = (s.pushes.lookup id).map fun p => (p.seq, p.payload)
  reserved : s'.pushes.total (fun _ p => p.payload.length) = s.pushes.total fun _ p => p.payload.length
  drains : ∀ id d', s'.drains.lookup id = some d' →
    ∃ d, s.drains.lookup id = some d ∧ d.seq = d'.seq ∧ d.len = d'.len

section Quiet
variable {s s' : World} {id : Nat} {p : Push} {d : Drain}

theorem lookup_setPush (phase : PushPhase) (id' : Nat) :
    (s.setPush id p phase).pushes.lookup id'
      = if id' = id then some { p with phase } else s.pushes.lookup id' := by
  by_cases same : id' = id
  · subst same
    rw [if_pos rfl]
    exact AList.lookup_insert _
  · rw [if_neg same]
    exact AList.lookup_insert_ne same

theorem lookup_setDrain (phase : DrainPhase) (id' : Nat) :
    (s.setDrain id d phase).drains.lookup id'
      = if id' = id then some { d with phase } else s.drains.lookup id' := by
  by_cases same : id' = id
  · subst same
    rw [if_pos rfl]
    exact AList.lookup_insert _
  · rw [if_neg same]
    exact AList.lookup_insert_ne same

theorem Quiet.refl (s : World) : Quiet s s :=
  ⟨rfl, rfl, rfl, fun _ => rfl, rfl, fun _ d found => ⟨d, found, rfl, rfl⟩⟩

theorem Quiet.setPush (here : s.pushes.lookup id = some p) (files : Files) (phase : PushPhase) :
    Quiet s ({ s with files }.setPush id p phase) where
  maxBytes := rfl
  state := rfl
  issued := rfl
  pushes id' := by
    rw [lookup_setPush]
    by_cases same : id' = id
    · rw [if_pos same, same, here]
      rfl
    · rw [if_neg same]
  reserved := Table.total_insert_same here rfl
  drains _ d found := ⟨d, found, rfl, rfl⟩

theorem Quiet.setDrain (here : s.drains.lookup id = some d) (files : Files) (delivered : List (Nat × Bytes))
    (phase : DrainPhase) : Quiet s { s.setDrain id d phase with files, delivered } where
  maxBytes := rfl
  state := rfl
  issued := rfl
  pushes _ := rfl
  reserved := rfl
  drains id' d' found := by
    rw [show (_ : World).drains.lookup id' = _ from lookup_setDrain phase id'] at found
    by_cases same : id' = id
    · rw [if_pos same] at found
      cases found
      exact ⟨d, same ▸ here, rfl, rfl⟩
    · rw [if_neg same] at found
      exact ⟨d', found, rfl, rfl⟩

theorem Quiet.retried (s : World) (id : Nat) : Quiet s (s.retried id) where
  maxBytes := rfl
  state := rfl
  issued := rfl
  pushes _ := rfl
  reserved := rfl
  drains id' d' found := by
    by_cases same : id' = id
    · rw [same, show (s.retried id).drains.lookup id = none from AList.lookup_erase _ _] at found
      cases found
    · rw [show (s.retried id).drains.lookup id' = s.drains.lookup id' from AList.lookup_erase_ne same] at found
      exact ⟨d', found, rfl, rfl⟩

end Quiet

inductive Books (s : World) : Event → World → Prop where
  | quiet {e s'} (quiet : Quiet s s') : Books s e s'
  | reserve {id payload seq state} (fresh : s.pushes.lookup id = none)
      (ok : s.state.reserve s.maxBytes payload.length = .ok (seq, state)) :
      Books s (.push id payload) (s.reserved id payload state)
  | publish {id p} (here : s.pushes.lookup id = some p) (phase : p.phase = .renamed) :
      Books s (.publish id) (s.published id p)
  | release {id p e} (here : s.pushes.lookup id = some p) (phase : p.phase = .failed e) :
      Books s (.release id) (s.released id p)
  | select {id seq len} (fresh : s.drains.lookup id = none) (oldest : s.state.oldest = some (seq, len)) :
      Books s (.select id) { s with drains := s.drains.insert id ⟨seq, len, .selected⟩ }
  | settle {id d bytes} (here : s.drains.lookup id = some d) (phase : d.phase = .removed bytes) :
      Books s (.settle id) (s.settled id d)

theorem step_books {s s' : World} {e : Event} (h : s.step e = some s') : Books s e s' := by
  cases step_cases h with
  | reserve fresh ok => exact .reserve fresh ok
  | publish here phase => exact .publish here phase
  | release here phase => exact .release here phase
  | select fresh oldest => exact .select fresh oldest
  | settle here phase => exact .settle here phase
  | refuse | idle => exact .quiet (.refl s)
  | create here | write here | sync here | rename here | fail here => exact .quiet (.setPush here _ _)
  | read here | forward here | remove here | removeFailed here => exact .quiet (.setDrain here _ _ _)
  | unreadable | retry => exact .quiet (.retried s _)

/-! ### The books -/

def reservedBytes (s : World) : Nat := s.pushes.total fun _ p => p.payload.length

def pendingBytes (s : World) : Nat := s.state.pending.total fun _ len => len

structure Accounted (limit : Nat) (s : World) : Prop where
  total : s.state.totalBytes = s.pendingBytes + s.reservedBytes
  entryBelow : ∀ seq len, s.state.pending.lookup seq = some len → seq < s.state.nextSeq
  pushBelow : ∀ id p, s.pushes.lookup id = some p → p.seq < s.state.nextSeq
  pushApart : ∀ id id' p p', s.pushes.lookup id = some p → s.pushes.lookup id' = some p' → p.seq = p'.seq → id = id'
  unpublished : ∀ id p, s.pushes.lookup id = some p → s.state.pending.lookup p.seq = none
  drainBelow : ∀ id d, s.drains.lookup id = some d → d.seq < s.state.nextSeq
  drainApart : ∀ id d id' p, s.drains.lookup id = some d → s.pushes.lookup id' = some p → d.seq ≠ p.seq
  drainLen : ∀ id d len, s.drains.lookup id = some d → s.state.pending.lookup d.seq = some len → len = d.len
  issuedBelow : ∀ x ∈ s.issued, x.1 < s.state.nextSeq
  issuedOnce : (s.issued.map (·.1)).Nodup
  bounded : s.state.totalBytes ≤ limit
  cap : s.maxBytes ≤ limit
  range : s.state.nextSeq < 2 ^ 64

theorem start_accounted {io : OpenIo} {files files' : Files} {maxBytes : Nat} {sp : Spool}
    (opened : Spool.open io files maxBytes = .ok (sp, files')) :
    Accounted (max maxBytes sp.state.totalBytes) (start sp files') := by
  obtain ⟨cap, -, recovers⟩ := open_ok opened
  refine ⟨recovers.total, recovers.below, ?_, ?_, ?_, ?_, ?_, ?_, ?_, List.nodup_nil, Nat.le_max_right _ _, ?_,
    recovers.bounded⟩
  · intro id p found
    cases found
  · intro id id' p p' found
    cases found
  · intro id p found
    cases found
  · intro id d found
    cases found
  · intro id d id' p found
    cases found
  · intro id d len found
    cases found
  · intro x member
    cases member
  · exact cap ▸ Nat.le_max_left _ _

section Accounted
variable {limit : Nat} {s s' : World} {id : Nat} {p : Push} {d : Drain}

theorem Accounted.quiet (books : Accounted limit s) (quiet : Quiet s s') : Accounted limit s' := by
  have same : ∀ id p', s'.pushes.lookup id = some p' → ∃ p, s.pushes.lookup id = some p ∧ p.seq = p'.seq := by
    intro id p' found
    have held := quiet.pushes id
    rw [found] at held
    obtain ⟨p, before, alike⟩ := Option.map_eq_some_iff.mp held.symm
    exact ⟨p, before, congrArg Prod.fst alike⟩
  refine ⟨?_, ?_, ?_, ?_, ?_, ?_, ?_, ?_, ?_, ?_, ?_, ?_, ?_⟩
  · rw [pendingBytes, reservedBytes, quiet.reserved, quiet.state]
    exact books.total
  · rw [quiet.state]
    exact books.entryBelow
  · intro id p' found
    obtain ⟨p, before, seq⟩ := same id p' found
    rw [quiet.state, ← seq]
    exact books.pushBelow id p before
  · intro id id' p p' found found' equal
    obtain ⟨q, before, seq⟩ := same id p found
    obtain ⟨q', before', seq'⟩ := same id' p' found'
    exact books.pushApart id id' q q' before before' (seq.trans (equal.trans seq'.symm))
  · intro id p' found
    obtain ⟨p, before, seq⟩ := same id p' found
    rw [quiet.state, ← seq]
    exact books.unpublished id p before
  · intro id d' found
    obtain ⟨d, before, seq, -⟩ := quiet.drains id d' found
    rw [quiet.state, ← seq]
    exact books.drainBelow id d before
  · intro id d' id' p' found found'
    obtain ⟨d, before, seq, -⟩ := quiet.drains id d' found
    obtain ⟨p, before', seq'⟩ := same id' p' found'
    rw [← seq, ← seq']
    exact books.drainApart id d id' p before before'
  · intro id d' len found entry
    obtain ⟨d, before, seq, length⟩ := quiet.drains id d' found
    rw [quiet.state, ← seq] at entry
    rw [← length]
    exact books.drainLen id d len before entry
  · rw [quiet.issued, quiet.state]
    exact books.issuedBelow
  · rw [quiet.issued]
    exact books.issuedOnce
  · rw [quiet.state]
    exact books.bounded
  · rw [quiet.maxBytes]
    exact books.cap
  · rw [quiet.state]
    exact books.range

theorem Accounted.reserve (books : Accounted limit s) {payload : Bytes} {seq : Nat} {state : State}
    (fresh : s.pushes.lookup id = none) (ok : s.state.reserve s.maxBytes payload.length = .ok (seq, state)) :
    Accounted limit (s.reserved id payload state) := by
  obtain ⟨-, range, fits, rfl⟩ := State.reserve_ok ok
  have lookups : ∀ id' p, (s.pushes.insert id ⟨s.state.nextSeq, payload, .reserved⟩).lookup id' = some p →
      (id' = id ∧ p = ⟨s.state.nextSeq, payload, .reserved⟩) ∨ (id' ≠ id ∧ s.pushes.lookup id' = some p) :=
    fun _ _ => Table.lookup_of_insert
  refine ⟨?_, ?_, ?_, ?_, ?_, ?_, ?_, ?_, ?_, ?_, ?_, books.cap, range⟩
  · have added : ∀ state, (s.reserved id payload state).reservedBytes = payload.length + s.reservedBytes :=
      fun _ => Table.total_insert fresh
    have before := books.total
    rw [added]
    simp only [reserved, pendingBytes] at before ⊢
    omega
  · intro q len found
    exact Nat.lt_succ_of_lt (books.entryBelow q len found)
  · intro id' p found
    rcases lookups id' p found with ⟨-, rfl⟩ | ⟨-, found⟩
    · exact Nat.lt_succ_self _
    · exact Nat.lt_succ_of_lt (books.pushBelow id' p found)
  · intro i j p q foundI foundJ equal
    rcases lookups i p foundI with ⟨hereI, rfl⟩ | ⟨-, foundI⟩ <;> rcases lookups j q foundJ with ⟨hereJ, rfl⟩ | ⟨-, foundJ⟩
    · exact hereI.trans hereJ.symm
    · exact absurd equal.symm (Nat.ne_of_lt (books.pushBelow j q foundJ))
    · exact absurd equal (Nat.ne_of_lt (books.pushBelow i p foundI))
    · exact books.pushApart i j p q foundI foundJ equal
  · intro id' p found
    rcases lookups id' p found with ⟨-, rfl⟩ | ⟨-, found⟩
    · cases entry : s.state.pending.lookup s.state.nextSeq with
      | none => exact entry
      | some len => exact absurd (books.entryBelow _ len entry) (Nat.lt_irrefl _)
    · exact books.unpublished id' p found
  · intro id' d found
    exact Nat.lt_succ_of_lt (books.drainBelow id' d found)
  · intro i d j p foundI foundJ
    rcases lookups j p foundJ with ⟨-, rfl⟩ | ⟨-, foundJ⟩
    · exact Nat.ne_of_lt (books.drainBelow i d foundI)
    · exact books.drainApart i d j p foundI foundJ
  · exact books.drainLen
  · intro x member
    rcases List.mem_append.mp member with old | new
    · exact Nat.lt_succ_of_lt (books.issuedBelow x old)
    · rw [List.mem_singleton.mp new]
      exact Nat.lt_succ_self _
  · rw [show (s.reserved id payload _).issued = s.issued ++ [(s.state.nextSeq, payload)] from rfl, List.map_append]
    refine List.nodup_append.mpr ⟨books.issuedOnce, by simp, fun q old q' new => ?_⟩
    obtain ⟨x, member, rfl⟩ := List.mem_map.mp old
    rw [List.mem_singleton.mp new]
    exact Nat.ne_of_lt (books.issuedBelow x member)
  · exact Nat.le_trans fits books.cap

theorem Accounted.released_le (books : Accounted limit s) (here : s.pushes.lookup id = some p) :
    p.payload.length ≤ s.state.totalBytes := by
  have := Table.le_total (w := fun _ p => p.payload.length) here
  have := books.total
  simp only [reservedBytes] at this
  omega

theorem Accounted.settled_le (books : Accounted limit s) (here : s.drains.lookup id = some d)
    (entry : (s.state.pending.lookup d.seq).isSome) : d.len ≤ s.state.totalBytes := by
  obtain ⟨len, found⟩ := Option.isSome_iff_exists.mp entry
  have := Table.le_total (w := fun _ len => len) found
  have := books.total
  have := books.drainLen id d len here found
  simp only [pendingBytes] at *
  omega

theorem Accounted.publish (books : Accounted limit s) (here : s.pushes.lookup id = some p) :
    Accounted limit (s.published id p) := by
  have entries : ∀ seq len, (s.state.pending.insert p.seq p.payload.length).lookup seq = some len →
      (seq = p.seq ∧ len = p.payload.length) ∨ (seq ≠ p.seq ∧ s.state.pending.lookup seq = some len) :=
    fun _ _ => Table.lookup_of_insert
  refine ⟨?_, ?_, ?_, ?_, ?_, books.drainBelow, ?_, ?_, books.issuedBelow, books.issuedOnce, books.bounded, books.cap,
    books.range⟩
  · have added : (s.published id p).pendingBytes = p.payload.length + s.pendingBytes :=
      Table.total_insert (books.unpublished id p here)
    have taken : s.reservedBytes = p.payload.length + (s.published id p).reservedBytes := Table.total_erase here
    have before := books.total
    rw [added]
    simp only [published, State.publish] at taken ⊢
    omega
  · intro seq len found
    rcases entries seq len found with ⟨rfl, -⟩ | ⟨-, found⟩
    · exact books.pushBelow id p here
    · exact books.entryBelow seq len found
  · intro i q found
    exact books.pushBelow i q (Table.lookup_of_erase found).2
  · intro i j q r foundI foundJ
    exact books.pushApart i j q r (Table.lookup_of_erase foundI).2 (Table.lookup_of_erase foundJ).2
  · intro i q found
    obtain ⟨other, found⟩ := Table.lookup_of_erase found
    have apart : q.seq ≠ p.seq := fun equal => other (books.pushApart i id q p found here equal)
    rw [show (s.published id p).state.pending.lookup q.seq = _ from AList.lookup_insert_ne apart]
    exact books.unpublished i q found
  · intro i d j q foundI foundJ
    exact books.drainApart i d j q foundI (Table.lookup_of_erase foundJ).2
  · intro i d len found entry
    rcases entries d.seq len entry with ⟨equal, -⟩ | ⟨-, entry⟩
    · exact absurd equal (books.drainApart i d id p found here)
    · exact books.drainLen i d len found entry

theorem Accounted.release (books : Accounted limit s) (here : s.pushes.lookup id = some p) :
    Accounted limit (s.released id p) := by
  refine ⟨?_, books.entryBelow, ?_, ?_, ?_, books.drainBelow, ?_, books.drainLen, books.issuedBelow, books.issuedOnce, ?_,
    books.cap, books.range⟩
  · have taken : s.reservedBytes = p.payload.length + (s.released id p).reservedBytes := Table.total_erase here
    have before := books.total
    simp only [released, State.release, pendingBytes] at before taken ⊢
    omega
  · intro i q found
    exact books.pushBelow i q (Table.lookup_of_erase found).2
  · intro i j q r foundI foundJ
    exact books.pushApart i j q r (Table.lookup_of_erase foundI).2 (Table.lookup_of_erase foundJ).2
  · intro i q found
    exact books.unpublished i q (Table.lookup_of_erase found).2
  · intro i d j q foundI foundJ
    exact books.drainApart i d j q foundI (Table.lookup_of_erase foundJ).2
  · exact Nat.le_trans (Nat.sub_le _ _) books.bounded

theorem Accounted.select (books : Accounted limit s) {seq len : Nat} (oldest : s.state.oldest = some (seq, len)) :
    Accounted limit { s with drains := s.drains.insert id ⟨seq, len, .selected⟩ } := by
  obtain ⟨entry, -⟩ := Table.first_some oldest
  have lookups : ∀ i d, (s.drains.insert id ⟨seq, len, .selected⟩).lookup i = some d →
      (d.seq = seq ∧ d.len = len) ∨ s.drains.lookup i = some d := by
    intro i d found
    rcases Table.lookup_of_insert found with ⟨-, rfl⟩ | ⟨-, found⟩
    · exact .inl ⟨rfl, rfl⟩
    · exact .inr found
  refine ⟨books.total, books.entryBelow, books.pushBelow, books.pushApart, books.unpublished, ?_, ?_, ?_, books.issuedBelow,
    books.issuedOnce, books.bounded, books.cap, books.range⟩
  · intro i d found
    rcases lookups i d found with ⟨equal, -⟩ | found
    · rw [equal]
      exact books.entryBelow seq len entry
    · exact books.drainBelow i d found
  · intro i d j q foundI foundJ
    rcases lookups i d foundI with ⟨equal, -⟩ | foundI
    · intro same
      rw [← equal, same, books.unpublished j q foundJ] at entry
      cases entry
    · exact books.drainApart i d j q foundI foundJ
  · intro i d l found read
    rcases lookups i d found with ⟨equal, length⟩ | found
    · rw [equal, entry] at read
      rw [length]
      exact (Option.some.inj read).symm
    · exact books.drainLen i d l found read

theorem Accounted.settle (books : Accounted limit s) (here : s.drains.lookup id = some d) :
    Accounted limit (s.settled id d) := by
  have others : ∀ i e, (s.settled id d).drains.lookup i = some e → s.drains.lookup i = some e :=
    fun i e found => (Table.lookup_of_erase found).2
  have entries : ∀ seq len, (s.state.settle d.seq d.len).pending.lookup seq = some len →
      s.state.pending.lookup seq = some len := by
    intro seq len found
    rw [State.settle] at found
    split at found
    · exact (Table.lookup_of_erase found).2
    · exact found
  have next : (s.state.settle d.seq d.len).nextSeq = s.state.nextSeq := by
    rw [State.settle]
    split <;> rfl
  refine ⟨?_, ?_, ?_, books.pushApart, ?_, ?_, ?_, ?_, ?_, books.issuedOnce, ?_, books.cap, ?_⟩
  · have before := books.total
    simp only [settled, pendingBytes, reservedBytes, State.settle] at before ⊢
    split
    · rename_i entry
      obtain ⟨len, found⟩ := Option.isSome_iff_exists.mp entry
      have taken : s.pendingBytes = len + Table.total (fun _ len => len) (s.state.pending.erase d.seq) :=
        Table.total_erase found
      have length := books.drainLen id d len here found
      simp only [pendingBytes] at taken ⊢
      omega
    · exact before
  · intro seq len found
    rw [show (s.settled id d).state.nextSeq = _ from next]
    exact books.entryBelow seq len (entries seq len found)
  · intro i q found
    rw [show (s.settled id d).state.nextSeq = _ from next]
    exact books.pushBelow i q found
  · intro i q found
    cases entry : (s.settled id d).state.pending.lookup q.seq with
    | none => rfl
    | some len =>
      have older := entries q.seq len entry
      rw [books.unpublished i q found] at older
      cases older
  · intro i e found
    rw [show (s.settled id d).state.nextSeq = _ from next]
    exact books.drainBelow i e (others i e found)
  · intro i e j q foundI foundJ
    exact books.drainApart i e j q (others i e foundI) foundJ
  · intro i e len found entry
    exact books.drainLen i e len (others i e found) (entries e.seq len entry)
  · intro x member
    rw [show (s.settled id d).state.nextSeq = _ from next]
    exact books.issuedBelow x member
  · refine Nat.le_trans ?_ books.bounded
    simp only [settled, State.settle]
    split
    · exact Nat.sub_le _ _
    · exact Nat.le_refl _
  · rw [show (s.settled id d).state.nextSeq = _ from next]
    exact books.range

theorem step_accounted {e : Event} (h : s.step e = some s') (books : Accounted limit s) : Accounted limit s' := by
  cases step_books h with
  | quiet quiet => exact books.quiet quiet
  | reserve fresh ok => exact books.reserve fresh ok
  | publish here => exact books.publish here
  | release here => exact books.release here
  | select fresh oldest => exact books.select oldest
  | settle here => exact books.settle here

theorem run_accounted {es : List Event} (h : s.run es = some s') (books : Accounted limit s) : Accounted limit s' :=
  Transition.run_invariant (Accounted limit) h (fun _ _ _ _ one => step_accounted one) books

end Accounted

/-! ### What a step takes up -/

section Steps
variable {s s' : World} {e : Event}

/-- A call of `push` that is in flight was, with its number and payload, or takes the next number. -/
theorem pushes_of_step (h : s.step e = some s') {id : Nat} {p : Push} (found : s'.pushes.lookup id = some p) :
    (∃ q, s.pushes.lookup id = some q ∧ q.seq = p.seq ∧ q.payload = p.payload) ∨
      (p.seq = s.state.nextSeq ∧ p.phase = .reserved ∧ (p.seq, p.payload) ∈ s'.issued ∧ e = .push id p.payload ∧
        (s.state.reserve s.maxBytes p.payload.length).isOk = true) := by
  cases step_books h with
  | quiet quiet =>
    have same := quiet.pushes id
    rw [found, Option.map_some] at same
    obtain ⟨q, here, pair⟩ := Option.map_eq_some_iff.mp same.symm
    exact .inl ⟨q, here, congrArg Prod.fst pair, congrArg Prod.snd pair⟩
  | reserve fresh ok =>
    rcases Table.lookup_of_insert found with ⟨rfl, rfl⟩ | ⟨-, found⟩
    · exact .inr ⟨rfl, rfl, List.mem_append_right _ (List.mem_singleton_self _), rfl, by rw [ok]; rfl⟩
    · exact .inl ⟨p, found, rfl, rfl⟩
  | publish here | release here => exact .inl ⟨p, (Table.lookup_of_erase found).2, rfl, rfl⟩
  | select | settle => exact .inl ⟨p, found, rfl, rfl⟩

theorem settle_nextSeq (s : State) (seq len : Nat) : (s.settle seq len).nextSeq = s.nextSeq := by
  rw [State.settle]
  split <;> rfl

theorem issued_of_step (h : s.step e = some s') : (s'.issued = s.issued ∧ s'.state.nextSeq = s.state.nextSeq) ∨
    ∃ payload, s'.issued = s.issued ++ [(s.state.nextSeq, payload)] ∧ s'.state.nextSeq = s.state.nextSeq + 1 := by
  cases step_books h with
  | quiet quiet => exact .inl ⟨quiet.issued, congrArg _ quiet.state⟩
  | @reserve id payload seq state fresh ok =>
    obtain ⟨-, -, -, rfl⟩ := State.reserve_ok ok
    exact .inr ⟨payload, rfl, rfl⟩
  | publish | release | select => exact .inl ⟨rfl, rfl⟩
  | settle => exact .inl ⟨rfl, settle_nextSeq _ _ _⟩

theorem issued_mono (h : s.step e = some s') : ∀ x ∈ s.issued, x ∈ s'.issued := by
  intro x member
  rcases issued_of_step h with ⟨same, -⟩ | ⟨payload, grown, -⟩
  · exact same ▸ member
  · exact grown ▸ List.mem_append_left _ member

theorem nextSeq_mono (h : s.step e = some s') : s.state.nextSeq ≤ s'.state.nextSeq := by
  rcases issued_of_step h with ⟨-, same⟩ | ⟨-, -, next⟩ <;> omega

theorem acked_of_step (h : s.step e = some s') : ∀ x ∈ s'.acked, x ∈ s.acked ∨
    ∃ id p, s.pushes.lookup id = some p ∧ p.phase = .renamed ∧ x = (p.seq, p.payload) := by
  intro x member
  cases step_cases h with
  | @publish id p here phase =>
    exact (List.mem_append.mp member).imp_right fun new => ⟨id, p, here, phase, List.mem_singleton.mp new⟩
  | _ => exact .inl member

end Steps

/-! ### A push that fails -/

/-- The steps one push takes in the run add up to this many bytes. -/
def spent (id : Nat) (s : World) (es : List Event) : Int :=
  Transition.change step (fun s e s' =>
    if e.pushId = some id then (s'.state.totalBytes : Int) - s.state.totalBytes else 0) s es

/-- No step of the push, anywhere in the run, touches the entries. -/
def AddsNothing (id : Nat) (s : World) (es : List Event) : Prop :=
  Transition.Along step (fun s e =>
    e.pushId = some id → ∀ s', s.step e = some s' → s'.state.pending = s.state.pending) s es

/-- The run begins with a call of `push` and ends with that call returning an error. -/
structure ReturnsErr (id : Nat) (s : World) (es : List Event) : Prop where
  called : ∃ payload, es.head? = some (.push id payload)
  returned : ∃ before last mid e, es = before ++ [last] ∧ s.run before = some mid ∧
    mid.returns last = some (id, .pushed (.error e)) ∧
    Transition.Along step (fun s e => ∀ r, s.returns e ≠ some (id, .pushed r)) s before

def holds (id : Nat) (s : World) : Nat := ((s.pushes.lookup id).map fun p => p.payload.length).getD 0

section Failing
variable {limit : Nat} {s s' : World} {id : Nat} {e : Event}

theorem holds_of_quiet (quiet : Quiet s s') : s'.holds id = s.holds id := by
  have same := congrArg (Option.map fun x : Nat × Bytes => x.2.length) (quiet.pushes id)
  simp only [Option.map_map, Function.comp_def] at same
  rw [holds, holds, same]

theorem holds_insert (id : Nat) (pushes : Table Nat Push) (i : Nat) (p : Push) :
    (((pushes.insert i p).lookup id).map fun p => p.payload.length).getD 0
      = if i = id then p.payload.length else ((pushes.lookup id).map fun p => p.payload.length).getD 0 := by
  by_cases same : i = id
  · rw [if_pos same, same, AList.lookup_insert]
    rfl
  · rw [if_neg same, AList.lookup_insert_ne (Ne.symm same)]

theorem holds_erase (id : Nat) (pushes : Table Nat Push) (i : Nat) :
    (((pushes.erase i).lookup id).map fun p => p.payload.length).getD 0
      = if i = id then 0 else ((pushes.lookup id).map fun p => p.payload.length).getD 0 := by
  by_cases same : i = id
  · rw [if_pos same, same, AList.lookup_erase]
    rfl
  · rw [if_neg same, AList.lookup_erase_ne (Ne.symm same)]

/-- Short of its publication, what a push adds to the count is what it holds. -/
theorem spends_holds (books : Accounted limit s) (h : s.step e = some s') (unpublished : e ≠ .publish id) :
    (if e.pushId = some id then (s'.state.totalBytes : Int) - s.state.totalBytes else 0) = (s'.holds id : Int) - s.holds id := by
  cases step_books h with
  | quiet quiet =>
    rw [quiet.state, holds_of_quiet quiet]
    split <;> omega
  | @reserve i payload seq state fresh ok =>
    obtain ⟨-, -, -, rfl⟩ := State.reserve_ok ok
    have held := holds_insert id s.pushes i ⟨s.state.nextSeq, payload, .reserved⟩
    simp only [holds, reserved, Event.pushId, Option.some.injEq, held]
    by_cases same : i = id
    · subst same
      simp only [↓reduceIte, fresh, Option.map_none, Option.getD_none]
      omega
    · simp only [if_neg same]
      omega
  | @publish i p here phase =>
    have other : i ≠ id := fun same => unpublished (congrArg Event.publish same)
    have held := holds_erase id s.pushes i
    simp only [holds, published, Event.pushId, Option.some.injEq, held, if_neg other]
    omega
  | @release i p e here phase =>
    have held := holds_erase id s.pushes i
    have enough := books.released_le here
    simp only [holds, released, State.release, Event.pushId, Option.some.injEq, held]
    by_cases same : i = id
    · subst same
      simp only [↓reduceIte, here, Option.map_some, Option.getD_some]
      omega
    · simp only [if_neg same]
      omega
  | select =>
    simp only [Event.pushId, reduceCtorEq, if_false, holds]
    omega
  | settle =>
    simp only [Event.pushId, reduceCtorEq, if_false, holds, settled]
    omega

theorem entries_of_unpublished (h : s.step e = some s') (mine : e.pushId = some id) (unpublished : e ≠ .publish id) :
    s'.state.pending = s.state.pending := by
  cases step_books h with
  | quiet quiet => rw [quiet.state]
  | reserve fresh ok =>
    obtain ⟨-, -, -, rfl⟩ := State.reserve_ok ok
    rfl
  | publish =>
    cases mine
    exact absurd rfl unpublished
  | release => rfl
  | select => cases mine
  | settle => cases mine

theorem returned_err {err : SpoolError} (h : s.step e = some s') (returned : s.returns e = some (id, .pushed (.error err))) :
    e ≠ .publish id ∧ s'.pushes.lookup id = none := by
  cases step_cases h with
  | reserve fresh ok =>
    simp only [returns, ok] at returned
    cases returned
  | @refuse i payload stop fresh failed =>
    simp only [returns, failed] at returned
    cases stop <;> cases returned
    exact ⟨nofun, fresh⟩
  | publish here =>
    simp only [returns, here, Option.map_some, Option.some.injEq, Prod.mk.injEq, Returned.pushed.injEq, reduceCtorEq,
      and_false] at returned
  | release here phase =>
    simp only [returns, here, Option.bind_some, phase, Option.some.injEq, Prod.mk.injEq] at returned
    obtain ⟨rfl, -⟩ := returned
    exact ⟨nofun, AList.lookup_erase _ _⟩
  | idle fresh empty =>
    simp only [returns, empty, if_true, Option.some.injEq, Prod.mk.injEq, reduceCtorEq, and_false] at returned
  | select fresh oldest => simp only [returns, oldest, reduceCtorEq, if_false] at returned
  | create | write | sync | rename | fail | read | unreadable | forward | retry | remove | removeFailed | settle =>
    simp only [returns, Option.some.injEq, Prod.mk.injEq, reduceCtorEq, and_false] at returned

theorem ReturnsErr.unpublished {es : List Event} (failed : ReturnsErr id s es) (ran : s.run es = some s') :
    s.pushes.lookup id = none ∧ s'.pushes.lookup id = none ∧ ∀ e ∈ es, e ≠ .publish id := by
  obtain ⟨payload, first⟩ := failed.called
  obtain ⟨before, last, mid, err, rfl, ranBefore, returned, silent⟩ := failed.returned
  obtain ⟨mid', again, one⟩ := Transition.run_append.mp ran
  cases again.symm.trans ranBefore
  obtain ⟨s'', one, rest⟩ := Transition.run_cons_some.mp one
  cases rest
  obtain ⟨lastOther, gone⟩ := returned_err one returned
  refine ⟨?_, gone, fun e member => ?_⟩
  · have called : ∃ after, s.step (.push id payload) = some after := by
      cases before with
      | nil =>
        cases first
        cases ranBefore
        exact ⟨_, one⟩
      | cons e before =>
        cases first
        obtain ⟨after, here, -⟩ := Transition.run_cons_some.mp ranBefore
        exact ⟨after, here⟩
    obtain ⟨after, here⟩ := called
    cases step_cases here with
    | reserve fresh => exact fresh
    | refuse fresh => exact fresh
  · rcases List.mem_append.mp member with old | new
    · have others : ∀ e ∈ before, e ≠ .publish id := by
        refine Transition.along_labels ranBefore silent fun s e s' one quiet => ?_
        rintro rfl
        cases step_cases one with
        | @publish _ p here => exact quiet (.ok p.seq) (by simp only [returns, here, Option.map_some])
      exact others e old
    · rw [List.mem_singleton.mp new]
      exact lastOther

end Failing

/-! ### The books in every run -/

/-- A `saturating_sub` of the step saturates. -/
def Saturates (s : World) : Event → Prop
  | .release id => ∃ p, s.pushes.lookup id = some p ∧ s.state.totalBytes < p.payload.length
  | .settle id => ∃ d, s.drains.lookup id = some d ∧ (s.state.pending.lookup d.seq).isSome ∧ s.state.totalBytes < d.len
  | _ => False

structure Balanced (limit : Nat) (s : World) : Prop where
  total : s.state.totalBytes = s.pendingBytes + s.reservedBytes
  unsaturated : ∀ e, ¬ s.Saturates e
  entryBelow : ∀ seq len, s.state.pending.lookup seq = some len → seq < s.state.nextSeq
  pushBelow : ∀ id p, s.pushes.lookup id = some p → p.seq < s.state.nextSeq
  pushApart : ∀ id id' p p', s.pushes.lookup id = some p → s.pushes.lookup id' = some p' → p.seq = p'.seq → id = id'
  issuedOnce : (s.issued.map (·.1)).Nodup
  bounded : s.state.totalBytes ≤ limit

theorem Accounted.balanced {limit : Nat} {s : World} (books : Accounted limit s) : Balanced limit s where
  total := books.total
  unsaturated e saturates := by
    cases e with
    | release id =>
      obtain ⟨p, here, less⟩ := saturates
      exact absurd (books.released_le here) (Nat.not_le_of_lt less)
    | settle id =>
      obtain ⟨d, here, entry, less⟩ := saturates
      exact absurd (books.settled_le here entry) (Nat.not_le_of_lt less)
    | _ => exact saturates
  entryBelow := books.entryBelow
  pushBelow := books.pushBelow
  pushApart := books.pushApart
  issuedOnce := books.issuedOnce
  bounded := books.bounded

theorem spool_accounts {io : OpenIo} {files files' : Files} {maxBytes : Nat} {sp : Spool}
    (opened : Spool.open io files maxBytes = .ok (sp, files')) {es : List Event} {s : World}
    (ran : (start sp files').run es = some s) :
    Balanced (max maxBytes sp.state.totalBytes) s ∧
      ∀ id call s', ReturnsErr id s call → s.run call = some s' → s.spent id call = 0 ∧ s.AddsNothing id call := by
  have books := run_accounted ran (start_accounted opened)
  refine ⟨books.balanced, fun id call s' failed ranCall => ?_⟩
  obtain ⟨before, after, unpublished⟩ := failed.unpublished ranCall
  constructor
  · have net := Transition.change_telescopes (Accounted (max maxBytes sp.state.totalBytes)) (fun s => s.holds id) ranCall
      (fun _ _ _ one => step_accounted one) (fun e member s s' books one => spends_holds books one (unpublished e member))
      books
    rw [spent, net, holds, holds, before, after]
    rfl
  · exact Transition.along_of_invariant (fun _ => True) (fun _ _ _ _ _ => trivial)
      (fun s e member _ mine s' one => entries_of_unpublished one mine (unpublished e member)) trivial

theorem spool_accounts_two : ∃ s, (start ⟨10, 0, 0, ∅⟩ ∅).run [.push 0 [7], .create 0, .push 1 [8, 9]] = some s ∧
    Balanced (max 10 0) s ∧
      ∀ id call s', ReturnsErr id s call → s.run call = some s' → s.spent id call = 0 ∧ s.AddsNothing id call := by
  obtain ⟨s, ran⟩ := Option.isSome_iff_exists.mp
    (show ((start ⟨10, 0, 0, ∅⟩ ∅).run [.push 0 [7], .create 0, .push 1 [8, 9]]).isSome = true by decide)
  exact ⟨s, ran, spool_accounts (show Spool.open {} ∅ 10 = .ok (⟨10, 0, 0, ∅⟩, ∅) from rfl) ran⟩

end World

end ArchivAgent.Spool
