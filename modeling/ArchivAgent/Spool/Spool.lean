import ArchivAgent.Outcome
import ArchivAgent.Spool.Names
import ArchivAgent.Table.Table

/-!
# The spool

`src/spool.rs`. A directory is a table of file contents. The functions of `State` are what the
code does while it holds the lock. Numbers and sums are taken to stay in `u64`: a call where one
would leave it stops, where the release build goes on with the wrapped sum. How the file system
answers is an argument.
-/

namespace ArchivAgent
open Wire (Bytes)

abbrev IoError := Bytes

abbrev Files := Table Bytes Bytes

inductive SpoolError where
  | full (current max : Nat)
  | io (e : IoError)
  deriving DecidableEq, Repr

namespace Spool

structure State where
  nextSeq : Nat
  totalBytes : Nat
  /-- Published files: the length of each, the least number first. -/
  pending : Table Nat Nat

end Spool

structure Spool where
  maxBytes : Nat
  state : Spool.State

inductive DrainOutcome where
  | delivered
  | idle
  | retry
  deriving DecidableEq, Repr

namespace Spool

/-! ### Under the lock -/

namespace State

/-- The reservation of `push`. -/
def reserve (s : State) (maxBytes len : Nat) : Run SpoolError (Nat × State) :=
  if 2 ^ 64 ≤ s.totalBytes + len then .error .panic
  else if maxBytes < s.totalBytes + len then .error (.err (.full s.totalBytes maxBytes))
  else if 2 ^ 64 ≤ s.nextSeq + 1 then .error .panic
  else .ok (s.nextSeq, { s with nextSeq := s.nextSeq + 1, totalBytes := s.totalBytes + len })

def publish (s : State) (seq len : Nat) : State := { s with pending := s.pending.insert seq len }

/-- A failed `push` gives its bytes back. -/
def release (s : State) (len : Nat) : State := { s with totalBytes := s.totalBytes - len }

/-- The entry `drain_once` goes for. -/
def oldest (s : State) : Option (Nat × Nat) := s.pending.first

/-- After a delivery the entry goes, unless another drain has taken it out. -/
def settle (s : State) (seq len : Nat) : State :=
  if (s.pending.lookup seq).isSome then
    { s with pending := s.pending.erase seq, totalBytes := s.totalBytes - len }
  else s

theorem reserve_ok {s s' : State} {maxBytes len seq : Nat} (h : s.reserve maxBytes len = .ok (seq, s')) :
    seq = s.nextSeq ∧ s.nextSeq + 1 < 2 ^ 64 ∧ s.totalBytes + len ≤ maxBytes ∧
      s' = { s with nextSeq := s.nextSeq + 1, totalBytes := s.totalBytes + len } := by
  rw [reserve] at h
  split at h
  · cases h
  · split at h
    · cases h
    · split at h
      · cases h
      · cases h
        exact ⟨rfl, by omega, by omega, rfl⟩

end State

/-! ### Opening a directory -/

/-- How the file system answers `open`. -/
structure OpenIo where
  /-- `create_dir_all` and `read_dir`. -/
  listing : Option IoError := none
  /-- `next_entry`, at the entry it would return. -/
  entry : Bytes → Option IoError := fun _ => none
  /-- `remove_file` on a stray file. -/
  removes : Bytes → Bool := fun _ => true
  metadata : Bytes → Option IoError := fun _ => none

structure Recovered where
  files : Files
  pending : Table Nat Nat := ∅
  totalBytes : Nat := 0
  maxSeq : Option Nat := none

def recoverEntry (io : OpenIo) (r : Recovered) (file : Bytes × Bytes) : Run IoError Recovered :=
  match io.entry file.1 with
  | some e => .error (.err e)
  | none =>
    if tmpSuffix <:+ file.1 then
      -- the error of `remove_file` is dropped
      .ok (if io.removes file.1 then { r with files := r.files.erase file.1 } else r)
    else match parseSeq file.1 with
      | none => .ok r
      | some seq =>
        match io.metadata file.1 with
        | some e => .error (.err e)
        | none =>
          if 2 ^ 64 ≤ r.totalBytes + file.2.length then .error .panic
          else .ok { r with
            pending := r.pending.insert seq file.2.length
            totalBytes := r.totalBytes + file.2.length
            maxSeq := some (match r.maxSeq with
              | none => seq
              | some m => max m seq) }

/-- The spool of a directory, and what the sweep leaves of it. -/
def «open» (io : OpenIo) (files : Files) (maxBytes : Nat) : Run IoError (Spool × Files) :=
  match io.listing with
  | some e => .error (.err e)
  | none => do
    let r ← (files.entries.map fun e => (e.1, e.2)).foldlM (recoverEntry io) { files }
    match r.maxSeq with
    | none => .ok (⟨maxBytes, 0, r.totalBytes, r.pending⟩, r.files)
    | some m =>
      if 2 ^ 64 ≤ m + 1 then .error .panic
      else .ok (⟨maxBytes, m + 1, r.totalBytes, r.pending⟩, r.files)

end Spool

end ArchivAgent
