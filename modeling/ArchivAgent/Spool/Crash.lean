import ArchivAgent.Spool.Held
import Mathlib.Data.List.Induction
import Mathlib.Logic.Function.Basic

/-!
# Crashes

The file system as POSIX promises it: what a file holds is durable once `sync_all` has returned,
and each change of the directory's entries is atomic, but a crash may keep or undo it as long as
the directory itself is not synced, which nothing in the spool does.
-/

namespace ArchivAgent.Spool
open Wire (Bytes)

inductive Inode where
  /-- The file that had the name when the spool was opened. -/
  | found (name : Bytes)
  | made (n : Nat)
  deriving DecidableEq, Repr

abbrev Entries := Bytes → Option Inode

abbrev Change := List (Bytes × Option Inode)

def Entries.apply (entries : Entries) : Change → Entries
  | [] => entries
  | e :: c => apply (Function.update entries e.1 e.2) c

/-- The directory that had the files, after some changes. -/
def directory (base : Files) (changes : List Change) : Entries :=
  changes.foldl Entries.apply fun name => (base.lookup name).map fun _ => .found name

section Directory
variable {base : Files} {changes : List Change} {c : Change} {name : Bytes} {i : Inode}

theorem directory_append : directory base (changes ++ [c]) = (directory base changes).apply c := by
  rw [directory, List.foldl_append]
  rfl

theorem apply_some {entries : Entries} (held : entries.apply c name = some i) :
    entries name = some i ∨ (name, some i) ∈ c := by
  induction c generalizing entries with
  | nil => exact .inl held
  | cons e c ih =>
    rcases ih held with updated | member
    · by_cases here : name = e.1
      · rw [here, Function.update_self] at updated
        exact .inr (List.mem_cons.mpr (.inl (by rw [here, ← updated])))
      · rw [Function.update_of_ne here] at updated
        exact .inl updated
    · exact .inr (List.mem_cons_of_mem _ member)

/-- What a directory has was there, or a change has put it there. -/
theorem directory_some (held : directory base changes name = some i) :
    (i = .found name ∧ (base.lookup name).isSome = true) ∨ ∃ c ∈ changes, (name, some i) ∈ c := by
  induction changes using List.reverseRecOn with
  | nil =>
    obtain ⟨content, found, rfl⟩ := Option.map_eq_some_iff.mp held
    exact .inl ⟨rfl, by rw [found]; rfl⟩
  | append_singleton changes c ih =>
    rw [directory_append] at held
    rcases apply_some held with old | new
    · exact (ih old).imp_right fun ⟨c', member, inside⟩ => ⟨c', List.mem_append_left _ member, inside⟩
    · exact .inr ⟨c, List.mem_append_right _ (List.mem_singleton_self _), new⟩

theorem apply_isSome {entries : Entries} (kept : ∀ e ∈ c, e.1 = name → e.2.isSome = true)
    (given : (entries name).isSome = true ∨ ∃ e ∈ c, e.1 = name) : (entries.apply c name).isSome = true := by
  induction c generalizing entries with
  | nil => exact given.resolve_right nofun
  | cons e c ih =>
    simp only [List.mem_cons, forall_eq_or_imp] at kept
    apply ih kept.2
    by_cases here : e.1 = name
    · refine .inl ?_
      rw [← here, Function.update_self]
      exact kept.1 here
    · rw [Function.update_of_ne (Ne.symm here)]
      refine given.imp_right fun ⟨e', member, same⟩ => ?_
      rcases List.mem_cons.mp member with rfl | member
      · exact absurd same here
      · exact ⟨e', member, same⟩

theorem directory_isSome (kept : ∀ c ∈ changes, ∀ e ∈ c, e.1 = name → e.2.isSome = true)
    (given : ∃ c ∈ changes, ∃ e ∈ c, e.1 = name) : (directory base changes name).isSome = true := by
  induction changes using List.reverseRecOn with
  | nil =>
    obtain ⟨c, member, -⟩ := given
    cases member
  | append_singleton changes c ih =>
    rw [directory_append]
    apply apply_isSome (kept c (List.mem_append_right _ (List.mem_singleton_self _)))
    obtain ⟨c', member, inside⟩ := given
    rcases List.mem_append.mp member with old | new
    · exact .inl (ih (fun c member => kept c (List.mem_append_left _ member)) ⟨c', old, inside⟩)
    · exact .inr (List.mem_singleton.mp new ▸ inside)

end Directory

/-- What has happened to the directory and its files since the spool was opened. -/
structure Journal where
  base : Files
  /-- What a file holds after a crash, where that is certain. -/
  durable : Inode → Option Bytes
  changes : List Change
  made : Nat := 0

namespace Journal

def inode (j : Journal) : Entries := directory j.base j.changes

def change (j : Journal) (c : Change) : Journal := { j with changes := j.changes ++ [c] }

def setDurable (j : Journal) (i : Inode) (content : Option Bytes) : Journal :=
  { j with durable := Function.update j.durable i content }

/-- `rename` puts the file of the stray name under the published one. -/
def renameOf (seq : Nat) (i : Inode) : Change := [(tmpName seq, none), (otlpName seq, some i)]

def removalOf (seq : Nat) : Change := [(otlpName seq, none)]

/-- `File::create` finds the file or makes one. -/
def create (j : Journal) (seq : Nat) : Journal :=
  match j.inode (tmpName seq) with
  | some i => j.setDurable i none
  | none => { (j.change [(tmpName seq, some (.made j.made))]).setDurable (.made j.made) none with made := j.made + 1 }

/-- A file operation on the stray file, after which it is certain to hold that, or nothing is certain. -/
def touch (j : Journal) (seq : Nat) (content : Option Bytes) : Journal :=
  match j.inode (tmpName seq) with
  | some i => j.setDurable i content
  | none => j

def rename (j : Journal) (seq : Nat) : Journal :=
  match j.inode (tmpName seq) with
  | some i => j.change (renameOf seq i)
  | none => j

def record (j : Journal) (w : World) : Event → Journal
  | .create id => ((w.pushes.lookup id).map fun p => j.create p.seq).getD j
  | .write id _ => ((w.pushes.lookup id).map fun p => j.touch p.seq none).getD j
  | .sync id => ((w.pushes.lookup id).map fun p => j.touch p.seq (w.files.lookup (tmpName p.seq))).getD j
  | .rename id => ((w.pushes.lookup id).map fun p => j.rename p.seq).getD j
  | .remove id => ((w.drains.lookup id).map fun d => j.change (removalOf d.seq)).getD j
  | _ => j

/-- The directory that a crash leaves, when it keeps these changes. -/
def Leaves (j : Journal) (kept : List Change) (files : Files) : Prop :=
  kept.Sublist j.changes ∧ ∀ name, match directory j.base kept name with
    | none => files.lookup name = none
    | some i => ∃ content, files.lookup name = some content ∧ ∀ certain, j.durable i = some certain → content = certain

end Journal

structure Disk where
  world : World
  log : Journal

namespace Disk

def step (s : Disk) (e : Event) : Option Disk := (s.world.step e).map fun world => ⟨world, s.log.record s.world e⟩

def run (s : Disk) (es : List Event) : Option Disk := Transition.run step s es

/-- The spool of a directory; the removals of the sweep are not durable either. -/
def start (sp : Spool) (files files' : Files) : Disk where
  world := World.start sp files'
  log := {
    base := files
    durable := fun
      | .found name => files.lookup name
      | .made _ => none
    changes := (files.keys.filter fun name => (files'.lookup name).isNone).map fun name => [(name, none)] }

end Disk

end ArchivAgent.Spool
