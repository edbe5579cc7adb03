import ArchivAgent.Wire.Field

/-!
# proto3 fields

How proto3 reads a field of a message from its occurrences: the last one of a singular scalar and
of the members of a oneof, all of them together for an embedded message, and nothing as empty.
-/

namespace Wire

/-- The fields of a message, under the numbers protobuf allows. -/
def message (bs : Bytes) : Option (List Field) :=
  (fields bs).bind fun fs => if fs.all (fun f => 0 < f.number ∧ f.number < 2 ^ 29) then some fs else none

/-- What the occurrences of a delimited field carry. -/
def occurrences (n : Nat) (fs : List Field) : List Bytes :=
  (fs.filter fun f => f.number = n ∧ f.wire = 2).map Field.body

def stringField (n : Nat) (fs : List Field) : Bytes := (occurrences n fs).getLast?.getD []

/-- The fields of an embedded message, those of its occurrences one after the other. -/
def embedded (n : Nat) (fs : List Field) : Option (List Field) :=
  ((occurrences n fs).mapM message).map List.flatten

def oneof {β : Type} (member : Field → Option β) (fs : List Field) : Option β := (fs.filterMap member).getLast?

theorem message_fields {bs : Bytes} {fs : List Field} (h : message bs = some fs) :
    fields bs = some fs ∧ ∀ f ∈ fs, f.number < 2 ^ 29 := by
  obtain ⟨gs, read, checked⟩ := Option.bind_eq_some_iff.mp h
  simp only [Option.ite_none_right_eq_some, Option.some.injEq, List.all_eq_true, decide_eq_true_eq] at checked
  obtain ⟨small, rfl⟩ := checked
  exact ⟨read, fun f member => (small f member).2⟩

theorem occurrences_append (n : Nat) (fs gs : List Field) :
    occurrences n (fs ++ gs) = occurrences n fs ++ occurrences n gs := by
  simp only [occurrences, List.filter_append, List.map_append]

theorem oneof_append {β : Type} (member : Field → Option β) (fs gs : List Field) :
    oneof member (fs ++ gs) = (oneof member gs).or (oneof member fs) := by
  simp only [oneof, List.filterMap_append, List.getLast?_append]

theorem mapM_some_cons {α β : Type} {f : α → Option β} {a : α} {as : List α} {bs : List β}
    (h : (a :: as).mapM f = some bs) : ∃ b bs', f a = some b ∧ as.mapM f = some bs' ∧ bs = b :: bs' := by
  rw [List.mapM_cons] at h
  obtain ⟨b, first, h⟩ := Option.bind_eq_some_iff.mp h
  obtain ⟨bs', rest, h⟩ := Option.bind_eq_some_iff.mp h
  cases h
  exact ⟨b, bs', first, rest, rfl⟩

theorem mapM_some_mem {α β : Type} {f : α → Option β} {as : List α} {bs : List β} (h : as.mapM f = some bs) :
    ∀ a ∈ as, ∃ b ∈ bs, f a = some b := by
  induction as generalizing bs with
  | nil => simp
  | cons a as ih =>
    obtain ⟨b, bs', first, rest, rfl⟩ := mapM_some_cons h
    intro a' member
    rcases List.mem_cons.mp member with rfl | later
    · exact ⟨b, List.mem_cons_self, first⟩
    · obtain ⟨b', member', image⟩ := ih rest a' later
      exact ⟨b', List.mem_cons_of_mem b member', image⟩

end Wire
