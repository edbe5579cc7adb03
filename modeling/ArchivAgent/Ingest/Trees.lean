import ArchivAgent.Ingest.Windows
import ArchivAgent.Wire.Proto3

/-!
# Messages as trees

A message is a list of nodes. A node is a child, encoded in shortest form from what is under it, or
a plain field, which is copied as it is.
-/

namespace ArchivAgent
open Wire

/-- A field the exporter copies: under a governed number only when it is not delimited. -/
structure Plain (governed : List Nat) where
  field : Field
  wellFormed : field.WellFormed
  small : field.number < 2 ^ 29
  other : field.number ∈ governed → field.wire ≠ 2

inductive Node (governed : List Nat) (α : Type) where
  | child (a : α)
  | plain (o : Plain governed)

abbrev AnyValueTree := List (Node [1] Bytes)

abbrev KeyValueTree := List (Node [2] AnyValueTree)

abbrev RecordTree := List (Node [5, 6] (AnyValueTree ⊕ KeyValueTree))

abbrev ScopeTree := List (Node [2] RecordTree)

/-! ### The reference encoder -/

/-- Under which number a child stands, and its content. -/
structure Coding (α : Type) where
  number : α → Nat
  encode : α → Bytes

section Encode
variable {α : Type} {governed : List Nat}

def Node.field (c : Coding α) : Node governed α → Field
  | .child a => .delimited (c.number a) (c.encode a)
  | .plain o => o.field

def encodeNodes (c : Coding α) (nodes : List (Node governed α)) : Bytes :=
  (nodes.map (Node.field c)).flatMap Field.bytes

end Encode

def stringCoding : Coding Bytes := ⟨fun _ => 1, id⟩

def anyValueCoding : Coding AnyValueTree := ⟨fun _ => 2, encodeNodes stringCoding⟩

def keyValueCoding : Coding KeyValueTree := ⟨fun _ => 6, encodeNodes anyValueCoding⟩

def recordPartCoding : Coding (AnyValueTree ⊕ KeyValueTree) where
  number := fun | .inl _ => 5 | .inr _ => 6
  encode := fun | .inl body => anyValueCoding.encode body | .inr attr => keyValueCoding.encode attr

def recordCoding : Coding RecordTree := ⟨fun _ => 2, encodeNodes recordPartCoding⟩

def scopeCoding : Coding ScopeTree := ⟨fun _ => 2, encodeNodes recordCoding⟩

theorem recordPart_small (part : AnyValueTree ⊕ KeyValueTree) : recordPartCoding.number part < 2 ^ 29 := by
  cases part with
  | inl _ => exact show 5 < 2 ^ 29 by decide
  | inr _ => exact show 6 < 2 ^ 29 by decide

/-! ### The fields of an encoding -/

section Nodes
variable {α : Type} {governed : List Nat} {c : Coding α} (small : ∀ a, c.number a < 2 ^ 29)

theorem encodeNodes_cons (node : Node governed α) (nodes : List (Node governed α)) :
    encodeNodes c (node :: nodes) = (node.field c).bytes ++ encodeNodes c nodes := rfl

theorem node_short {node : Node governed α} {nodes : List (Node governed α)} (member : node ∈ nodes) {bound : Nat}
    (short : (encodeNodes c nodes).length < bound) : (node.field c).bytes.length < bound :=
  Nat.lt_of_le_of_lt (List.sublist_flatten_of_mem
    (List.mem_map_of_mem (f := Field.bytes) (List.mem_map_of_mem (f := Node.field c) member))).length_le short

theorem child_short {a : α} {nodes : List (Node governed α)} (member : .child a ∈ nodes) {bound : Nat}
    (short : (encodeNodes c nodes).length < bound) : (c.encode a).length < bound := by
  have := node_short member short
  simp only [Node.field, Field.bytes, List.length_append, body_delimited] at this
  omega

include small

theorem node_wellFormed (node : Node governed α) (short : (node.field c).bytes.length < 2 ^ 64) :
    (node.field c).WellFormed := by
  cases node with
  | plain o => exact o.wellFormed
  | child a =>
    apply delimited_wellFormed (Nat.lt_trans (small a) (by decide))
    simp only [Node.field, Field.bytes, List.length_append, body_delimited] at short
    omega

theorem encodeNodes_fields {nodes : List (Node governed α)} (short : (encodeNodes c nodes).length < 2 ^ 64) :
    fields (encodeNodes c nodes) = some (nodes.map (Node.field c)) := by
  refine fields_flatMap fun f member => ?_
  obtain ⟨node, within, rfl⟩ := List.mem_map.mp member
  exact node_wellFormed small node (node_short within short)

end Nodes

end ArchivAgent
