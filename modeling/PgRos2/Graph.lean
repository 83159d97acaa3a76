import PgRos2.Database
import Mathlib.Data.String.Basic
import Mathlib.Data.List.Sort
import Mathlib.Data.Prod.Lex

/-!
# The graph

`GraphSnapshot::read`, from what the ROS graph answers, and `persist_snapshot`, which rewrites the
tables of the graph unless it takes them to hold the snapshot already.
-/

namespace PgRos2

structure GraphSnapshot where
  nodes : List Name
  topics : List Name
  deriving DecidableEq

/-- What the ROS graph answers: `get_node_names`, as name and namespace, and
`get_topic_names_and_types`. -/
structure RosGraph where
  nodeNames : List Name
  topicNamesAndTypes : List (String × List String)

/-- The order of pairs of strings. -/
def Name.Le (a b : Name) : Prop := a.1 < b.1 ∨ (a.1 = b.1 ∧ a.2 ≤ b.2)

instance : DecidableRel Name.Le := fun a b =>
  inferInstanceAs (Decidable (a.1 < b.1 ∨ (a.1 = b.1 ∧ a.2 ≤ b.2)))

theorem Name.le_iff {a b : Name} : a.Le b ↔ toLex a ≤ toLex b := Prod.Lex.toLex_le_toLex.symm

instance : Std.Total Name.Le := ⟨fun a b => by
  rw [Name.le_iff, Name.le_iff]
  exact le_total _ _⟩

instance : IsTrans Name Name.Le := ⟨fun a b c hab hbc => by
  rw [Name.le_iff] at hab hbc ⊢
  exact hab.trans hbc⟩

instance : Std.Antisymm Name.Le := ⟨fun a b hab hba => by
  rw [Name.le_iff] at hab hba
  exact toLex.injective (hab.antisymm hba)⟩

/-- `GraphSnapshot::read`: every node but the observer, and every topic with each of its types. -/
def GraphSnapshot.read (observer : Name) (graph : RosGraph) : GraphSnapshot where
  nodes := (graph.nodeNames.filter fun info =>
    info.1 ≠ observer.1 ∨ info.2 ≠ observer.2).insertionSort Name.Le
  topics := (graph.topicNamesAndTypes.flatMap fun topic =>
    topic.2.map fun kind => (topic.1, kind)).insertionSort Name.Le

/-- `persist_snapshot`, within its transaction: the database it leaves and the OID it found. -/
def persistSnapshot (ext : Option Extension) (pid : ℕ) (now : Time)
    (snapshot : Except String GraphSnapshot) (previous : Option GraphSnapshot)
    (previousExtension : Option Oid) : Option Extension × Option Oid :=
  match ext with
  | none => (none, none)
  | some ext =>
    let oid := ext.oid
    match snapshot with
    | .ok value =>
      let changed : Bool := previous ≠ some value ∨ previousExtension ≠ some oid
      let ext := if changed then
          { ext with
            nodes := value.nodes.map fun name => (name, now)
            topics := value.topics.map fun name => (name, now) }
        else ext
      (some { ext with
        workerStatus := some (upsertStatus ext.workerStatus pid now changed none) }, some oid)
    | .error error =>
      (some { ext with
        workerStatus := some (upsertStatus ext.workerStatus pid now false (some error)) }, some oid)

end PgRos2
