import PgRos2.Lib.Mirror
import PgRos2.Proofs.Frame

/-!
# What the worker saved

The graph and the parameters in the tables, and what the worker remembers of both. Only the graph
step, the parameter step and the start of a poll change them while the worker runs
(`Frame.keepsGraph`, `Frame.keepsParameters`).
-/

namespace PgRos2

open Lib

/-- The tables of the graph, with the installation they belong to. -/
def Extension.graph (ext : Extension) : Oid × List Name × List Name :=
  (ext.oid, ext.nodes.map Prod.fst, ext.topics.map Prod.fst)

/-- The table of the parameters, with the installation it belongs to. -/
def Extension.parameterRows (ext : Extension) : Oid × List Parameter :=
  (ext.oid, ext.parameters.map Prod.fst)

/-- The graph stays as it is in its tables and in the memory of the worker, unless that is gone. -/
structure KeepsGraph (w w' : World) : Prop where
  nextOid : w'.nextOid = w.nextOid
  tables : w'.extension.map Extension.graph = w.extension.map Extension.graph
  memory : w'.worker = none ∨ w'.worker.map (fun o => (o.previous, o.extensionOid))
    = w.worker.map fun o => (o.previous, o.extensionOid)

/-- The parameters stay as they are in their table and in the memory of the worker, unless that is
gone. -/
structure KeepsParameters (w w' : World) : Prop where
  nextOid : w'.nextOid = w.nextOid
  tables : w'.extension.map Extension.parameterRows = w.extension.map Extension.parameterRows
  memory : w'.worker = none ∨ w'.worker.map (fun o => (o.previousParameters, o.parameterExtension))
    = w.worker.map fun o => (o.previousParameters, o.parameterExtension)

/-- What an outcome is to a mirror, where it was persisted. -/
def labelOf {σ : Type} : Option (Oid × Except String σ) → Mirror.Label σ
  | none => .quiet
  | some (_, .error _) => .failed
  | some (_, .ok v) => .saved v

theorem labelOf_eq_failed {σ : Type} {p : Option (Oid × Except String σ)}
    (h : labelOf p = .failed) : ∃ q ∈ p, q.2.isOk = false := by
  rcases p with _ | ⟨oid, error | v⟩
  · cases h
  · exact ⟨_, rfl, rfl⟩
  · cases h

variable {w w' : World} {o : Observer} {s : Session}

theorem Frame.keepsGraph (h : Frame w w') : KeepsGraph w w' where
  nextOid := h.nextOid
  tables := h.map_tables fun t => (t.1, t.2.1.1.map Prod.fst, t.2.1.2.1.map Prod.fst)
  memory := h.map_memory fun m => m.1.2

theorem Frame.keepsParameters (h : Frame w w') : KeepsParameters w w' where
  nextOid := h.nextOid
  tables := h.map_tables fun t => (t.1, t.2.2.1.map Prod.fst)
  memory := h.map_memory fun m => m.2

theorem KeepsGraph.of_resume (ho : w.worker = some o) {ext : Option Extension}
    (hext : ext.map Extension.graph = w.extension.map Extension.graph) (o' : Observer)
    (s : Session) (hp : o'.previous = o.previous) (hx : o'.extensionOid = o.extensionOid) :
    KeepsGraph w ({ w with extension := ext }.resume o' s) :=
  ⟨rfl, hext, .inr (by simp [World.resume, ho, hp, hx])⟩

theorem KeepsParameters.of_resume (ho : w.worker = some o) {ext : Option Extension}
    (hext : ext.map Extension.parameterRows = w.extension.map Extension.parameterRows)
    (o' : Observer) (s : Session) (hp : o'.previousParameters = o.previousParameters)
    (hx : o'.parameterExtension = o.parameterExtension) :
    KeepsParameters w ({ w with extension := ext }.resume o' s) :=
  ⟨rfl, hext, .inr (by simp [World.resume, ho, hp, hx])⟩

end PgRos2
