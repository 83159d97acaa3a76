import PgRos2.Worker

/-!
# What the transactions write

Each transaction of the worker rewrites columns of its own: those of the graph, those of the
parameters, or the subscriptions with their messages. The latter are given by topic.
-/

namespace PgRos2

open Lib

theorem except_bind_eq_ok {α β : Type} {x : Except String α} {f : α → Except String β} {b : β}
    (h : (x >>= f) = .ok b) : ∃ a, x = .ok a ∧ f a = .ok b := by
  rcases x with error | a
  · cases h
  · exact ⟨a, rfl, h⟩

/-! ## The graph and the parameters -/

theorem persistSnapshot_frame (ext : Extension) (pid : ℕ) (now : Time)
    (snapshot : Except String GraphSnapshot) (previous : Option GraphSnapshot)
    (previousExtension : Option Oid) :
    ∃ nodes topics workerStatus,
      (persistSnapshot (some ext) pid now snapshot previous previousExtension).1
        = some { ext with nodes, topics, workerStatus } := by
  rcases snapshot with error | value
  · exact ⟨_, _, _, rfl⟩
  · simp only [persistSnapshot]
    split
    · exact ⟨_, _, _, rfl⟩
    · exact ⟨_, _, _, rfl⟩

/-- A parameter as `jsonb` stores it. -/
def Parameter.jsonb (p : Parameter) : Option Parameter :=
  p.value.jsonb.map fun value => { p with value }

/-- The `INSERT`s add the rows as `jsonb` stores them. -/
theorem insertParameters_eq_some [Postgres] (now : Time) :
    ∀ {ps : List Parameter} {ext ext' : Extension}, insertParameters now ps ext = some ext' →
      ∃ rows, ps.mapM Parameter.jsonb = some rows
        ∧ ext' = { ext with parameters := ext.parameters ++ rows.map fun row => (row, now) }
  | [], ext, ext', h => by
    cases h
    exact ⟨[], rfl, by simp⟩
  | p :: ps, ext, ext', h => by
    simp only [insertParameters, Extension.insertParameter] at h
    split at h
    · cases h
    · obtain ⟨ext₁, h₁, h⟩ := Option.bind_eq_some_iff.mp h
      obtain ⟨value, hv, rfl⟩ := Option.map_eq_some_iff.mp h₁
      obtain ⟨rows, hrows, rfl⟩ := insertParameters_eq_some now h
      have hp : p.jsonb = some { p with value } := by simp [Parameter.jsonb, hv]
      refine ⟨{ p with value } :: rows, ?_, ?_⟩
      · rw [List.mapM_cons, hp, hrows]
        rfl
      · simp

/-- Whether `persist` rewrites the table. -/
def rewrites (ext : Extension) (ps : List Parameter) (previous : Option (List Parameter))
    (previousExtension : Option Oid) : Bool :=
  !(previous.any fun previous => Parameter.eqAll previous ps) || previousExtension ≠ some ext.oid

section Persist

variable [Postgres] {ext : Extension} {pid : ℕ} {now : Time} {ps : List Parameter}
  {previous : Option (List Parameter)} {previousExtension : Option Oid}
  {r : Option Extension × Option Oid}

/-- `persist` of a snapshot. -/
theorem persist_ok_eq : persist (some ext) pid now (.ok ps) previous previousExtension
    = (if rewrites ext ps previous previousExtension then
        insertParameters now ps { ext with parameters := [] } else some ext).bind fun ext' =>
      some (some { ext' with
        parameterStatus := some (upsertStatus ext'.parameterStatus pid now
          (rewrites ext ps previous previousExtension) none) }, some ext.oid) := by
  rcases hr : rewrites ext ps previous previousExtension with _ | _
  · unfold rewrites at hr
    simp only [persist, hr]
    rfl
  · unfold rewrites at hr
    simp only [persist, hr]
    rfl

/-- A snapshot is written to the emptied table, or the table is the one the worker last wrote it
to. -/
theorem persist_eq_some
    (h : persist (some ext) pid now (.ok ps) previous previousExtension = some r) :
    (∃ rows, rewrites ext ps previous previousExtension = true
        ∧ ps.mapM Parameter.jsonb = some rows
        ∧ r = (some { ext with
          parameters := rows.map fun row => (row, now)
          parameterStatus := some (upsertStatus ext.parameterStatus pid now true none) },
            some ext.oid))
      ∨ ∃ ps', rewrites ext ps previous previousExtension = false ∧ previous = some ps'
        ∧ Parameter.eqAll ps' ps = true ∧ previousExtension = some ext.oid
        ∧ r = (some { ext with
          parameterStatus := some (upsertStatus ext.parameterStatus pid now false none) },
            some ext.oid) := by
  rw [persist_ok_eq] at h
  rcases hr : rewrites ext ps previous previousExtension with _ | _ <;> rw [hr] at h
  · cases h
    simp only [rewrites, Bool.or_eq_false_iff, Bool.not_eq_false', Option.any_eq_true,
      decide_eq_false_iff_not, not_not] at hr
    obtain ⟨⟨ps', hprevious, hsame⟩, hoid⟩ := hr
    exact .inr ⟨ps', rfl, hprevious, hsame, hoid, rfl⟩
  · obtain ⟨ext', hext, h⟩ := Option.bind_eq_some_iff.mp h
    obtain ⟨rows, hrows, rfl⟩ := insertParameters_eq_some now hext
    cases h
    exact .inl ⟨rows, rfl, hrows, by rw [List.nil_append]⟩

theorem persist_frame {snapshot : Except String (List Parameter)}
    (h : persist (some ext) pid now snapshot previous previousExtension = some r) :
    ∃ parameters parameterStatus,
      r = (some { ext with parameters, parameterStatus }, some ext.oid) := by
  rcases snapshot with error | ps
  · cases h
    exact ⟨_, _, rfl⟩
  · obtain ⟨rows, -, -, rfl⟩ | ⟨ps', -, -, -, -, rfl⟩ := persist_eq_some h
    · exact ⟨_, _, rfl⟩
    · exact ⟨_, _, rfl⟩

end Persist

/-! ## The subscriptions and the messages -/

/-- What the write-back does to the row of a topic. -/
def Subscription.settle : Except String String → Subscription → Subscription
  | .ok kind, row => { row with messageType := some kind, lastError := none }
  | .error error, row => { row with lastError := some error }

theorem writeMetadata_eq :
    ∀ (metadata : List (String × Except String String)) (ext : Extension),
      writeMetadata metadata ext = { ext with
        subscriptions := metadata.foldl (fun rows m => rows.update m.1 (Subscription.settle m.2))
          ext.subscriptions }
  | [], _ => rfl
  | (topic, .ok kind) :: metadata, ext => writeMetadata_eq metadata (ext.setMessageType topic kind)
  | (topic, .error error) :: metadata, ext =>
    writeMetadata_eq metadata (ext.setLastError topic error)

theorem foldl_deleteMessage :
    ∀ (topics : List String) (ext : Extension),
      topics.foldl Extension.deleteMessage ext
        = { ext with messages := ext.messages.eraseAll topics }
  | [], _ => rfl
  | topic :: topics, ext => foldl_deleteMessage topics (ext.deleteMessage topic)

theorem foldl_deleteSubscription :
    ∀ (topics : List String) (ext : Extension),
      topics.foldl Extension.deleteSubscription ext
        = { ext with subscriptions := ext.subscriptions.eraseAll topics }
  | [], _ => rfl
  | topic :: topics, ext => foldl_deleteSubscription topics (ext.deleteSubscription topic)

theorem writeBack_eq (pass : Pass) (ext : Extension) :
    writeBack pass ext = { ext with
      subscriptions := (pass.metadata.foldl
        (fun rows m => rows.update m.1 (Subscription.settle m.2)) ext.subscriptions).eraseAll
          pass.expired,
      messages := ext.messages.eraseAll (pass.removed ++ pass.expired) } := by
  rw [writeBack, foldl_deleteMessage, foldl_deleteSubscription, writeMetadata_eq]

/-- The row of a topic after the metadata updates. -/
theorem lookup_foldl_update {α : Type} (f : α → Subscription → Subscription) (t : String) :
    ∀ (ms : List (String × α)) (rows : Table String Subscription),
      (ms.foldl (fun rows m => rows.update m.1 (f m.2)) rows).lookup t
        = (rows.lookup t).map fun row =>
          ms.foldl (fun row m => if t = m.1 then f m.2 row else row) row
  | [], rows => by simp
  | m :: ms, rows => by
    rw [List.foldl_cons, lookup_foldl_update f t ms, Table.lookup_update]
    split
    · rename_i h
      simp [Function.comp_def, h]
    · rename_i h
      simp [h]

theorem writeErrors_eq :
    ∀ (errors : List (String × String)) (ext : Extension),
      writeErrors errors ext = { ext with
        subscriptions := errors.foldl
          (fun rows m => rows.update m.1 (Subscription.settle (.error m.2))) ext.subscriptions }
  | [], _ => rfl
  | (topic, error) :: errors, ext => writeErrors_eq errors (ext.setLastError topic error)

/-- What a flush does to the row of a topic it has a message of. -/
def Subscription.touch (now : Time) (row : Subscription) : Subscription :=
  { row with lastMessageAt := some now, lastError := none }

theorem writeMessages_eq_some (now : Time) :
    ∀ {ms : List (String × ℕ × Value)} {ext ext' : Extension},
      writeMessages now ms ext = some ext' →
      ∃ messages, (∀ t, (messages.lookup t).isSome
          ↔ (ext.messages.lookup t).isSome ∨ t ∈ ms.map Prod.fst)
        ∧ ext' = { ext with
          subscriptions := ms.foldl (fun rows m => rows.update m.1 (Subscription.touch now))
            ext.subscriptions,
          messages }
  | [], ext, ext', h => by
    cases h
    exact ⟨ext.messages, by simp, rfl⟩
  | (topic, sequence, value) :: ms, ext, ext', h => by
    obtain ⟨ext₁, h₁, h⟩ := Option.bind_eq_some_iff.mp h
    obtain ⟨message, -, rfl⟩ := Option.map_eq_some_iff.mp h₁
    obtain ⟨messages, hlookup, rfl⟩ := writeMessages_eq_some now h
    refine ⟨messages, fun t => ?_, rfl⟩
    rw [hlookup t]
    simp only [Extension.setLastMessage, Table.lookup_insert, List.map_cons, List.mem_cons]
    by_cases ht : t = topic
    · simp [ht]
    · simp [ht]

end PgRos2
