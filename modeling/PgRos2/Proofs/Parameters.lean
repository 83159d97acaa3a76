import PgRos2.Proofs.Graph

/-!
# The saved parameters

The table of the parameters with `previous_parameters` and `parameter_extension` are a mirror, and
a step of the system is a step of it (`step_parameterMirror`). What `==` takes to be equal is
stored alike (`Value.jsonb_of_eq`), so the table holds the last poll in every run in which a poll
fails only while the worker holds no rows or has seen the installation (`parameters_saved`).
-/

namespace PgRos2

open Lib

/-! ## Equal values are stored alike -/

theorem Number.jsonb_of_eq {n n' : Number} (h : n.eq n' = true) : n.jsonb = n'.jsonb := by
  rcases n with n | i | x <;> rcases n' with n' | i' | x' <;>
    simp only [Number.eq, decide_eq_true_eq, Bool.false_eq_true, Bool.decide_or, Bool.or_eq_true,
      Bool.decide_and, Bool.and_eq_true, Bool.decide_eq_true] at h
  · rw [h]
  · rw [h]
  · rcases h with rfl | ⟨hx, hx'⟩
    · rfl
    · simp [Number.jsonb, hx, hx']

namespace Value

mutual

theorem jsonb_of_eq : ∀ {v v' : Value}, v.eq v' = true → v.jsonb = v'.jsonb
  | .null, v', h => by cases v' <;> simp_all [eq]
  | .bool b, v', h => by cases v' <;> simp_all [eq]
  | .number n, v', h => by
    cases v' <;> simp only [eq, Bool.false_eq_true] at h
    rw [jsonb, jsonb, Number.jsonb_of_eq h]
  | .string s, v', h => by cases v' <;> simp_all [eq]
  | .array xs, v', h => by
    cases v' <;> simp only [eq, Bool.false_eq_true] at h
    rw [jsonb, jsonb, jsonbElements_of_eq h]
  | .object ms, v', h => by
    cases v' <;> simp only [eq, Bool.false_eq_true] at h
    rw [jsonb, jsonb, jsonbMembers_of_eq h]

theorem jsonbElements_of_eq : ∀ {xs xs' : List Value}, eqElements xs xs' = true →
    jsonbElements xs = jsonbElements xs'
  | [], [], _ => rfl
  | [], _ :: _, h => by simp [eqElements] at h
  | _ :: _, [], h => by simp [eqElements] at h
  | x :: xs, x' :: xs', h => by
    simp only [eqElements, Bool.and_eq_true] at h
    rw [jsonbElements, jsonbElements, jsonb_of_eq h.1, jsonbElements_of_eq h.2]

theorem jsonbMembers_of_eq : ∀ {ms ms' : List (String × Value)}, eqMembers ms ms' = true →
    jsonbMembers ms = jsonbMembers ms'
  | [], [], _ => rfl
  | [], _ :: _, h => by simp [eqMembers] at h
  | _ :: _, [], h => by simp [eqMembers] at h
  | (k, x) :: ms, (k', x') :: ms', h => by
    simp only [eqMembers, Bool.and_eq_true, decide_eq_true_eq] at h
    obtain ⟨⟨rfl, hx⟩, hms⟩ := h
    rw [jsonbMembers, jsonbMembers, jsonb_of_eq hx, jsonbMembers_of_eq hms]

end

end Value

theorem Parameter.jsonb_of_eq {p p' : Parameter} (h : p.eq p' = true) : p.jsonb = p'.jsonb := by
  obtain ⟨node, ns, name, kind, value⟩ := p
  obtain ⟨node', ns', name', kind', value'⟩ := p'
  simp only [Parameter.eq, Parameter.key, Bool.and_eq_true, decide_eq_true_eq,
    Prod.mk.injEq] at h
  obtain ⟨⟨⟨rfl, rfl, rfl⟩, rfl⟩, hv⟩ := h
  rw [Parameter.jsonb, Parameter.jsonb, Value.jsonb_of_eq hv]

theorem Parameter.mapM_jsonb_of_eqAll : ∀ {ps ps' : List Parameter}, eqAll ps ps' = true →
    ps.mapM Parameter.jsonb = ps'.mapM Parameter.jsonb
  | [], [], _ => rfl
  | [], _ :: _, h => by simp [eqAll] at h
  | _ :: _, [], h => by simp [eqAll] at h
  | p :: ps, p' :: ps', h => by
    simp only [eqAll, Bool.and_eq_true] at h
    rw [List.mapM_cons, List.mapM_cons, jsonb_of_eq h.1, mapM_jsonb_of_eqAll h.2]

/-! ## The mirror -/

/-- The outcome of a poll that an event persists, with the installation it persists it in. -/
def World.polled [Bounds] (w : World) : Event → Option (Oid × Except String (List Parameter))
  | .tick answers => do
    let o ← w.worker
    let s ← o.session
    let ext ← w.extension
    match s.phase, s.parameterPoll with
    | .poll, some poll =>
      match poll.tick w.now answers with
      | .ok (_, none) => none
      | .ok (_, some snapshot) => some (ext.oid, .ok snapshot)
      | .error error => some (ext.oid, .error error)
    | _, _ => none
  | .startPoll answers => do
    let o ← w.worker
    let s ← o.session
    let ext ← w.extension
    match s.phase with
    | .start nodes =>
      match Poll.start w.now nodes answers with
      | .ok _ => none
      | .error error => some (ext.oid, .error error)
    | _ => none
  | _ => none

/-- The table of the parameters holds exactly the rows of a poll, as `jsonb` stores them. -/
def Extension.HoldsParameters (ext : Extension) (ps : List Parameter) : Prop :=
  ps.mapM Parameter.jsonb = some (ext.parameters.map Prod.fst)

/-- The worker holds no rows, or the OID it remembers is that of the installation. -/
def World.TrustsParameters (w : World) : Prop :=
  ∀ o ∈ w.worker,
    o.previousParameters = none ∨ o.parameterExtension = w.extension.map Extension.oid

instance (w : World) : Decidable w.TrustsParameters :=
  inferInstanceAs (Decidable (∀ o ∈ w.worker, _))

/-- A poll fails only where the worker trusts its rows. -/
def ParameterGuard [Bounds] (w : World) (e : Event) : Prop :=
  ∀ p ∈ w.polled e, p.2.isOk = false → w.TrustsParameters

instance [Bounds] (w : World) (e : Event) : Decidable (ParameterGuard w e) :=
  inferInstanceAs (Decidable (∀ p ∈ w.polled e, _))

/-- The table of the parameters and what the worker remembers of it. -/
def parameterMirror (w : World) : Mirror (List Parameter) (List Parameter) where
  table := w.extension.map Extension.parameterRows
  next := w.nextOid
  held := w.worker.bind Observer.previousParameters
  seen := w.worker.bind Observer.parameterExtension

def showsParameters (ps rows : List Parameter) : Prop := ps.mapM Parameter.jsonb = some rows

def sameParameters (ps ps' : List Parameter) : Prop := Parameter.eqAll ps ps' = true

theorem showsParameters_of_same (ps ps' rows : List Parameter) (h : sameParameters ps' ps)
    (hr : showsParameters ps' rows) : showsParameters ps rows := by
  rw [showsParameters, ← Parameter.mapM_jsonb_of_eqAll h]
  exact hr

abbrev ParameterStep := Mirror.Step showsParameters sameParameters

theorem KeepsParameters.step {w w' : World} (h : KeepsParameters w w') :
    ParameterStep (parameterMirror w) .quiet (parameterMirror w') :=
  .quiet h.nextOid h.tables (Mirror.memory_cases h.memory)

/-! ## A step of the system is a step of the mirror -/

section

variable {w : World} {o : Observer} {s : Session}

theorem parameterMirror_resume (w : World) (ext : Option Extension) (o : Observer) (s : Session) :
    parameterMirror ({ w with extension := ext }.resume o s) = { parameterMirror w with
      table := ext.map Extension.parameterRows
      held := o.previousParameters
      seen := o.parameterExtension } :=
  rfl

theorem parameterMirror_eq (ho : w.worker = some o) : parameterMirror w =
    ⟨w.extension.map Extension.parameterRows, w.nextOid, o.previousParameters,
      o.parameterExtension⟩ := by
  simp [parameterMirror, ho]

section Persist

variable [Postgres]

/-- `persist` of a snapshot leaves its rows, unless the worker takes them to be there. -/
theorem persist_ok {ext : Extension} {pid : ℕ} {now : Time} {ps : List Parameter}
    {previous : Option (List Parameter)} {oid : Option Oid} {r : Option Extension × Option Oid}
    (h : persist (some ext) pid now (.ok ps) previous oid = some r) :
    r.2 = some ext.oid ∧
      ((∃ rows, showsParameters ps rows
          ∧ r.1.map Extension.parameterRows = some (ext.oid, rows))
        ∨ (∃ ps', previous = some ps' ∧ sameParameters ps' ps ∧ oid = some ext.oid
          ∧ r.1.map Extension.parameterRows = some ext.parameterRows)) := by
  obtain ⟨rows, -, hrows, rfl⟩ | ⟨ps', -, hp, he, ho, rfl⟩ := persist_eq_some h
  · exact ⟨rfl, .inl ⟨rows, hrows, by simp [Extension.parameterRows, Function.comp_def]⟩⟩
  · exact ⟨rfl, .inr ⟨ps', hp, he, ho, rfl⟩⟩

/-- A persisted failure, after which the worker goes on with the OID it found. -/
theorem persist_error_parameterStep (ho : w.worker = some o) {error : String}
    {r : Option Extension × Option Oid} {previous : Option (List Parameter)} {oid : Option Oid}
    (h : persist w.extension o.pid w.now (.error error) previous oid = some r) (o' : Observer)
    (s : Session) (hp : o'.previousParameters = o.previousParameters)
    (hx : o'.parameterExtension = r.2) :
    ParameterStep (parameterMirror w)
      (labelOf (w.extension.map fun ext => (ext.oid, .error error)))
      (parameterMirror ({ w with extension := r.1 }.resume o' s)) := by
  rw [parameterMirror_resume, hp, hx, parameterMirror_eq ho]
  rcases hext : w.extension with _ | ext
  · rw [hext] at h
    cases h
    exact .miss _ _ rfl
  · rw [hext] at h
    cases h
    exact .fail _ rfl

/-- The end of a poll persists its outcome, unless its transaction aborts. -/
theorem completePoll_parameterStep (ho : w.worker = some o)
    (result : Except String (List Parameter)) :
    ParameterStep (parameterMirror w)
      (labelOf (if (w.completePoll o s result).worker = none then none
        else w.extension.map fun ext => (ext.oid, result)))
      (parameterMirror (w.completePoll o s result)) := by
  unfold World.completePoll
  split
  · rw [if_pos rfl]
    exact (Frame.of_lose w).keepsParameters.step
  · rename_i extension persisted h
    rw [if_neg (by simp [World.resume])]
    rcases result with error | ps
    · exact persist_error_parameterStep ho h _ _ rfl rfl
    · rw [parameterMirror_resume, parameterMirror_eq ho]
      rcases hext : w.extension with _ | ext
      · rw [hext] at h
        cases h
        exact .miss _ _ rfl
      · rw [hext] at h
        obtain ⟨hp, ⟨rows, hrows, hr⟩ | ⟨ps', hheld, hsame, hseen, hr⟩⟩ := persist_ok h
        · simp only at hr hp
          rw [hr, hp]
          exact .rewrite _ rfl hrows
        · simp only at hr hp
          rw [hr, hp, ← hseen]
          exact .keep _ rfl hheld hseen hsame

end Persist

theorem quiet_of_none {w' : World} {m m' : Mirror (List Parameter) (List Parameter)}
    {p : Option (Oid × Except String (List Parameter))} (h : ParameterStep m .quiet m')
    (hp : p = none) : ParameterStep m (labelOf (if w'.worker = none then none else p)) m' := by
  rw [hp, ite_self]
  exact h

theorem quiet_of_keeps {w' : World} {p : Option (Oid × Except String (List Parameter))}
    (h : KeepsParameters w w') (hp : p = none) :
    ParameterStep (parameterMirror w) (labelOf (if w'.worker = none then none else p))
      (parameterMirror w') :=
  quiet_of_none h.step hp

variable [Rclrs]

/-- The parameter step persists what a poll that is over returned. -/
theorem tick_parameterStep (h : w.InPhase o s .poll) (answers : TickAnswers) :
    ParameterStep (parameterMirror w)
      (labelOf (if (w.tick o s answers).worker = none then none else w.polled (.tick answers)))
      (parameterMirror (w.tick o s answers)) := by
  obtain ⟨ho, hs, hp⟩ := h
  rcases hpoll : s.parameterPoll with _ | poll
  · have hw : w.tick o s answers = w.resume o { s with phase := .graph } := by
      simp [World.tick, hpoll]
    rw [hw]
    refine quiet_of_keeps (.of_resume ho rfl _ _ rfl rfl) ?_
    rcases hx : w.extension <;> simp [World.polled, ho, hs, hx, hp, hpoll]
  · rcases ht : poll.tick w.now answers with error | ⟨poll', _ | snapshot⟩
    · have hw : w.tick o s answers = w.completePoll o s (.error error) := by
        simp [World.tick, hpoll, ht]
      have hd : w.polled (.tick answers)
          = w.extension.map fun ext => (ext.oid, .error error) := by
        rcases hx : w.extension <;> simp [World.polled, ho, hs, hx, hp, hpoll, ht]
      rw [hw, hd]
      exact completePoll_parameterStep ho _
    · have hw : w.tick o s answers
          = w.resume o { s with phase := .graph, parameterPoll := some poll' } := by
        simp [World.tick, hpoll, ht]
      rw [hw]
      refine quiet_of_keeps (.of_resume ho rfl _ _ rfl rfl) ?_
      rcases hx : w.extension <;> simp [World.polled, ho, hs, hx, hp, hpoll, ht]
    · have hw : w.tick o s answers = w.completePoll o s (.ok snapshot) := by
        simp [World.tick, hpoll, ht]
      have hd : w.polled (.tick answers)
          = w.extension.map fun ext => (ext.oid, .ok snapshot) := by
        rcases hx : w.extension <;> simp [World.polled, ho, hs, hx, hp, hpoll, ht]
      rw [hw, hd]
      exact completePoll_parameterStep ho _

/-- The start of a poll persists that it failed. -/
theorem startPoll_parameterStep {nodes : List Name} (h : w.InPhase o s (.start nodes))
    (answers : StartAnswers) :
    ParameterStep (parameterMirror w)
      (labelOf (if (w.startPoll o s nodes answers).worker = none then none
        else w.polled (.startPoll answers)))
      (parameterMirror (w.startPoll o s nodes answers)) := by
  obtain ⟨ho, hs, hp⟩ := h
  rcases ht : Poll.start w.now nodes answers with error | poll
  · have hd : w.polled (.startPoll answers)
        = w.extension.map fun ext => (ext.oid, .error error) := by
      rcases hx : w.extension <;> simp [World.polled, ho, hs, hx, hp, ht]
    rcases hr : persist w.extension o.pid w.now (.error error) o.previousParameters
      o.parameterExtension with _ | ⟨extension, persisted⟩
    · have hw : w.startPoll o s nodes answers = { w with worker := none } := by
        simp [World.startPoll, ht, hr]
      rw [hw, if_pos rfl]
      exact (Frame.of_lose w).keepsParameters.step
    · have hw : w.startPoll o s nodes answers = { w with extension }.resume
          { o with parameterExtension := persisted }
          { s with phase := .decide, nextParameters := w.now + seconds 5 } := by
        simp [World.startPoll, ht, hr]
      rw [hw, if_neg (by simp [World.resume]), hd]
      exact persist_error_parameterStep ho hr _ _ rfl rfl
  · have hw : w.startPoll o s nodes answers
        = w.resume o { s with phase := .decide, parameterPoll := some poll } := by
      simp [World.startPoll, ht]
    rw [hw]
    refine quiet_of_keeps (.of_resume ho rfl _ _ rfl rfl) ?_
    rcases hx : w.extension <;> simp [World.polled, ho, hs, hx, hp, ht]

omit [Rclrs] in
/-- The graph step leaves the parameters, or forgets them with the extension. -/
theorem observe_parameterStep (h : w.InPhase o s .graph) (graph : Except String RosGraph) :
    ParameterStep (parameterMirror w) .quiet (parameterMirror (w.observe o s graph)) := by
  obtain ⟨ho, -, -⟩ := h
  by_cases hdue : w.Due s
  · rcases hx : w.extension with _ | ext
    · rw [World.observe_of_absent hdue hx]
      exact .forget _
    · rcases graph with error | graph
      · rw [World.observe_of_error hdue hx]
        apply KeepsParameters.step
        refine .of_resume ho ?_ _ _ rfl rfl
        rw [hx]
        rfl
      · obtain ⟨phase, -, hobs⟩ := World.observe_of_ok (o := o) hdue hx graph
        obtain ⟨nodes, topics, status, hpersist⟩ := persistSnapshot_frame ext o.pid w.now
          (.ok (GraphSnapshot.read o.name graph)) o.previous o.extensionOid
        rw [hobs]
        apply KeepsParameters.step
        refine .of_resume ho ?_ _ _ rfl rfl
        rw [hpersist, hx]
        rfl
  · rw [World.observe_of_not_due hdue]
    exact (KeepsParameters.of_resume ho rfl o _ rfl rfl).step

end

section

variable [Rclrs] {w w' : World} {e : Event}

/-- A step of the system is a step of the mirror, a save where it persists a poll. -/
theorem step_parameterMirror (h : w.step e = some w') :
    ParameterStep (parameterMirror w)
      (labelOf (if w'.worker = none then none else w.polled e)) (parameterMirror w') := by
  have hs := step_spec h
  cases e with
  | createExtension =>
    obtain ⟨hx, rfl⟩ := hs
    exact quiet_of_none (.create _ _ (by simp [parameterMirror, hx])) rfl
  | dropExtension => exact hs ▸ quiet_of_none (.drop _) rfl
  | startWorker pid =>
    obtain ⟨-, rfl⟩ := hs
    exact quiet_of_none (.forget _) rfl
  | fail error =>
    obtain ⟨o, -, hw⟩ := hs
    refine quiet_of_keeps ⟨by rw [hw], ?_, .inl (by rw [hw])⟩ rfl
    rw [hw]
    rcases w.extension with _ | ext <;> rfl
  | tick answers =>
    obtain ⟨o, s, hp, rfl⟩ := hs
    exact tick_parameterStep hp answers
  | observe graph =>
    obtain ⟨o, s, hp, rfl⟩ := hs
    exact quiet_of_none (observe_parameterStep hp graph) rfl
  | startPoll answers =>
    obtain ⟨o, s, nodes, hp, rfl⟩ := hs
    exact startPoll_parameterStep hp answers
  | _ => exact quiet_of_keeps (Frame.of_spec hs trivial).keepsParameters rfl

omit [Rclrs] in
theorem trusts_parameterMirror (h : w.TrustsParameters) : (parameterMirror w).Trusts := by
  rcases ho : w.worker with _ | o
  · exact .inl (by simp [parameterMirror, ho])
  · rcases h o ho with hp | hx
    · exact .inl (by simp [parameterMirror, ho, hp])
    · refine .inr ?_
      simp [parameterMirror, ho, hx, Extension.parameterRows, Function.comp_def]

/-- The mirror is coherent in a run in which a poll fails only where the worker trusts its rows. -/
theorem parameterMirror_coherent {w₀ : World} {es : List Event} (h₀ : w₀.worker = none)
    (hoid : ∀ ext ∈ w₀.extension, ext.oid < w₀.nextOid) (hr : run World.step w₀ es = some w)
    (hg : Along World.step ParameterGuard w₀ es) :
    (parameterMirror w).Coherent showsParameters := by
  refine run_inv (I := fun w => (parameterMirror w).Coherent showsParameters) ?_ hg hr ?_
  · intro w e w' hw hg h
    refine hw.step showsParameters_of_same (step_parameterMirror h) fun hl => ?_
    obtain ⟨q, hd, hq⟩ := labelOf_eq_failed hl
    split at hd
    · cases hd
    · exact trusts_parameterMirror (hg q hd hq)
  · refine Mirror.coherent_of_none (fun i r hi => ?_) (by simp [parameterMirror, h₀])
    obtain ⟨ext, hx, hi⟩ := Option.map_eq_some_iff.mp hi
    cases hi
    exact hoid ext hx

/-- After every poll whose rows were persisted in a transaction that committed, the table holds
exactly these rows, in every run in which a poll fails only while the worker holds no rows or
remembers the installation. -/
theorem parameters_saved {w₀ : World} {es : List Event} {oid : Oid} {ps : List Parameter}
    (h₀ : w₀.worker = none) (hoid : ∀ ext ∈ w₀.extension, ext.oid < w₀.nextOid)
    (hr : run World.step w₀ es = some w) (hg : Along World.step ParameterGuard w₀ es)
    (hd : w.polled e = some (oid, .ok ps)) (h : w.step e = some w') (hc : w'.worker ≠ none) :
    ∃ ext, w'.extension = some ext ∧ ext.HoldsParameters ps := by
  have hs := step_parameterMirror h
  rw [if_neg hc, hd] at hs
  obtain ⟨i, r, ht, hv⟩ :=
    hs.saved showsParameters_of_same (parameterMirror_coherent h₀ hoid hr hg)
  obtain ⟨ext, hx, hi⟩ := Option.map_eq_some_iff.mp ht
  cases hi
  exact ⟨ext, hx, hv⟩

end

section Witness

open Reference

/-- A peer that has one parameter. -/
def StartAnswers.offered : StartAnswers where
  services _ := .ok [("/talker/list_parameters", ["rcl_interfaces/srv/ListParameters"])]
  createClient _ := .ok ()

def TickAnswers.rate : TickAnswers := { TickAnswers.idle with
  recvList := fun _ => .ok (some ["rate"])
  recvGet := fun _ => .ok (some [⟨2, false, 5, 0, "", [], [], [], [], []⟩]) }

/-- A poll that starts and has its last answer still to come. -/
def pollsRate : List Event :=
  [.observe (.ok talker), .startPoll .offered, .decide]
    ++ toGraph .rate ++ [.observe (.ok talker)] ++ toGraph .rate ++ [.observe (.ok talker)]
    ++ [.spun, .flush, .readDesired (.error "SPI error: Connect")]

/-- A worker that has saved a poll, and then meets a new installation. -/
def savesRate : List Event :=
  [.createExtension, .startWorker 1, .beginSession, .advance 1000000] ++ toGraph .idle ++ pollsRate
    ++ [.tick .rate, .observe (.ok talker)] ++ reinstall ++ [.advance 5000000] ++ toGraph .idle

/-- What a poll with the answers `rate` is about to persist. -/
def isRate : Option (Oid × Except String (List Parameter)) → Bool
  | some (oid, .ok [p]) => oid = 2 && p.name = "rate" && p.value.eq (.number (.posInt 5))
  | _ => false

theorem exists_of_isRate {p : Option (Oid × Except String (List Parameter))} (h : isRate p = true) :
    ∃ rate, p = some (2, .ok [rate]) ∧ rate.name = "rate" := by
  unfold isRate at h
  split at h
  · rename_i oid rate
    simp only [Bool.and_eq_true, decide_eq_true_eq] at h
    obtain ⟨⟨rfl, hn⟩, -⟩ := h
    exact ⟨rate, rfl, hn⟩
  · cases h

/-- The start of a poll fails under the new installation, and the worker takes it to hold the
rows. -/
theorem parameters_lost_after_reinstall : ∃ w w' ext rate,
    run World.step (.initial .default) (savesRate
        ++ [.observe (.ok talker), .startPoll .refused, .decide, .advance 5000000, .graphChange]
        ++ toGraph .idle ++ pollsRate) = some w
      ∧ w.polled (.tick .rate) = some (2, .ok [rate])
      ∧ w.step (.tick .rate) = some w' ∧ w'.worker ≠ none
      ∧ w'.extension = some ext ∧ ¬ ext.HoldsParameters [rate] := by
  have h : ((run World.step (.initial .default) (savesRate
        ++ [.observe (.ok talker), .startPoll .refused, .decide, .advance 5000000, .graphChange]
        ++ toGraph .idle ++ pollsRate)).any fun w =>
      isRate (w.polled (.tick .rate))
        && (w.step (.tick .rate)).any fun w' => decide (w'.worker ≠ none)
          && w'.extension.any fun ext => ext.parameters.isEmpty) = true := by
    decide +kernel
  simp only [Option.any_eq_true, Bool.and_eq_true, decide_eq_true_eq] at h
  obtain ⟨w, hr, hd, w', hw, hc, ext, hx, hv⟩ := h
  obtain ⟨rate, hd, -⟩ := exists_of_isRate hd
  refine ⟨w, w', ext, rate, hr, hd, hw, hc, hx, fun hp => ?_⟩
  rw [Extension.HoldsParameters, List.isEmpty_iff.mp hv, List.mapM_cons] at hp
  obtain ⟨p, -, hp⟩ := Option.bind_eq_some_iff.mp hp
  cases hp

theorem parameters_saved_after_reinstall : ∃ w w' ext rate,
    run World.step (.initial .default) (savesRate ++ pollsRate) = some w
      ∧ w.step (.tick .rate) = some w' ∧ rate.name = "rate"
      ∧ w'.extension = some ext ∧ ext.HoldsParameters [rate] := by
  have h : ((run World.step (.initial .default) (savesRate ++ pollsRate)).any fun w =>
      isRate (w.polled (.tick .rate))
        && (w.step (.tick .rate)).any fun w' => decide (w'.worker ≠ none)) = true := by
    decide +kernel
  have hg : Along World.step ParameterGuard (.initial .default) (savesRate ++ pollsRate) := by
    decide +kernel
  simp only [Option.any_eq_true, Bool.and_eq_true, decide_eq_true_eq] at h
  obtain ⟨w, hr, hd, w', hw, hc⟩ := h
  obtain ⟨rate, hd, hn⟩ := exists_of_isRate hd
  obtain ⟨ext, hx, hv⟩ := parameters_saved rfl (fun _ hx => by cases hx) hr hg hd hw hc
  exact ⟨w, w', ext, rate, hr, hw, hn, hx, hv⟩

end Witness

end PgRos2
