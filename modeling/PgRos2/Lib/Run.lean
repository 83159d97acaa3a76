import Mathlib.Data.Option.Basic
import Mathlib.Data.List.Basic
import Mathlib.Data.List.Chain
import Mathlib.Data.List.Induction

/-!
# Runs of a partial step function

`step s e` is `none` where the event `e` cannot happen in `s`. A run feeds a list of events, and
`Along` says that a guard holds at each of its steps. What every guarded step preserves, every
guarded run preserves (`run_inv`). The `history` of a run is what its steps show, and an invariant
may speak of it (`run_history`): what it shows is a chain of a relation where the state keeps up
with the last of it (`run_chain`), and a run goes on since an event of it as long as a condition
lasts (`Since`). A loop that polls takes turns until one stops it (`until_iff`).
-/

namespace Lib

variable {σ ε : Type*} (step : σ → ε → Option σ)

/-- The state after the events, or `none` if one of them could not happen. -/
def run : σ → List ε → Option σ
  | s, [] => some s
  | s, e :: es => (step s e).bind fun s' => run s' es

/-- `G` holds of each state and the event that happens in it. -/
def Along (G : σ → ε → Prop) : σ → List ε → Prop
  | _, [] => True
  | s, e :: es => G s e ∧ ∀ s' ∈ step s e, Along G s' es

/-- What the steps of a run show, in their order. -/
def history {α : Type*} (f : σ → ε → Option α) : σ → List ε → List α
  | _, [] => []
  | s, e :: es => (f s e).toList ++ ((step s e).map fun s' => history f s' es).getD []

instance Along.decidable (G : σ → ε → Prop) [∀ s e, Decidable (G s e)] :
    ∀ (s : σ) (es : List ε), Decidable (Along step G s es)
  | _, [] => .isTrue trivial
  | s, e :: es =>
    match h : step s e with
    | none => decidable_of_iff (G s e) (by simp [Along, h])
    | some s' =>
      have := Along.decidable G s' es
      decidable_of_iff (G s e ∧ Along step G s' es) (by simp [Along, h])

variable {step}

@[simp]
theorem run_nil (s : σ) : run step s [] = some s := rfl

theorem run_cons_eq_some {s s' : σ} {e : ε} {es : List ε} :
    run step s (e :: es) = some s' ↔ ∃ m, step s e = some m ∧ run step m es = some s' := by
  simp [run, Option.bind_eq_some_iff]

theorem run_append_eq_some : ∀ {es es' : List ε} {s s' : σ},
    run step s (es ++ es') = some s' ↔ ∃ m, run step s es = some m ∧ run step m es' = some s'
  | [], _, s, s' => by simp
  | e :: es, es', s, s' => by
    simp only [List.cons_append, run_cons_eq_some, run_append_eq_some]
    constructor
    · rintro ⟨m, hm, m', hm', h⟩
      exact ⟨m', ⟨m, hm, hm'⟩, h⟩
    · rintro ⟨m', ⟨m, hm, hm'⟩, h⟩
      exact ⟨m, hm, m', hm', h⟩

theorem run_singleton {s s' : σ} {e : ε} : run step s [e] = some s' ↔ step s e = some s' := by
  simp [run_cons_eq_some]

theorem Along.append {G : σ → ε → Prop} : ∀ {es es' : List ε} {s m : σ},
    Along step G s (es ++ es') → run step s es = some m → Along step G m es'
  | [], _, s, m, h, hr => by
    rw [run_nil, Option.some.injEq] at hr
    exact hr ▸ h
  | e :: es, es', s, m, h, hr => by
    obtain ⟨s', hs, hr⟩ := run_cons_eq_some.mp hr
    exact Along.append (h.2 s' hs) hr

theorem Along.left {G : σ → ε → Prop} : ∀ {es es' : List ε} {s : σ},
    Along step G s (es ++ es') → Along step G s es
  | [], _, _, _ => trivial
  | _ :: _, _, _, h => ⟨h.1, fun s' hs => Along.left (h.2 s' hs)⟩

theorem Along.join {G : σ → ε → Prop} : ∀ {es es' : List ε} {s m : σ},
    Along step G s es → run step s es = some m → Along step G m es' → Along step G s (es ++ es')
  | [], _, s, m, _, hr, h => by
    rw [run_nil, Option.some.injEq] at hr
    exact hr ▸ h
  | e :: es, _, s, m, h, hr, h' => by
    obtain ⟨s', hs, hr⟩ := run_cons_eq_some.mp hr
    refine ⟨h.1, fun s'' hs'' => ?_⟩
    cases hs.symm.trans hs''
    exact Along.join (h.2 s' hs) hr h'

theorem Along.and {G H : σ → ε → Prop} : ∀ {es : List ε} {s : σ},
    Along step G s es → Along step H s es → Along step (fun s e => G s e ∧ H s e) s es
  | [], _, _, _ => trivial
  | _ :: _, _, hG, hH => ⟨⟨hG.1, hH.1⟩, fun s' hs => Along.and (hG.2 s' hs) (hH.2 s' hs)⟩

/-- What holds at each step of a run holds along it. -/
theorem along_of_steps {G : σ → ε → Prop} : ∀ {es : List ε} {s : σ},
    (∀ es₁ e es₂ m, es = es₁ ++ e :: es₂ → run step s es₁ = some m → G m e) → Along step G s es
  | [], _, _ => trivial
  | e :: es, s, h => ⟨h [] e es s rfl rfl, fun s' hs => along_of_steps fun es₁ e' es₂ m hes hr =>
      h (e :: es₁) e' es₂ m (by rw [hes]; rfl) (run_cons_eq_some.mpr ⟨s', hs, hr⟩)⟩

/-- A guard that follows from an invariant it preserves and another guard. -/
theorem Along.imp {G H : σ → ε → Prop} {I : σ → Prop} (himp : ∀ s e, I s → G s e → H s e)
    (hstep : ∀ s e s', I s → H s e → step s e = some s' → I s') :
    ∀ {es : List ε} {s : σ}, Along step G s es → I s → Along step H s es
  | [], _, _, _ => trivial
  | e :: _, s, h, hI => ⟨himp s e hI h.1, fun s' hs =>
      Along.imp himp hstep (h.2 s' hs) (hstep s e s' hI (himp s e hI h.1) hs)⟩

theorem Along.mono {G H : σ → ε → Prop} (hGH : ∀ s e, G s e → H s e) {es : List ε} {s : σ}
    (h : Along step G s es) : Along step H s es :=
  h.imp (I := fun _ => True) (fun s e _ => hGH s e) (fun _ _ _ _ _ _ => trivial) trivial

/-- What every guarded step preserves, every guarded run preserves. -/
theorem run_inv {G : σ → ε → Prop} {I : σ → Prop}
    (hstep : ∀ s e s', I s → G s e → step s e = some s' → I s') :
    ∀ {es : List ε} {s s' : σ}, Along step G s es → run step s es = some s' → I s → I s'
  | [], s, s', _, hr, hI => by
    rw [run_nil, Option.some.injEq] at hr
    exact hr ▸ hI
  | e :: es, s, s', h, hr, hI => by
    obtain ⟨m, hm, hr⟩ := run_cons_eq_some.mp hr
    exact run_inv hstep (h.2 m hm) hr (hstep s e m hI h.1 hm)

/-- A run of a step function that carries more state is a run of the one it extends. -/
theorem run_project {τ : Type*} {step' : τ → ε → Option τ} {π : τ → σ}
    (hπ : ∀ x e x', step' x e = some x' → step (π x) e = some (π x')) :
    ∀ {es : List ε} {x x' : τ}, run step' x es = some x' → run step (π x) es = some (π x')
  | [], x, x', hr => by
    rw [run_nil, Option.some.injEq] at hr
    rw [hr, run_nil]
  | e :: es, x, x', hr => by
    obtain ⟨m, hm, hr⟩ := run_cons_eq_some.mp hr
    exact run_cons_eq_some.mpr ⟨π m, hπ x e m hm, run_project hπ hr⟩

theorem Along.lift {τ : Type*} {step' : τ → ε → Option τ} {π : τ → σ} {G : σ → ε → Prop}
    (hπ : ∀ x e x', step' x e = some x' → step (π x) e = some (π x')) :
    ∀ {es : List ε} {x : τ}, Along step G (π x) es → Along step' (fun x e => G (π x) e) x es
  | [], _, _ => trivial
  | _ :: _, x, h => ⟨h.1, fun x' hx => Along.lift hπ (h.2 (π x') (hπ x _ x' hx))⟩

theorem along_true : ∀ (es : List ε) (s : σ), Along step (fun _ _ => True) s es
  | [], _ => trivial
  | _ :: es, _ => ⟨trivial, fun s' _ => along_true es s'⟩

/-- What every step preserves, every run preserves. -/
theorem run_invariant {I : σ → Prop} (hstep : ∀ s e s', I s → step s e = some s' → I s')
    {es : List ε} {s s' : σ} (hr : run step s es = some s') (hI : I s) : I s' :=
  run_inv (G := fun _ _ => True) (fun s e s' hI _ h => hstep s e s' hI h) (along_true es s) hr hI

theorem history_append {α : Type*} {f : σ → ε → Option α} : ∀ {es es' : List ε} {s m : σ},
    run step s es = some m →
      history step f s (es ++ es') = history step f s es ++ history step f m es'
  | [], _, s, m, hr => by
    rw [run_nil, Option.some.injEq] at hr
    rw [hr]
    rfl
  | e :: es, es', s, m, hr => by
    obtain ⟨s', hs, hr⟩ := run_cons_eq_some.mp hr
    simp only [List.cons_append, history, hs, Option.map_some, Option.getD_some,
      history_append hr, List.append_assoc]

theorem history_singleton {α : Type*} (f : σ → ε → Option α) (s : σ) (e : ε) :
    history step f s [e] = (f s e).toList := by
  unfold history
  cases step s e <;> simp [history]

theorem mem_history {α : Type*} {f : σ → ε → Option α} {a : α} : ∀ {es : List ε} {s : σ},
    a ∈ history step f s es →
      ∃ es₁ e es₂ m, es = es₁ ++ e :: es₂ ∧ run step s es₁ = some m ∧ f m e = some a
  | [], _, h => by cases h
  | e :: es, s, h => by
    rcases List.mem_append.mp h with h | h
    · exact ⟨[], e, es, s, rfl, rfl, Option.mem_toList.mp h⟩
    · rcases hs : step s e with _ | s'
      · rw [hs] at h
        cases h
      · rw [hs] at h
        obtain ⟨es₁, e', es₂, m, rfl, hr, hf⟩ := mem_history h
        exact ⟨e :: es₁, e', es₂, m, rfl, run_cons_eq_some.mpr ⟨s', hs, hr⟩, hf⟩

theorem history_concat_getLast? {α : Type*} {f : σ → ε → Option α} {es : List ε} {s₀ s : σ}
    (hr : run step s₀ es = some s) (e : ε) :
    (history step f s₀ (es ++ [e])).getLast? = (f s e).or (history step f s₀ es).getLast? := by
  rw [history_append hr, history_singleton, List.getLast?_append]
  cases f s e <;> rfl

theorem along_of_forall {G : ε → Prop} : ∀ {es : List ε} {s : σ}, (∀ e ∈ es, G e) →
    Along step (fun _ e => G e) s es
  | [], _, _ => trivial
  | e :: _, _, h => ⟨h e List.mem_cons_self,
    fun _ _ => along_of_forall fun e he => h e (List.mem_cons_of_mem _ he)⟩

/-- An invariant of the events so far and the state they lead to. -/
theorem run_history {G : σ → ε → Prop} {I : List ε → σ → Prop} {s₀ : σ}
    (hstep : ∀ es s e s', run step s₀ es = some s → I es s → G s e → step s e = some s' →
      I (es ++ [e]) s') (h₀ : I [] s₀) :
    ∀ {es : List ε} {s : σ}, Along step G s₀ es → run step s₀ es = some s → I es s := by
  intro es
  induction es using List.reverseRecOn with
  | nil =>
    intro s _ hr
    rw [run_nil, Option.some.injEq] at hr
    exact hr ▸ h₀
  | append_singleton es e ih =>
    intro s hg hr
    obtain ⟨m, hm, hs⟩ := run_append_eq_some.mp hr
    exact hstep es m e s hm (ih hg.left hm) (hg.append hm).1 (run_singleton.mp hs)

/-! ## Chains of what a run shows -/

theorem run_chain {α : Type*} {R : α → α → Prop} {mark : σ → ε → Option α} {G : σ → ε → Prop}
    {I : Option α → σ → Prop}
    (hquiet : ∀ s e s' last, I last s → G s e → step s e = some s' → mark s e = none → I last s')
    (hmark : ∀ s e s' last a, I last s → G s e → step s e = some s' → mark s e = some a →
      (∀ l ∈ last, R l a) ∧ I (some a) s')
    {s₀ s : σ} {es : List ε} (h₀ : I none s₀) (hg : Along step G s₀ es)
    (hr : run step s₀ es = some s) :
    (history step mark s₀ es).IsChain R ∧ I (history step mark s₀ es).getLast? s := by
  refine run_history (G := G) (I := fun es s => (history step mark s₀ es).IsChain R
    ∧ I (history step mark s₀ es).getLast? s) ?_ ⟨.nil, h₀⟩ hg hr
  intro es s e s' hr ⟨hchain, hI⟩ hg h
  rw [history_append hr, history_singleton]
  cases hm : mark s e with
  | none =>
    rw [Option.toList_none, List.append_nil]
    exact ⟨hchain, hquiet s e s' _ hI hg h hm⟩
  | some a =>
    obtain ⟨hlast, hI'⟩ := hmark s e s' _ a hI hg h hm
    rw [Option.toList_some, List.getLast?_concat]
    refine ⟨List.isChain_append.mpr ⟨hchain, .singleton a, fun l hl b hb => ?_⟩, hI'⟩
    obtain rfl : a = b := by simpa using hb
    exact hlast l hl

/-! ## Since an event -/

/-- The run is past an event at which something began, in `m` after the events `before` it, and it
lasted through the events `after` it. -/
def Since (step : σ → ε → Option σ) (begins : σ → ε → Prop) (lasts : σ → ε → Prop)
    (s₀ : σ) (es before : List ε) (m : σ) (after : List ε) : Prop :=
  ∃ e s, es = before ++ e :: after ∧ run step s₀ before = some s ∧ begins s e
    ∧ step s e = some m ∧ Along step lasts m after

section Since

variable {begins lasts : σ → ε → Prop} {s₀ s s' m : σ} {es before after : List ε} {e : ε}

theorem Since.begin (hr : run step s₀ es = some s) (hb : begins s e) (h : step s e = some s') :
    Since step begins lasts s₀ (es ++ [e]) es s' [] :=
  ⟨e, s, rfl, hr, hb, h, trivial⟩

theorem Since.run_eq (hs : Since step begins lasts s₀ es before m after)
    (hr : run step s₀ es = some s) : run step m after = some s := by
  obtain ⟨e, s₁, rfl, hbefore, -, hm, -⟩ := hs
  obtain ⟨s₂, hs₂, hr⟩ := run_append_eq_some.mp hr
  cases hbefore.symm.trans hs₂
  obtain ⟨m', hm', hr⟩ := run_cons_eq_some.mp hr
  cases hm.symm.trans hm'
  exact hr

theorem Since.extend (hs : Since step begins lasts s₀ es before m after)
    (hr : run step s₀ es = some s) (hl : lasts s e) :
    Since step begins lasts s₀ (es ++ [e]) before m (after ++ [e]) := by
  have hafter := hs.run_eq hr
  obtain ⟨e', s₁, rfl, hbefore, hb, hm, hlasts⟩ := hs
  exact ⟨e', s₁, by simp, hbefore, hb, hm, hlasts.join hafter ⟨hl, fun _ _ => trivial⟩⟩

end Since

/-! ## Loops that poll -/

section Until

variable {α : Type*} {go stop : α → Prop}

/-- The turns go on until one that stops. -/
inductive Until (go stop : α → Prop) : List α → Prop
  | stop {a : α} {as : List α} (h : stop a) : Until go stop (a :: as)
  | go {a : α} {as : List α} (h : go a) (hrest : Until go stop as) : Until go stop (a :: as)

theorem not_until_nil : ¬ Until go stop [] := nofun

theorem until_cons {a : α} {as : List α} :
    Until go stop (a :: as) ↔ stop a ∨ go a ∧ Until go stop as := by
  constructor
  · rintro (h | ⟨h, hrest⟩)
    · exact .inl h
    · exact .inr ⟨h, hrest⟩
  · rintro (h | ⟨h, hrest⟩)
    · exact .stop h
    · exact .go h hrest

/-- What holds of no turns, and of some as the first of them has it, holds until a turn stops. -/
theorem until_iff {f : List α → Prop} (hnil : ¬ f [])
    (hcons : ∀ a as, f (a :: as) ↔ stop a ∨ go a ∧ f as) : ∀ as, f as ↔ Until go stop as
  | [] => iff_of_false hnil not_until_nil
  | a :: as => by rw [hcons, until_cons, until_iff hnil hcons as]

end Until

end Lib
