import PgRos2.Registry
import PgRos2.Proofs.Database

/-!
# The first half of reconcile

The loop over the desired entries touches each topic once, at its entry (`reconcileEntries_view`),
so `reconcile` on what `read_desired` returns leaves what the registry says a read leaves
(`reconcile_reads`).
-/

namespace PgRos2

open Lib

/-- What the loop holds of one topic. -/
structure TopicView where
  live : Option Live
  expired : Prop
  wanted : Prop
  results : Set (Except String String)

/-- The topic in the live map and in the pass. -/
def viewAt (t : String) (topics : LiveMap) (pass : Pass) : TopicView where
  live := topics.lookup t
  expired := t ∈ pass.expired
  wanted := t ∈ pass.wanted
  results := {r | (t, r) ∈ pass.metadata}

/-- The topic after the entry of the loop that has its name. -/
def TopicView.enter (answers : SubscribeAnswers) (ttl limit : ℕ) (v : TopicView)
    (entry : Desired) : TopicView :=
  if entry.isExpired ttl then { v with live := none, expired := True }
  else
    match v.live with
    | some _ => { v with wanted := True }
    | none =>
      match subscribe answers entry.topic entry.requestedType limit with
      | .ok live => { v with
          live := some live, wanted := True, results := insert (.ok live.messageType) v.results }
      | .error error => { v with wanted := True, results := insert (.error error) v.results }

/-- The topic after all entries. -/
def TopicView.enterAll (answers : SubscribeAnswers) (ttl limit : ℕ) (v : TopicView) :
    Option Desired → TopicView
  | none => v
  | some entry => v.enter answers ttl limit entry

section

variable {answers : SubscribeAnswers} {ttl limit : ℕ}

theorem viewAt_expired (t t' : String) (topics : LiveMap) (pass : Pass) :
    viewAt t (topics.erase t') { pass with expired := pass.expired ++ [t'] }
      = if t = t' then { viewAt t topics pass with live := none, expired := True }
        else viewAt t topics pass := by
  by_cases h : t = t'
  · subst h
    simp [viewAt]
  · simp [viewAt, h, AList.lookup_erase_ne h]

theorem viewAt_wanted (t t' : String) (topics : LiveMap) (pass : Pass) :
    viewAt t topics { pass with wanted := pass.wanted ++ [t'] }
      = if t = t' then { viewAt t topics pass with wanted := True }
        else viewAt t topics pass := by
  by_cases h : t = t'
  · simp [viewAt, h]
  · simp [viewAt, h]

theorem viewAt_insert (t t' : String) (live : Live) (topics : LiveMap) (pass : Pass) :
    viewAt t (topics.insert t' live) pass
      = if t = t' then { viewAt t topics pass with live := some live }
        else viewAt t topics pass := by
  by_cases h : t = t'
  · subst h
    simp [viewAt]
  · simp [viewAt, h, AList.lookup_insert_ne h]

theorem viewAt_metadata (t t' : String) (result : Except String String) (topics : LiveMap)
    (pass : Pass) :
    viewAt t topics { pass with metadata := pass.metadata ++ [(t', result)] }
      = if t = t' then { viewAt t topics pass with
          results := insert result (viewAt t topics pass).results }
        else viewAt t topics pass := by
  by_cases h : t = t'
  · subst h
    have hr : {r | (t, r) ∈ pass.metadata ∨ r = result}
        = insert result {r | (t, r) ∈ pass.metadata} := by
      ext r
      exact or_comm
    simp [viewAt, hr]
  · simp [viewAt, h]

/-- An entry of the loop changes what the loop holds of its own topic. -/
theorem reconcileEntries_view :
    ∀ {desired : List Desired} (topics : LiveMap) (pass : Pass),
      (desired.map Desired.topic).Nodup → ∀ t,
        viewAt t (reconcileEntries answers ttl limit desired topics pass).1
            (reconcileEntries answers ttl limit desired topics pass).2
          = (viewAt t topics pass).enterAll answers ttl limit
              (desired.find? fun entry => entry.topic = t)
  | [], topics, pass, _, t => rfl
  | entry :: desired, topics, pass, hd, t => by
    rw [List.map_cons, List.nodup_cons] at hd
    obtain ⟨hmem, hd⟩ := hd
    have hrest (htopic : entry.topic = t) :
        desired.find? (fun entry => entry.topic = t) = none := by
      rw [List.find?_eq_none]
      intro e he
      simp only [decide_eq_true_eq]
      rintro rfl
      exact hmem (htopic ▸ List.mem_map_of_mem he)
    -- after the entry's own step the rest of the loop leaves its topic
    have hown (topics' : LiveMap) (pass' : Pass)
        (hstep : viewAt t topics' pass' = if t = entry.topic then
          (viewAt t topics pass).enter answers ttl limit entry else viewAt t topics pass) :
        viewAt t (reconcileEntries answers ttl limit desired topics' pass').1
            (reconcileEntries answers ttl limit desired topics' pass').2
          = (viewAt t topics pass).enterAll answers ttl limit
              ((entry :: desired).find? fun entry => entry.topic = t) := by
      rw [reconcileEntries_view topics' pass' hd t, hstep, List.find?_cons]
      by_cases ht : entry.topic = t
      · simp [hrest ht, ht, TopicView.enterAll]
      · simp [ht, Ne.symm ht]
    simp only [reconcileEntries]
    split
    · rename_i hexp
      refine hown _ _ ?_
      rw [viewAt_expired]
      simp [TopicView.enter, hexp]
    · rename_i hexp
      split
      · rename_i hlive
        obtain ⟨live, hlive⟩ := Table.mem_iff_lookup.mp hlive
        refine hown _ _ ?_
        rw [viewAt_wanted]
        split
        · rename_i ht
          subst ht
          simp [TopicView.enter, hexp, viewAt, hlive]
        · rfl
      · rename_i hlive
        have hnone : topics.lookup entry.topic = none := AList.lookup_eq_none.mpr hlive
        split
        · rename_i live hsub
          refine hown _ _ ((viewAt_metadata t entry.topic _ _
            { pass with wanted := pass.wanted ++ [entry.topic] }).trans ?_)
          rw [viewAt_insert, viewAt_wanted]
          split
          · rename_i ht
            subst ht
            simp [TopicView.enter, hexp, viewAt, hnone, hsub]
          · rfl
        · rename_i error hsub
          refine hown _ _ ((viewAt_metadata t entry.topic _ _
            { pass with wanted := pass.wanted ++ [entry.topic] }).trans ?_)
          rw [viewAt_wanted]
          split
          · rename_i ht
            subst ht
            simp [TopicView.enter, hexp, viewAt, hnone, hsub]
          · rfl

theorem reconcileEntries_ttl :
    ∀ (desired : List Desired) (topics : LiveMap) (pass : Pass),
      (reconcileEntries answers ttl limit desired topics pass).2.ttl = pass.ttl
  | [], _, _ => rfl
  | entry :: desired, topics, pass => by
    simp only [reconcileEntries]
    split
    · rw [reconcileEntries_ttl desired]
    · split
      · rw [reconcileEntries_ttl desired]
      · split <;> rw [reconcileEntries_ttl desired]

end

/-! ## What `read_desired` returns -/

/-- The entry of a row. -/
def Subscription.desired (now : Time) (topic : String) (row : Subscription) : Desired :=
  ⟨topic, row.requestedType, row.keepaliveAt.map (now - ·)⟩

theorem find_desired (now : Time) (t : String) :
    ∀ l : List ((_ : String) × Subscription),
      (l.map fun row => row.2.desired now row.1).find? (fun entry => entry.topic = t)
        = (l.dlookup t).map (Subscription.desired now t)
  | [] => rfl
  | ⟨k, row⟩ :: l => by
    rw [List.map_cons, List.find?_cons]
    by_cases hk : k = t
    · subst hk
      simp [Subscription.desired]
    · rw [Table.dlookup_cons_of_ne _ _ hk]
      simp [Subscription.desired, hk, ← find_desired now t l]

theorem readDesired_find (ext : Option Extension) (now : Time) (t : String) :
    (readDesired ext now).find? (fun entry => entry.topic = t)
      = (ext.bind fun ext => ext.subscriptions.lookup t).map (Subscription.desired now t) := by
  rcases ext with _ | ext
  · rfl
  · exact find_desired now t ext.subscriptions.entries

theorem readDesired_nodup (ext : Option Extension) (now : Time) :
    ((readDesired ext now).map Desired.topic).Nodup := by
  rcases ext with _ | ext
  · exact List.nodup_nil
  · have h : (readDesired (some ext) now).map Desired.topic = ext.subscriptions.entries.keys := by
      simp [readDesired, List.keys, Function.comp_def]
    exact h ▸ ext.subscriptions.nodupKeys

theorem isExpired_desired (ttl : ℕ) (now : Time) (t : String) (row : Subscription) :
    (row.desired now t).isExpired ttl = true ↔ row.registration.IsExpired ttl now := by
  rcases hk : row.keepaliveAt with _ | keepaliveAt
  · simp [Subscription.desired, Desired.isExpired, Registration.IsExpired,
      Subscription.registration, hk]
  · simp [Subscription.desired, Desired.isExpired, Registration.IsExpired,
      Subscription.registration, hk]

/-! ## What a read leaves -/

section

variable (answers : SubscribeAnswers) (ttl limit : ℕ) (w : World) (o : Observer)

/-- The loop's view of a topic, from the row and the live subscription it has. -/
def World.view (t : String) : TopicView :=
  (TopicView.mk (o.subscriptions.lookup t) False False ∅).enterAll answers ttl limit
    ((w.row t).map (Subscription.desired w.now t))

/-- `reconcile` on the rows of the table. -/
def World.reconciled : LiveMap × Pass :=
  reconcile answers ttl limit (PgRos2.readDesired w.extension w.now) o.subscriptions

theorem reconcile_loop (t : String) :
    viewAt t
        (reconcileEntries answers ttl limit (readDesired w.extension w.now) o.subscriptions
          ⟨ttl, [], [], [], []⟩).1
        (reconcileEntries answers ttl limit (readDesired w.extension w.now) o.subscriptions
          ⟨ttl, [], [], [], []⟩).2
      = w.view answers ttl limit o t := by
  rw [reconcileEntries_view _ _ (readDesired_nodup w.extension w.now) t, readDesired_find]
  simp [World.view, World.row, viewAt]

theorem reconciled_ttl : (w.reconciled answers ttl limit o).2.ttl = ttl :=
  reconcileEntries_ttl (readDesired w.extension w.now) o.subscriptions _

theorem reconciled_expired (t : String) :
    t ∈ (w.reconciled answers ttl limit o).2.expired ↔ (w.view answers ttl limit o t).expired := by
  rw [← reconcile_loop]
  rfl

theorem reconciled_metadata (t : String) (result : Except String String) :
    (t, result) ∈ (w.reconciled answers ttl limit o).2.metadata
      ↔ result ∈ (w.view answers ttl limit o t).results := by
  rw [← reconcile_loop]
  rfl

theorem reconciled_removed (t : String) :
    t ∈ (w.reconciled answers ttl limit o).2.removed
      ↔ (w.view answers ttl limit o t).live.isSome ∧ ¬ (w.view answers ttl limit o t).wanted := by
  rw [← reconcile_loop]
  simp [World.reconciled, reconcile, viewAt, AList.lookup_isSome, ← AList.mem_keys]

theorem reconciled_wanted (t : String) (h : (w.view answers ttl limit o t).wanted) :
    (w.reconciled answers ttl limit o).1.lookup t = (w.view answers ttl limit o t).live := by
  rw [← reconcile_loop] at h ⊢
  simp only [viewAt] at h
  simp only [World.reconciled, reconcile, Table.lookup_retain, viewAt]
  rcases AList.lookup t _ with _ | live
  · rfl
  · exact Option.filter_some_pos (List.contains_iff_mem.mpr h)

theorem reconciled_unwanted (t : String) (h : ¬ (w.view answers ttl limit o t).wanted) :
    (w.reconciled answers ttl limit o).1.lookup t = none := by
  rw [← reconcile_loop] at h
  simp only [viewAt] at h
  simp [World.reconciled, reconcile, h]

/-- How the loop's view of a topic and the verdict on it go together. -/
inductive Finds (live : Option Live) : TopicView → Verdict → Prop
  | absent : Finds live ⟨live, False, False, ∅⟩ .absent
  | expired : Finds live ⟨none, True, False, ∅⟩ .expired
  | kept {l : Live} (hl : live = some l) :
    Finds live ⟨some l, False, True, ∅⟩ (.kept l.messageType)
  | subscribed {l : Live} (hl : live = none) (hempty : l.mailbox = .empty) :
    Finds live ⟨some l, False, True, {.ok l.messageType}⟩ (.subscribed l.messageType)
  | failed (hl : live = none) (error : String) :
    Finds live ⟨none, False, True, {.error error}⟩ (.failed error)

/-- A new subscription has an empty mailbox, and the requested type where one is requested. -/
theorem subscribe_eq_ok {topic : String} {requestedType : Option String} {live : Live}
    (h : subscribe answers topic requestedType limit = .ok live) :
    live.mailbox = .empty ∧ ∀ kind ∈ requestedType, kind ≠ "" → live.messageType = kind := by
  unfold subscribe at h
  extract_lets create at h
  have hcreate (messageType : String) (h : create messageType = .ok live) :
      live.messageType = messageType ∧ live.mailbox = .empty := by
    obtain ⟨-, -, h⟩ := except_bind_eq_ok h
    split at h
    · cases h
      exact ⟨rfl, rfl⟩
    · cases h
  split at h
  · rename_i kind
    split at h
    · obtain ⟨hk, hm⟩ := hcreate kind h
      refine ⟨hm, fun kind' hk' _ => ?_⟩
      cases hk'
      exact hk
    · rename_i hne
      obtain ⟨messageType, -, h⟩ := except_bind_eq_ok h
      refine ⟨(hcreate messageType h).2, fun kind' hk' hne' => ?_⟩
      cases hk'
      exact absurd hne' hne
  · obtain ⟨messageType, -, h⟩ := except_bind_eq_ok h
    refine ⟨(hcreate messageType h).2, fun kind' hk' _ => ?_⟩
    cases hk'

variable {w o}

theorem view_finds (ho : w.worker = some o) (t : String) :
    Finds (o.subscriptions.lookup t) (w.view answers ttl limit o t)
      (w.registry.verdict answers ttl limit t) := by
  have hlive : w.registry.live t = (o.subscriptions.lookup t).map Live.messageType := by
    simp [World.registry, World.live, ho]
  have hnow : w.registry.now = w.now := rfl
  rcases hrow : w.row t with _ | row
  · have hr : w.registry.rows t = none := by simp [World.registry, hrow]
    simp only [World.view, hrow, Registry.verdict, hr]
    exact .absent
  · have hr : w.registry.rows t = some row.registration := by simp [World.registry, hrow]
    simp only [World.view, hrow, Registry.verdict, hr, Option.map_some, TopicView.enterAll,
      TopicView.enter, hnow]
    by_cases hexp : row.registration.IsExpired ttl w.now
    · rw [if_pos hexp, if_pos ((isExpired_desired ttl w.now t row).mpr hexp)]
      exact .expired
    · rw [if_neg hexp, if_neg fun h => hexp ((isExpired_desired ttl w.now t row).mp h), hlive]
      rcases hl : o.subscriptions.lookup t with _ | live
      · have hty : (row.desired w.now t).requestedType = row.registration.requestedType := rfl
        have htopic : (row.desired w.now t).topic = t := rfl
        simp only [Option.map_none, hty, htopic]
        rcases hsub : subscribe answers t row.registration.requestedType limit with error | live
        · simpa using Finds.failed rfl error
        · simpa using Finds.subscribed rfl (subscribe_eq_ok answers limit hsub).1
      · exact .kept rfl

/-- `reconcile` reads the table as the registry does. -/
theorem reconcile_reads (ho : w.worker = some o) :
    w.registry.Reads answers ttl limit
      (fun t => ((w.reconciled answers ttl limit o).1.lookup t).map Live.messageType)
      (w.reconciled answers ttl limit o).2 where
  ttl_eq := reconciled_ttl answers ttl limit w o
  live_eq t := by
    have hf := view_finds answers ttl limit ho t
    have hw := reconciled_wanted answers ttl limit w o t
    have hu := reconciled_unwanted answers ttl limit w o t
    generalize w.view answers ttl limit o t = v at hf hw hu
    generalize w.registry.verdict answers ttl limit t = d at hf
    cases hf <;> simp_all [Verdict.live]
  mem_expired t := by
    have hf := view_finds answers ttl limit ho t
    rw [reconciled_expired]
    generalize w.view answers ttl limit o t = v at hf
    generalize w.registry.verdict answers ttl limit t = d at hf
    cases hf <;> simp
  mem_removed t := by
    have hlive : w.registry.live t = (o.subscriptions.lookup t).map Live.messageType := by
      simp [World.registry, World.live, ho]
    have hf := view_finds answers ttl limit ho t
    rw [reconciled_removed, hlive, Option.isSome_map]
    generalize w.view answers ttl limit o t = v at hf
    generalize w.registry.verdict answers ttl limit t = d at hf
    cases hf <;> simp
  mem_metadata t result := by
    have hf := view_finds answers ttl limit ho t
    rw [reconciled_metadata]
    generalize w.view answers ttl limit o t = v at hf
    generalize w.registry.verdict answers ttl limit t = d at hf
    cases hf <;> simp [Verdict.result, eq_comm]

/-- A topic still has a pending message after the read where its subscription was kept. -/
theorem reconciled_pending (ho : w.worker = some o) (t : String) :
    (((w.reconciled answers ttl limit o).1.lookup t).bind fun live =>
        live.mailbox.pending).isSome
      ↔ (w.pending t).isSome ∧ ∃ kind, w.registry.verdict answers ttl limit t = .kept kind := by
  have hf := view_finds answers ttl limit ho t
  have hw := reconciled_wanted answers ttl limit w o t
  have hu := reconciled_unwanted answers ttl limit w o t
  have hp : w.pending t = (o.subscriptions.lookup t).bind fun live => live.mailbox.pending := by
    simp [World.pending, World.live, ho]
  rw [hp]
  generalize w.view answers ttl limit o t = v at hf hw hu
  generalize w.registry.verdict answers ttl limit t = d at hf
  cases hf <;> simp_all [Mailbox.empty]

end

end PgRos2
