import PgRos2.Proofs.Database

/-!
# What a flush makes of each topic

A flush writes a topic by its own mailbox alone (`flush_topic`): the message that was pending, if it
parses, and after it the errors. It aborts when `jsonb` refuses the message of any topic
(`flush_eq_none_iff`).
-/

namespace PgRos2

open Lib

variable [Rclrs]

/-- The message a mailbox has to be written. -/
def Live.message (live : Live) : Option (ℕ × Value) := do
  let (sequence, text) ← live.mailbox.pending
  let value ← Value.fromStrLimited text
  return (sequence, value)

/-- The row of a topic after a flush of its mailbox: the message is written first. -/
def Subscription.flushed (now : Time) (live : Live) (row : Subscription) : Subscription :=
  live.errors.foldl (fun row error => row.settle (.error error))
    (if live.message.isSome then row.touch now else row)

/-! ## The messages -/

theorem flushMessages_eq (topics : LiveMap) : flushMessages topics
    = topics.entries.filterMap fun entry => entry.2.message.map fun m => (entry.1, m) := by
  unfold flushMessages
  congr 1
  funext entry
  unfold Live.message
  rcases entry.2.mailbox.pending with _ | ⟨sequence, text⟩
  · rfl
  · simp only [Option.bind_eq_bind, Option.bind_some]
    rcases Value.fromStrLimited text with _ | value <;> rfl

omit [Rclrs] in
theorem lookup_filterMap {α β : Type} (f : α → Option β) (t : String) :
    ∀ l : List ((_ : String) × α), l.NodupKeys →
      (l.filterMap fun e => (f e.2).map fun b => (e.1, b)).lookup t = (l.dlookup t).bind f
  | [], _ => rfl
  | ⟨k, a⟩ :: l, h => by
    rw [List.nodupKeys_cons] at h
    have ih := lookup_filterMap f t l h.2
    rw [List.filterMap_cons]
    by_cases hk : k = t
    · subst hk
      rcases hf : f a with _ | b
      · have hno : l.dlookup k = none := List.dlookup_eq_none.mpr h.1
        simp [hf, ih, hno]
      · simp [hf]
    · rw [Table.dlookup_cons_of_ne _ _ hk]
      rcases hf : f a with _ | b
      · simpa [hf] using ih
      · simp only [Option.map_some, List.lookup_cons, ih]
        rw [show (t == k) = false by simpa using Ne.symm hk]

theorem flushMessages_lookup (topics : LiveMap) (t : String) :
    (flushMessages topics).lookup t = (topics.lookup t).bind Live.message := by
  rw [flushMessages_eq]
  exact lookup_filterMap Live.message t topics.entries topics.nodupKeys

theorem flushMessages_keys (topics : LiveMap) : ((flushMessages topics).map Prod.fst).Nodup := by
  have hs : ((flushMessages topics).map Prod.fst).Sublist topics.entries.keys := by
    rw [flushMessages_eq]
    induction topics.entries with
    | nil => exact .slnil
    | cons e l ih =>
      rw [List.filterMap_cons, List.keys_cons]
      rcases e.2.message with _ | m
      · exact ih.cons _
      · exact ih.cons_cons _
  exact hs.nodup topics.nodupKeys

theorem mem_flushMessages {topics : LiveMap} {t : String} {m : ℕ × Value} :
    (t, m) ∈ flushMessages topics
      ↔ ∃ live, topics.lookup t = some live ∧ live.message = some m := by
  rw [flushMessages_eq]
  simp only [List.mem_filterMap, Option.map_eq_some_iff, Prod.mk.injEq, Table.lookup_eq_some_iff]
  constructor
  · rintro ⟨⟨t, live⟩, he, m, hm, rfl, rfl⟩
    exact ⟨live, he, hm⟩
  · rintro ⟨live, he, hm⟩
    exact ⟨⟨t, live⟩, he, m, hm, rfl, rfl⟩

omit [Rclrs] in
/-- The writes abort just when `jsonb` refuses a message. -/
theorem writeMessages_eq_none_iff (now : Time) :
    ∀ (ms : List (String × ℕ × Value)) (ext : Extension),
    writeMessages now ms ext = none ↔ ∃ m ∈ ms, m.2.2.jsonb = none
  | [], ext => by simp [writeMessages]
  | (topic, sequence, value) :: ms, ext => by
    rcases hv : value.jsonb with _ | message
    · simp [writeMessages, Extension.upsertMessage, hv]
    · simp [writeMessages, Extension.upsertMessage, hv, writeMessages_eq_none_iff now ms]

omit [Rclrs] in
/-- The writes of messages of distinct topics, by topic. -/
theorem writeMessages_lookup (now : Time) :
    ∀ {ms : List (String × ℕ × Value)} {ext ext' : Extension}, (ms.map Prod.fst).Nodup →
      writeMessages now ms ext = some ext' →
      ext' = { ext with subscriptions := ext'.subscriptions, messages := ext'.messages }
      ∧ ∀ t, ext'.messages.lookup t = (match ms.lookup t with
          | some m => m.2.jsonb.map (⟨m.1, now, ·⟩)
          | none => ext.messages.lookup t)
        ∧ ext'.subscriptions.lookup t = (ext.subscriptions.lookup t).map fun row =>
          if (ms.lookup t).isSome then row.touch now else row
  | [], ext, ext', _, h => by
    cases h
    exact ⟨rfl, fun t => ⟨rfl, by simp⟩⟩
  | (topic, sequence, value) :: ms, ext, ext', hk, h => by
    rw [List.map_cons, List.nodup_cons] at hk
    obtain ⟨ext₁, h₁, h⟩ := Option.bind_eq_some_iff.mp h
    obtain ⟨message, hv, rfl⟩ := Option.map_eq_some_iff.mp h₁
    obtain ⟨heq, hrest⟩ := writeMessages_lookup now hk.2 h
    refine ⟨heq, fun t => ?_⟩
    obtain ⟨hm, hs⟩ := hrest t
    by_cases ht : t = topic
    · subst ht
      have hno : ms.lookup t = none := by
        rw [List.lookup_eq_none_iff]
        intro m hmem
        simp only [bne_iff_ne, ne_eq]
        rintro rfl
        exact hk.1 (List.mem_map.mpr ⟨m, hmem, rfl⟩)
      rw [hno] at hm hs
      rw [hm, hs, List.lookup_cons_self]
      simp [Extension.setLastMessage, Subscription.touch, hv, Function.comp_def]
    · have hne : (t == topic) = false := by simpa using ht
      rw [hm, hs, List.lookup_cons, hne]
      simp [Extension.setLastMessage, ht]

/-! ## The errors -/

omit [Rclrs] in
/-- The errors of other topics have no part in a row. -/
theorem foldl_errors (t : String) (g : Live → List String) :
    ∀ (l : List ((_ : String) × Live)), l.NodupKeys → ∀ row : Subscription,
      (l.flatMap fun e => (g e.2).map fun error => (e.1, error)).foldl
          (fun row m => if t = m.1 then row.settle (.error m.2) else row) row
        = (((l.dlookup t).map g).getD []).foldl (fun row error => row.settle (.error error)) row
  | [], _, row => rfl
  | ⟨k, live⟩ :: l, h, row => by
    rw [List.nodupKeys_cons] at h
    rw [List.flatMap_cons, List.foldl_append, List.foldl_map, foldl_errors t g l h.2]
    by_cases hk : k = t
    · subst hk
      have hno : l.dlookup k = none := List.dlookup_eq_none.mpr h.1
      simp [hno]
    · rw [Table.dlookup_cons_of_ne _ _ hk]
      simp [Ne.symm hk]

/-! ## The flush -/

/-- A flush aborts just when `jsonb` refuses the message of some topic. -/
theorem flush_eq_none_iff (topics : LiveMap) (now : Time) (ext : Extension) :
    flush topics now (some ext) = none ↔
      ∃ t live m, topics.lookup t = some live ∧ live.message = some m ∧ m.2.jsonb = none := by
  have hw : flush topics now (some ext) = none ↔
      writeMessages now (flushMessages topics) ext = none := by
    simp only [flush, Option.bind_eq_bind, Option.bind_eq_none_iff]
    constructor
    · intro h
      by_contra hne
      obtain ⟨ext', he⟩ := Option.ne_none_iff_exists'.mp hne
      cases h ext' he
    · intro h ext' he
      rw [h] at he
      cases he
  rw [hw, writeMessages_eq_none_iff]
  constructor
  · rintro ⟨⟨t, m⟩, hm, hv⟩
    obtain ⟨live, hl, hlm⟩ := mem_flushMessages.mp hm
    exact ⟨t, live, m, hl, hlm, hv⟩
  · rintro ⟨t, live, m, hl, hlm, hv⟩
    exact ⟨(t, m), mem_flushMessages.mpr ⟨live, hl, hlm⟩, hv⟩

/-- A flush leaves of each topic what its own mailbox makes of it, and everything else. -/
theorem flush_topic {topics : LiveMap} {now : Time} {ext : Extension} {r : Option Extension}
    (h : flush topics now (some ext) = some r) :
    ∃ ext', r = some ext'
      ∧ ext' = { ext with subscriptions := ext'.subscriptions, messages := ext'.messages }
      ∧ ∀ t, ext'.messages.lookup t = (match (topics.lookup t).bind Live.message with
          | some m => m.2.jsonb.map (⟨m.1, now, ·⟩)
          | none => ext.messages.lookup t)
        ∧ ext'.subscriptions.lookup t = (ext.subscriptions.lookup t).map fun row =>
          match topics.lookup t with
          | some live => row.flushed now live
          | none => row := by
  obtain ⟨ext₁, hw, h⟩ := Option.bind_eq_some_iff.mp h
  cases h
  obtain ⟨heq, hrows⟩ := writeMessages_lookup now (flushMessages_keys topics) hw
  refine ⟨_, rfl, ?_, fun t => ?_⟩
  · rw [writeErrors_eq, heq]
  · obtain ⟨hm, hs⟩ := hrows t
    rw [writeErrors_eq]
    refine ⟨by rw [← flushMessages_lookup]; exact hm, ?_⟩
    simp only
    rw [lookup_foldl_update (fun error => Subscription.settle (.error error)), hs, Option.map_map]
    congr 1
    funext row
    rw [Function.comp, flushErrors, foldl_errors t Live.errors topics.entries topics.nodupKeys,
      flushMessages_lookup]
    change List.foldl _ _ ((Option.map Live.errors (topics.lookup t)).getD []) = _
    rcases topics.lookup t with _ | live <;> rfl

end PgRos2
