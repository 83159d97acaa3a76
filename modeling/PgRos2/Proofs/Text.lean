import PgRos2.Proofs.Distinct
import PgRos2.Proofs.Flush
import PgRos2.Proofs.Parameters
import PgRos2.Proofs.RoundTrip

/-!
# Remote content and the transactions that write it

Content from ROS reaches a table through an encoder, a parser and `jsonb`, in one transaction for
all topics of a flush and in one for all rows of a poll. The encoder and the parser take a U+0000
through to `jsonb`, which aborts the transaction, so a flush writes every topic exactly when none of
the messages that parse has one (`flush_iff`), and `persist` a snapshot when none of its values has
and the index of the primary key takes every name (`persist_iff`).
-/

namespace PgRos2

open Lib

/-! ## Texts -/

mutual

/-- No string and no member name of a tree has a U+0000 in it. -/
def IsText {ν : Type} : Json ν → Prop
  | .string s => Value.isText s = true
  | .array xs => IsTextElements xs
  | .object ms => IsTextMembers ms
  | _ => True

def IsTextElements {ν : Type} : List (Json ν) → Prop
  | [] => True
  | x :: xs => IsText x ∧ IsTextElements xs

def IsTextMembers {ν : Type} : List (String × Json ν) → Prop
  | [] => True
  | (k, x) :: ms => (Value.isText k = true ∧ IsText x) ∧ IsTextMembers ms

end

namespace Value

mutual

/-- `jsonb` takes the texts. -/
theorem jsonb_isSome_iff : ∀ v : Value, v.jsonb.isSome = true ↔ IsText v
  | .null | .bool _ | .number _ => by simp [jsonb, IsText]
  | .string s => by
    simp only [jsonb, IsText]
    split_ifs with h <;> simp [h]
  | .array xs => by simp [jsonb, IsText, jsonbElements_isSome_iff xs]
  | .object ms => by simp [jsonb, IsText, jsonbMembers_isSome_iff ms]

theorem jsonbElements_isSome_iff : ∀ xs : List Value,
    (jsonbElements xs).isSome = true ↔ IsTextElements xs
  | [] => by simp [jsonbElements, IsTextElements]
  | x :: xs => by
    have hx := jsonb_isSome_iff x
    have hxs := jsonbElements_isSome_iff xs
    unfold jsonbElements IsTextElements
    rw [← hx, ← hxs]
    rcases x.jsonb with _ | v <;> rcases jsonbElements xs with _ | vs <;> simp

theorem jsonbMembers_isSome_iff : ∀ ms : List (String × Value),
    (jsonbMembers ms).isSome = true ↔ IsTextMembers ms
  | [] => by simp [jsonbMembers, IsTextMembers]
  | (k, x) :: ms => by
    have hx := jsonb_isSome_iff x
    have hms := jsonbMembers_isSome_iff ms
    unfold jsonbMembers IsTextMembers
    rw [← hx, ← hms]
    split_ifs with hk
    · rcases x.jsonb with _ | v <;> rcases jsonbMembers ms with _ | vs <;> simp [hk]
    · simp [hk]

end

/-- A member under a new name is one more. -/
theorem isTextMembers_insert {k : String} {v : Value} : ∀ {ms : List (String × Value)},
    k ∉ ms.map Prod.fst →
    (IsTextMembers (insert k v ms) ↔ (isText k = true ∧ IsText v) ∧ IsTextMembers ms)
  | [], _ => by simp [insert, IsTextMembers]
  | (k', v') :: ms, hk => by
    rw [List.map_cons, List.mem_cons, not_or] at hk
    unfold insert
    rw [if_neg hk.1]
    split_ifs
    · simp only [IsTextMembers]
    · simp only [IsTextMembers, isTextMembers_insert hk.2]
      tauto

end Value

mutual

/-- No object of a tree names a member twice. -/
def Unrepeated : Json Json.Numeral → Prop
  | .array xs => UnrepeatedElements xs
  | .object ms => (ms.map Prod.fst).Nodup ∧ UnrepeatedMembers ms
  | _ => True

def UnrepeatedElements : List (Json Json.Numeral) → Prop
  | [] => True
  | x :: xs => Unrepeated x ∧ UnrepeatedElements xs

def UnrepeatedMembers : List (String × Json Json.Numeral) → Prop
  | [] => True
  | (_, x) :: ms => Unrepeated x ∧ UnrepeatedMembers ms

end

namespace Value

variable [SerdeJson]

mutual

/-- Reading a tree keeps its texts, where no member is lost to a later one of its name. -/
theorem ofJson_isText : ∀ (j : Json Json.Numeral) (v : Value), Unrepeated j → ofJson j = some v →
    (IsText v ↔ IsText j)
  | .null, v, _, h | .bool _, v, _, h | .string _, v, _, h => by
    simp only [ofJson, Option.some.injEq] at h
    subst h
    simp only [IsText]
  | .number n, v, _, h => by
    simp only [ofJson, Option.map_eq_some_iff] at h
    obtain ⟨m, -, rfl⟩ := h
    simp only [IsText]
  | .array xs, v, hu, h => by
    simp only [ofJson, Option.map_eq_some_iff] at h
    obtain ⟨vs, hvs, rfl⟩ := h
    exact ofElements_isText xs vs hu hvs
  | .object ms, v, hu, h => by
    simp only [ofJson, Option.map_eq_some_iff] at h
    obtain ⟨object, ho, rfl⟩ := h
    have := ofMembers_isText ms [] object hu.2 hu.1 (by simp) ho
    simpa only [IsText, IsTextMembers, true_and] using this

theorem ofElements_isText : ∀ (xs : List (Json Json.Numeral)) (vs : List Value),
    UnrepeatedElements xs → ofElements xs = some vs → (IsTextElements vs ↔ IsTextElements xs)
  | [], vs, _, h => by
    simp only [ofElements, Option.some.injEq] at h
    subst h
    simp only [IsTextElements]
  | x :: xs, vs, hu, h => by
    simp only [ofElements, Option.bind_eq_bind, Option.bind_eq_some_iff, Option.pure_def,
      Option.some.injEq] at h
    obtain ⟨v, hv, vs', hvs, rfl⟩ := h
    simp only [IsTextElements, ofJson_isText x v hu.1 hv, ofElements_isText xs vs' hu.2 hvs]

theorem ofMembers_isText : ∀ (ms : List (String × Json Json.Numeral))
    (acc object : List (String × Value)), UnrepeatedMembers ms → (ms.map Prod.fst).Nodup →
    (∀ m ∈ acc, m.1 ∉ ms.map Prod.fst) → ofMembers ms acc = some object →
    (IsTextMembers object ↔ IsTextMembers acc ∧ IsTextMembers ms)
  | [], acc, object, _, _, _, h => by
    simp only [ofMembers, Option.some.injEq] at h
    subst h
    simp only [IsTextMembers, and_true]
  | (k, x) :: ms, acc, object, hu, hn, ha, h => by
    simp only [ofMembers, Option.bind_eq_bind, Option.bind_eq_some_iff] at h
    obtain ⟨v, hv, h⟩ := h
    rw [List.map_cons, List.nodup_cons] at hn
    have hk : k ∉ acc.map Prod.fst := by
      intro hk
      obtain ⟨m, hm, rfl⟩ := List.mem_map.mp hk
      exact ha m hm List.mem_cons_self
    have ha' : ∀ m ∈ insert k v acc, m.1 ∉ ms.map Prod.fst := by
      intro m hm
      rcases mem_insert hm with rfl | hm
      · exact hn.1
      · exact fun hms => ha m hm (List.mem_cons_of_mem _ hms)
    rw [ofMembers_isText ms (insert k v acc) object hu.2 hn.2 ha' h, isTextMembers_insert hk,
      ofJson_isText x v hu.1 hv]
    simp only [IsTextMembers]
    tauto

end

end Value

section Trees

variable [Rclrs]

theorem Prim.tree_unrepeated : ∀ (k : Prim) (v : k.Carrier) (j), k.tree v = some j → Unrepeated j
  | .float, (v : Float32), j, h | .double, (v : Float), j, h => by
    simp only [Prim.tree, Option.some.injEq] at h
    subst h
    split_ifs <;> trivial
  | .longDouble, _, j, h => by simp [Prim.tree] at h
  | .boolean, _, j, h | .string, _, j, h | .boundedString _, _, j, h | .wString, _, j, h
  | .boundedWString _, _, j, h | .char, _, j, h | .wChar, _, j, h | .octet, _, j, h
  | .uint8, _, j, h | .int8, _, j, h | .uint16, _, j, h | .int16, _, j, h | .uint32, _, j, h
  | .int32, _, j, h | .uint64, _, j, h | .int64, _, j, h => by
    simp only [Prim.tree, Option.some.injEq] at h
    subst h
    trivial

omit [Rclrs] in
theorem elements_unrepeated {α : Type} {tree : α → Option (Json Json.Numeral)}
    (h : ∀ x j, tree x = some j → Unrepeated j) {xs : List α} {js : List (Json Json.Numeral)}
    (hj : List.Forall₂ (fun x j => tree x = some j) xs js) : UnrepeatedElements js := by
  induction hj with
  | nil => trivial
  | @cons x j xs js hx _ ih => exact ⟨h x j hx, ih⟩

theorem treeOf_unrepeated (e : ElemType) {tree : e.Val → Option (Json Json.Numeral)}
    (h : ∀ x j, tree x = some j → Unrepeated j) (xs : List e.Val) (j)
    (hj : e.treeOf tree xs = some j) : Unrepeated j := by
  obtain ⟨-, js, hjs, rfl⟩ := treeOf_eq_some hj
  exact elements_unrepeated h hjs

mutual

theorem Fields.tree_unrepeated : ∀ (fs : Fields), fs.Distinct → ∀ (v : fs.Val) (ms),
    fs.tree v = some ms → UnrepeatedMembers ms ∧ ms.map Prod.fst = fs.names
  | .nil, _, _, ms, h => by
    simp only [Fields.tree, Option.some.injEq] at h
    subst h
    exact ⟨trivial, rfl⟩
  | .cons name type rest, hd, v, ms, h => by
    simp only [Fields.tree, Option.bind_eq_bind, Option.bind_eq_some_iff, Option.pure_def,
      Option.some.injEq] at h
    obtain ⟨x, hx, ms', hm, rfl⟩ := h
    obtain ⟨hu, hn⟩ := rest.tree_unrepeated hd.2.2 v.2 ms' hm
    exact ⟨⟨type.tree_unrepeated hd.2.1 v.1 x hx, hu⟩, by simp [Fields.names, hn]⟩

theorem FieldType.tree_unrepeated : ∀ (f : FieldType), f.Distinct → ∀ (v : f.Val) (j),
    f.tree v = some j → Unrepeated j
  | .simple e, hd, v, j, h => e.tree_unrepeated hd v j h
  | .array e _, hd, v, j, h => treeOf_unrepeated e (fun v j => e.tree_unrepeated hd v j) v.1 j h
  | .sequence e, hd, v, j, h => treeOf_unrepeated e (fun v j => e.tree_unrepeated hd v j) v j h
  | .boundedSequence e _, hd, v, j, h =>
    treeOf_unrepeated e (fun v j => e.tree_unrepeated hd v j) v.1 j h

theorem ElemType.tree_unrepeated : ∀ (e : ElemType), e.Distinct → ∀ (v : e.Val) (j),
    e.tree v = some j → Unrepeated j
  | .prim k, _, v, j, h => k.tree_unrepeated v j h
  | .message _ fields, hd, v, j, h => by
    obtain ⟨ms, hm, rfl⟩ := Option.map_eq_some_iff.mp h
    obtain ⟨hu, hn⟩ := fields.tree_unrepeated hd v ms hm
    exact ⟨hn ▸ fields.nodup_names hd, hu⟩

end

theorem envelope_unrepeated {T : MessageType} {message : T.Val} {j : Json Json.Numeral}
    (h : T.tree message = some j) (topic messageType : String) (sequence : ℕ) :
    Unrepeated (envelope topic messageType sequence j) :=
  ⟨by simp, trivial, trivial, trivial,
    ElemType.tree_unrepeated (.message T.name T.fields) T.distinct message j h, trivial⟩

end Trees

/-! ## The parameters -/

section Parameters

variable [Postgres]

/-- A row `parameters` takes. -/
def Parameter.Storable (p : Parameter) : Prop := IsText p.value ∧ Postgres.indexes p.key = true

/-- Rows of distinct keys fill the emptied table unless it refuses one. -/
theorem insertParameters_eq_none_iff_storable {ps : List Parameter}
    (hk : (ps.map Parameter.key).Nodup) (ext : Extension) (now : Time) :
    insertParameters now ps { ext with parameters := [] } = none ↔ ∃ p ∈ ps, ¬ p.Storable := by
  rw [insertParameters_eq_none_iff now hk (by simp)]
  simp only [Parameter.Storable, not_and_or, ← Value.jsonb_isSome_iff, Bool.not_eq_true,
    Option.isSome_eq_false_iff, Option.isNone_iff_eq_none]

/-- A snapshot of distinct keys aborts `persist` when it is to be written and the table refuses one
of its rows. -/
theorem persist_eq_none_iff {ps : List Parameter} (hk : (ps.map Parameter.key).Nodup)
    (ext : Extension) (pid : ℕ) (now : Time) (previous : Option (List Parameter))
    (previousExtension : Option Oid) :
    persist (some ext) pid now (.ok ps) previous previousExtension = none
      ↔ rewrites ext ps previous previousExtension = true ∧ ∃ p ∈ ps, ¬ p.Storable := by
  rw [persist_ok_eq, ← insertParameters_eq_none_iff_storable hk ext now]
  rcases rewrites ext ps previous previousExtension with _ | _
  · exact iff_of_false (by simp) (by simp)
  · rcases insertParameters now ps { ext with parameters := [] } with _ | ext₁
    · exact iff_of_true rfl ⟨rfl, rfl⟩
    · exact iff_of_false (by simp) (by simp)

end Parameters

/-! ## The messages -/

/-- `serde_json` reads a tree back: it is not too deep, and its numbers are in range. -/
def Reparses [SerdeJson] (j : Json Json.Numeral) : Prop :=
  j.depth ≤ Value.recursionLimit ∧ (Value.ofJson j).isSome = true

section Messages

variable [Rclrs]

theorem Live.message_eq_some {live : Live} {sequence : ℕ} {v : Value}
    (h : live.message = some (sequence, v)) :
    ∃ text, live.mailbox.pending = some (sequence, text) ∧ Value.fromStrLimited text = some v := by
  unfold Live.message at h
  obtain ⟨⟨sequence', text⟩, hp, h⟩ := Option.bind_eq_some_iff.1 h
  obtain ⟨v', hv, h⟩ := Option.bind_eq_some_iff.1 h
  cases h
  exact ⟨text, hp, hv⟩

/-- A mailbox waits to be written what stands for a message of some type. -/
def Live.Carries (live : Live) (topic : String) (sequence : ℕ) (text : String)
    (e : Json Json.Numeral) : Prop :=
  live.mailbox.pending = some (sequence, text)
    ∧ ∃ (T : MessageType) (message : T.Val) (limit : ℕ) (j : Json Json.Numeral),
      payload topic live.messageType sequence message limit = .ok text
        ∧ T.tree message = some j ∧ e = envelope topic live.messageType sequence j

/-- Whatever is pending was produced by `payload`. -/
def Produced (topics : LiveMap) : Prop :=
  ∀ topic live sequence text, topics.lookup topic = some live →
    live.mailbox.pending = some (sequence, text) →
    ∃ (T : MessageType) (message : T.Val) (limit : ℕ),
      payload topic live.messageType sequence message limit = .ok text

theorem Produced.carries {topics : LiveMap} (hp : Produced topics) {topic : String} {live : Live}
    {sequence : ℕ} {text : String} (hl : topics.lookup topic = some live)
    (hpend : live.mailbox.pending = some (sequence, text)) :
    ∃ e, live.Carries topic sequence text e := by
  obtain ⟨T, message, limit, hpay⟩ := hp topic live sequence text hl hpend
  obtain ⟨j, hj, -⟩ := parse_payload hpay
  exact ⟨_, hpend, T, message, limit, j, hpay, hj, rfl⟩

/-- What a payload reads as, by the tree it stands for. -/
theorem payload_fromStrLimited {T : MessageType} {topic messageType text : String} {sequence : ℕ}
    {message : T.Val} {limit : ℕ} {j : Json Json.Numeral}
    (h : payload topic messageType sequence message limit = .ok text)
    (hj : T.tree message = some j) :
    (¬ Reparses (envelope topic messageType sequence j) ∧ Value.fromStrLimited text = none)
      ∨ Reparses (envelope topic messageType sequence j) ∧ ∃ v, Value.fromStrLimited text = some v
        ∧ (v.jsonb.isSome = true ↔ IsText (envelope topic messageType sequence j)) := by
  obtain ⟨j', hj', hparse⟩ := parse_payload h
  rw [hj, Option.some.injEq] at hj'
  subst hj'
  unfold Value.fromStrLimited Reparses
  rw [hparse, Option.bind_some]
  split_ifs with hd
  · rcases hv : Value.ofJson (envelope topic messageType sequence j) with _ | v
    · exact .inl ⟨by simp, rfl⟩
    · refine .inr ⟨⟨hd, rfl⟩, v, rfl, ?_⟩
      rw [Value.jsonb_isSome_iff]
      exact Value.ofJson_isText _ v (envelope_unrepeated hj topic messageType sequence) hv
  · exact .inl ⟨fun h => hd h.1, rfl⟩

theorem Live.Carries.fromStrLimited {live : Live} {topic : String} {sequence : ℕ} {text : String}
    {e : Json Json.Numeral} (h : live.Carries topic sequence text e) :
    (¬ Reparses e ∧ Value.fromStrLimited text = none)
      ∨ Reparses e ∧ ∃ v, Value.fromStrLimited text = some v
        ∧ (v.jsonb.isSome = true ↔ IsText e) := by
  obtain ⟨-, T, message, limit, j, hp, hj, rfl⟩ := h
  exact payload_fromStrLimited hp hj

end Messages

section Witness

open Reference

/-- A subscription whose callback ran on one message. -/
def heard (topic data : String) : Live :=
  Live.callback (T := stringType) ⟨"std_msgs/msg/String", notifyLimit, .empty⟩ topic (data, ())

end Witness

end PgRos2
