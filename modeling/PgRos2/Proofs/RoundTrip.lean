import PgRos2.Proofs.Decode
import PgRos2.Proofs.Payload
import PgRos2.Proofs.Serde

/-!
# The round trip

The tree of a message, read as a value, conforms to the message's type, and laid over any message
of the type it gives the message back, with NaN for every float that is not finite: the object
names every field, so nothing of what it is laid over is left (`FieldType.overlay_tree`). Those two
messages have the same tree, so they are encoded alike.

A float reads back when `serde_json` reads the numeral it displays as as that float, which is asked
of the floats of the message alone.
-/

namespace PgRos2

open Lib

theorem f32Nan_isFinite : f32Nan.isFinite = false := by decide +kernel

theorem f64Nan_isFinite : f64Nan.isFinite = false := by decide +kernel

theorem levels_map {α : Type} {levels : α → ℕ} {g : α → α} (h : ∀ x, levels (g x) = levels x)
    (xs : List α) : ((xs.map g).map levels).foldr max 0 = (xs.map levels).foldr max 0 := by
  rw [List.map_map, show levels ∘ g = levels from funext h]

theorem Fields.nodup_names : ∀ fs : Fields, fs.Distinct → fs.names.Nodup
  | .nil, _ => List.nodup_nil
  | .cons _ _ rest, hd => List.nodup_cons.mpr ⟨hd.1, rest.nodup_names hd.2.2⟩

section Restores

variable [SerdeJson]

/-- The tree reads as a value that conforms, and gives `x` whatever it is laid over. -/
def Restores {α : Type} (C : Value → Prop) (overlay : α → Value → α) (j : Json Json.Numeral)
    (x : α) : Prop :=
  ∃ w, Value.ofJson j = some w ∧ C w ∧ ∀ old, overlay old w = x

theorem integer_restores {T : Type} [FixedInt T] (v : T) :
    Restores (InRange T) (fun old w => (readInt T w).getD old)
      (.number (.ofInt (FixedInt.toInt v))) v := by
  have hw := FixedInt.within (T := T)
  have hv := FixedInt.bounds v
  obtain ⟨n, hn, hi⟩ := Value.ofNumeral_ofInt (i := FixedInt.toInt v) (by omega) (by omega)
  refine ⟨.number n, by simp [Value.ofJson, hn], ⟨_, hi, hv⟩, fun old => ?_⟩
  simp [readInt, hi, FixedInt.ofInt_toInt]

section Elements

variable {α : Type} {C : Value → Prop} {overlay : α → Value → α} {g : α → α}
  {tree : α → Option (Json Json.Numeral)}

/-- The trees of a list's elements read as values that give them back, one by one. -/
theorem elements_restore {xs : List α} {js : List (Json Json.Numeral)}
    (hj : List.Forall₂ (fun x j => tree x = some j) xs js) :
    (∀ x ∈ xs, ∀ j, tree x = some j → Restores C overlay j (g x)) →
    ∃ ws, Value.ofElements js = some ws ∧ ws.length = xs.length
      ∧ (∀ w ∈ ws, C w) ∧ (∀ d, ws.map (overlay d) = xs.map g)
      ∧ ∀ olds, olds.length = xs.length → List.zipWith overlay olds ws = xs.map g := by
  induction hj with
  | nil => exact fun _ => ⟨[], rfl, rfl, by simp, fun _ => rfl, fun olds _ => by simp⟩
  | @cons x j xs js hx _ ih =>
    intro h
    obtain ⟨w, hw, hc, ho⟩ := h x List.mem_cons_self j hx
    obtain ⟨ws, hws, hl, hcs, hm, hz⟩ := ih fun x hm => h x (List.mem_cons_of_mem _ hm)
    refine ⟨w :: ws, by simp [Value.ofElements, hw, hws], by simp [hl], by simpa [hc] using hcs,
      fun d => by simp [ho, hm d], fun olds hlen => ?_⟩
    rcases olds with _ | ⟨old, olds⟩
    · simp at hlen
    · simp [ho, hz olds (by simpa using hlen)]

end Elements

end Restores

section RoundTrip

variable [Rclrs]

/-- The numeral of a finite float reads as that float. -/
def Prim.ReadsBack : (k : Prim) → k.Carrier → Prop
  | .float, (v : Float32) => v.isFinite →
    (Number.ofNumeral (Rclrs.f32Display v)).map (fun n => asF32 n.asF64) = some v
  | .double, (v : Float) => v.isFinite →
    (Number.ofNumeral (Rclrs.f64Display v)).map Number.asF64 = some v
  | _, _ => True

/-- NaN for a float that is not finite. -/
def Prim.orNan : (k : Prim) → k.Carrier → k.Carrier
  | .float, (v : Float32) => if v.isFinite then v else f32Nan
  | .double, (v : Float) => if v.isFinite then v else f64Nan
  | _, v => v

mutual

def Fields.ReadsBack : (fs : Fields) → fs.Val → Prop
  | .nil, _ => True
  | .cons _ type rest, v => type.ReadsBack v.1 ∧ rest.ReadsBack v.2

/-- Every finite float in the value reads back. -/
def FieldType.ReadsBack : (f : FieldType) → f.Val → Prop
  | .simple e, v => e.ReadsBack v
  | .array e _, v => ∀ x ∈ v.1, e.ReadsBack x
  | .sequence e, (v : List e.Val) => ∀ x ∈ v, e.ReadsBack x
  | .boundedSequence e _, v => ∀ x ∈ v.1, e.ReadsBack x

def ElemType.ReadsBack : (e : ElemType) → e.Val → Prop
  | .prim k, v => k.ReadsBack v
  | .message _ fields, v => fields.ReadsBack v

end

mutual

def Fields.orNan : (fs : Fields) → fs.Val → fs.Val
  | .nil, v => v
  | .cons _ type rest, v => (type.orNan v.1, rest.orNan v.2)

/-- The value with NaN for every float that is not finite. -/
def FieldType.orNan : (f : FieldType) → f.Val → f.Val
  | .simple e, v => e.orNan v
  | .array e _, v => ⟨v.1.map fun x => e.orNan x, by rw [List.length_map, v.2]⟩
  | .sequence e, v => List.map (fun x => e.orNan x) v
  | .boundedSequence e _, v => ⟨v.1.map fun x => e.orNan x, by rw [List.length_map]; exact v.2⟩

def ElemType.orNan : (e : ElemType) → e.Val → e.Val
  | .prim k, v => k.orNan v
  | .message _ fields, v => fields.orNan v

end

abbrev MessageType.ReadsBack (T : MessageType) (message : T.Val) : Prop :=
  T.fields.ReadsBack message

abbrev MessageType.orNan (T : MessageType) (message : T.Val) : T.Val := T.fields.orNan message

/-! ## The same text -/

theorem Prim.tree_orNan : ∀ (k : Prim) (v : k.Carrier), k.tree (k.orNan v) = k.tree v
  | .float, (v : Float32) => by
    by_cases h : v.isFinite
    · rw [show Prim.orNan .float v = v from if_pos h]
    · rw [show Prim.orNan .float v = f32Nan from if_neg h]
      simp [Prim.tree, f32Nan_isFinite, h]
  | .double, (v : Float) => by
    by_cases h : v.isFinite
    · rw [show Prim.orNan .double v = v from if_pos h]
    · rw [show Prim.orNan .double v = f64Nan from if_neg h]
      simp [Prim.tree, f64Nan_isFinite, h]
  | .longDouble, _ | .char, _ | .wChar, _ | .boolean, _ | .octet, _ | .uint8, _ | .int8, _
  | .uint16, _ | .int16, _ | .uint32, _ | .int32, _ | .uint64, _ | .int64, _ | .string, _
  | .boundedString _, _ | .wString, _ | .boundedWString _, _ => rfl

theorem treeOf_map (e : ElemType) {tree : e.Val → Option (Json Json.Numeral)} {g : e.Val → e.Val}
    (h : ∀ x, tree (g x) = tree x) (xs : List e.Val) :
    e.treeOf tree (xs.map g) = e.treeOf tree xs := by
  have hm : (xs.map g).mapM tree = xs.mapM tree := by
    induction xs with
    | nil => rfl
    | cons x xs ih => rw [List.map_cons, List.mapM_cons, List.mapM_cons, ih, h]
  rw [ElemType.treeOf, ElemType.treeOf, hm]

mutual

theorem Fields.orNan_same : ∀ (fs : Fields) (v : fs.Val),
    fs.tree (fs.orNan v) = fs.tree v ∧ fs.levels (fs.orNan v) = fs.levels v
  | .nil, _ => ⟨rfl, rfl⟩
  | .cons _ type rest, v => by
    have ht := type.orNan_same v.1
    have hr := rest.orNan_same v.2
    simp only [Fields.orNan, Fields.tree, Fields.levels, ht.1, hr.1, ht.2, hr.2, and_self]

/-- NaN is written as every float that is not finite. -/
theorem FieldType.orNan_same : ∀ (f : FieldType) (v : f.Val),
    f.tree (f.orNan v) = f.tree v ∧ f.levels (f.orNan v) = f.levels v
  | .simple e, v => e.orNan_same v
  | .array e _, v =>
    ⟨treeOf_map e (fun x => (e.orNan_same x).1) v.1, levels_map (fun x => (e.orNan_same x).2) v.1⟩
  | .sequence e, v =>
    ⟨treeOf_map e (fun x => (e.orNan_same x).1) v, levels_map (fun x => (e.orNan_same x).2) v⟩
  | .boundedSequence e _, v =>
    ⟨treeOf_map e (fun x => (e.orNan_same x).1) v.1, levels_map (fun x => (e.orNan_same x).2) v.1⟩

theorem ElemType.orNan_same : ∀ (e : ElemType) (v : e.Val),
    e.tree (e.orNan v) = e.tree v ∧ e.levels (e.orNan v) = e.levels v
  | .prim k, v => ⟨k.tree_orNan v, rfl⟩
  | .message _ fields, v => by
    have h := fields.orNan_same v
    exact ⟨congrArg (Option.map Json.object) h.1, congrArg (· + 1) h.2⟩

end

/-! ## The same value -/

theorem Prim.restores : ∀ (k : Prim) (v : k.Carrier), k.ReadsBack v → ∀ j, k.tree v = some j →
    Restores k.Conforms (fun old w => (k.read w).getD old) j (k.orNan v)
  | .float, (v : Float32), hr, j, hj => by
    simp only [Prim.tree, Option.some.injEq] at hj
    subst hj
    by_cases h : v.isFinite
    · obtain ⟨n, hn, hv⟩ := Option.map_eq_some_iff.mp (hr h)
      rw [if_pos h, show Prim.orNan .float v = v from if_pos h]
      exact ⟨.number n, by simp [Value.ofJson, hn], .inr ⟨n, rfl⟩, fun _ => hv⟩
    · rw [if_neg h, show Prim.orNan .float v = f32Nan from if_neg h]
      exact ⟨.null, rfl, .inl rfl, fun _ => rfl⟩
  | .double, (v : Float), hr, j, hj => by
    simp only [Prim.tree, Option.some.injEq] at hj
    subst hj
    by_cases h : v.isFinite
    · obtain ⟨n, hn, hv⟩ := Option.map_eq_some_iff.mp (hr h)
      rw [if_pos h, show Prim.orNan .double v = v from if_pos h]
      exact ⟨.number n, by simp [Value.ofJson, hn], .inr ⟨n, rfl⟩, fun _ => hv⟩
    · rw [if_neg h, show Prim.orNan .double v = f64Nan from if_neg h]
      exact ⟨.null, rfl, .inl rfl, fun _ => rfl⟩
  | .longDouble, _, _, j, hj => by simp [Prim.tree] at hj
  | .boolean, (v : Bool), _, j, hj => by
    cases hj
    exact ⟨.bool v, rfl, ⟨v, rfl⟩, fun _ => rfl⟩
  | .string, (v : String), _, j, hj => by
    cases hj
    exact ⟨.string v, rfl, ⟨v, rfl⟩, fun _ => rfl⟩
  | .wString, (v : String), _, j, hj => by
    cases hj
    exact ⟨.string v, rfl, ⟨v, rfl⟩, fun _ => rfl⟩
  | .boundedString bound, v, _, j, hj => by
    cases hj
    exact ⟨.string v.1, rfl, ⟨v.1, rfl, v.2⟩, fun old => congrArg (Option.getD · old) (dif_pos v.2)⟩
  | .boundedWString bound, v, _, j, hj => by
    cases hj
    exact ⟨.string v.1, rfl, ⟨v.1, rfl, v.2⟩, fun old => congrArg (Option.getD · old) (dif_pos v.2)⟩
  | .char, (v : UInt8), _, j, hj | .octet, (v : UInt8), _, j, hj | .uint8, (v : UInt8), _, j, hj
  | .wChar, (v : UInt16), _, j, hj | .uint16, (v : UInt16), _, j, hj
  | .int8, (v : Int8), _, j, hj | .int16, (v : Int16), _, j, hj | .uint32, (v : UInt32), _, j, hj
  | .int32, (v : Int32), _, j, hj | .uint64, (v : UInt64), _, j, hj
  | .int64, (v : Int64), _, j, hj => by
    cases hj
    exact integer_restores v

mutual

/-- An object that has the members of a message's tree names every field, and gives them back. -/
theorem Fields.overlay_tree : ∀ (fs : Fields), fs.Distinct → ∀ (v : fs.Val), fs.ReadsBack v →
    ∀ ms, fs.tree v = some ms → (∀ m ∈ ms, ∃ w, Value.ofJson m.2 = some w)
      ∧ ms.map Prod.fst = fs.names
      ∧ ∀ object : List (String × Value), (∀ m ∈ ms, object.lookup m.1 = Value.ofJson m.2) →
        fs.Conforms object ∧ ∀ old, fs.overlay old object = fs.orNan v
  | .nil, _, _, _, ms, hm => by
    simp only [Fields.tree, Option.some.injEq] at hm
    subst hm
    exact ⟨by simp, rfl, fun _ _ => ⟨trivial, fun _ => rfl⟩⟩
  | .cons name type rest, hd, v, hr, ms, hm => by
    simp only [Fields.tree, Option.bind_eq_bind, Option.bind_eq_some_iff, Option.pure_def,
      Option.some.injEq] at hm
    obtain ⟨j, hj, ms', hms, rfl⟩ := hm
    obtain ⟨w, hw, hc, ho⟩ := type.overlay_tree hd.2.1 v.1 hr.1 j hj
    obtain ⟨hs, hn, hr⟩ := rest.overlay_tree hd.2.2 v.2 hr.2 ms' hms
    refine ⟨by simpa [hw] using hs, by simp [Fields.names, hn], fun object h => ?_⟩
    have hl : object.lookup name = some w := by rw [h (name, j) List.mem_cons_self, hw]
    obtain ⟨hcr, hor⟩ := hr object fun m hm => h m (List.mem_cons_of_mem _ hm)
    refine ⟨⟨fun item hi => ?_, hcr⟩, fun old => ?_⟩
    · rw [hl, Option.some.injEq] at hi
      exact hi ▸ hc
    · simp only [Fields.overlay, Fields.orNan, hl, ho, hor]
      rfl

/-- A tree, laid over any value of its type, gives its own value back. -/
theorem FieldType.overlay_tree : ∀ (f : FieldType), f.Distinct → ∀ (v : f.Val), f.ReadsBack v →
    ∀ j, f.tree v = some j → Restores f.Conforms f.overlay j (f.orNan v)
  | .simple e, hd, v, hr, j, hj => e.overlay_tree hd v hr j hj
  | .array e n, hd, v, hr, j, hj => by
    obtain ⟨he, js, hjs, rfl⟩ := treeOf_eq_some hj
    obtain ⟨ws, hws, hl, hcs, -, hz⟩ := elements_restore hjs
      fun x hx => e.overlay_tree hd x (hr x hx)
    refine ⟨.array ws, by simp [Value.ofJson, hws], ⟨ws, rfl, he, hl.trans v.2, hcs⟩, fun old => ?_⟩
    refine (dif_pos (hl.trans v.2)).trans (Subtype.ext ?_)
    exact hz old.1 (old.2.trans v.2.symm)
  | .sequence e, hd, v, hr, j, hj => by
    obtain ⟨he, js, hjs, rfl⟩ := treeOf_eq_some hj
    obtain ⟨ws, hws, -, hcs, hm, -⟩ := elements_restore hjs
      fun x hx => e.overlay_tree hd x (hr x hx)
    exact ⟨.array ws, by simp [Value.ofJson, hws], ⟨ws, rfl, he, hcs⟩, fun _ => hm _⟩
  | .boundedSequence e bound, hd, v, hr, j, hj => by
    obtain ⟨he, js, hjs, rfl⟩ := treeOf_eq_some hj
    obtain ⟨ws, hws, hl, hcs, hm, -⟩ := elements_restore hjs
      fun x hx => e.overlay_tree hd x (hr x hx)
    have hb : ws.length ≤ bound := hl.trans_le v.2
    refine ⟨.array ws, by simp [Value.ofJson, hws], ⟨ws, rfl, he, hb, hcs⟩, fun old => ?_⟩
    exact (dif_pos hb).trans (Subtype.ext (hm _))

theorem ElemType.overlay_tree : ∀ (e : ElemType), e.Distinct → ∀ (v : e.Val), e.ReadsBack v →
    ∀ j, e.tree v = some j → Restores e.Conforms e.overlay j (e.orNan v)
  | .prim k, _, v, hr, j, hj => k.restores v hr j hj
  | .message _ fields, hd, v, hr, j, hj => by
    obtain ⟨ms, hms, rfl⟩ := Option.map_eq_some_iff.mp hj
    obtain ⟨hs, hn, h⟩ := fields.overlay_tree hd v hr ms hms
    obtain ⟨object, ho⟩ := Value.ofMembers_isSome [] hs
    have hnd : (ms.map Prod.fst).Nodup := hn ▸ fields.nodup_names hd
    obtain ⟨hc, hov⟩ := h object fun m hm => Value.lookup_ofMembers ho hnd hm
    refine ⟨.object object, by simp [Value.ofJson, ho], ⟨object, rfl, fun m hm => ?_, hc⟩, hov⟩
    rcases Value.mem_ofMembers ho hm with hm | hm
    · exact hn ▸ hm
    · simp at hm

end

/-- An envelope reads as an object whose message is the value of its tree. -/
theorem envelope_reads {j : Json Json.Numeral} {w : Value} (hw : Value.ofJson j = some w)
    (topic messageType : String) (sequence : UInt64) :
    ∃ object, Value.ofJson (envelope topic messageType sequence.toNat j) = some (.object object)
      ∧ object.lookup "message" = some w := by
  have hm : ∀ m ∈ [("topic", Json.string topic), ("message_type", .string messageType),
      ("sequence", .number (.ofInt (sequence.toNat : ℤ))), ("message", j)],
      ∃ v, Value.ofJson m.2 = some v := by
    obtain ⟨n, hn, -⟩ := Value.ofNumeral_ofInt (i := sequence.toNat) (by omega)
      (by have := sequence.toNat_lt; omega)
    simp only [List.mem_cons, List.not_mem_nil, or_false, forall_eq_or_imp, forall_eq]
    exact ⟨⟨_, rfl⟩, ⟨_, rfl⟩, ⟨.number n, by simp [Value.ofJson, hn]⟩, w, hw⟩
  obtain ⟨object, hobj⟩ := Value.ofMembers_isSome [] hm
  refine ⟨object, by simp [envelope, Value.ofJson, hobj], ?_⟩
  rw [Value.lookup_ofMembers (m := ("message", j)) hobj (by simp) (by simp), hw]

/-- Decoding what was encoded, over a message fresh from its default, gives the message back with
NaN for each float that is not finite, and that message is encoded to the same text. -/
theorem payload_round_trip {T : MessageType} {topic messageType : String} {sequence : UInt64}
    {message : T.Val} {limit : ℕ} {text : String}
    (h : payload topic messageType sequence.toNat message limit = .ok text)
    (hr : T.ReadsBack message) :
    ∃ value member, Value.fromStr text = some value ∧ Value.get value "message" = some member
      ∧ decode T.default member = .ok (T.orNan message)
      ∧ payload topic messageType sequence.toNat (T.orNan message) limit = .ok text := by
  obtain ⟨j, hj, hl, ht, hs⟩ := payload_eq_ok_iff.mp h
  obtain ⟨w, hw, hc, ho⟩ :=
    (ElemType.message T.name T.fields).overlay_tree T.distinct message hr j hj
  obtain ⟨object, hobj, hget⟩ := envelope_reads hw topic messageType sequence
  refine ⟨.object object, w, ?_, hget, ?_, ?_⟩
  · rw [ht, Value.fromStr, Json.parse_text (envelope_valid topic messageType sequence.toNat
      (T.tree_valid hj)), Option.bind_some, hobj]
  · rw [(decode_decodes T T.default (Value.ofJson_distinct j w hw)).1 hc]
    exact congrArg Except.ok (ho _)
  · obtain ⟨ht', hl'⟩ := T.fields.orNan_same message
    refine payload_eq_ok_iff.mpr ⟨j, ?_, ?_, ht, hs⟩
    · rw [← hj, MessageType.tree, MessageType.tree, ht']
    · rw [MessageType.levels, hl']
      exact hl

end RoundTrip

section Witness

open Reference

def readingType : MessageType :=
  ⟨"test/msg/Reading", .cons "x" (.simple (.prim .double)) (.cons "xs" (.sequence (.prim .float))
    (.cons "n" (.array (.prim .int64) 2) .nil)), by
    simp [Fields.Distinct, FieldType.Distinct, ElemType.Distinct, Fields.names]⟩

/-- A half, a quarter and an infinity, and the least `i64`. -/
def reading : readingType.Val :=
  ((0.5 : Float), [(0.25 : Float32), (1.0 : Float32) / 0.0],
    ⟨[(-9223372036854775808 : Int64), (7 : Int64)], rfl⟩, ())

def readingText : String :=
  "\x7b\"topic\":\"/t\",\"message_type\":\"test/msg/Reading\",\"sequence\":3,\"message\":"
    ++ "\x7b\"x\":0.5,\"xs\":[0.25,null],\"n\":[-9223372036854775808,7]\x7d\x7d"

theorem reading_readsBack : readingType.ReadsBack reading := by
  have hx : (Number.ofNumeral (Rclrs.f64Display 0.5)).map Number.asF64 = some 0.5 := by
    decide +kernel
  have hxs : (Number.ofNumeral (Rclrs.f32Display 0.25)).map (fun n => asF32 n.asF64)
      = some 0.25 := by
    decide +kernel
  have hinf : ((1.0 : Float32) / 0.0).isFinite = false := by decide +kernel
  exact ⟨fun _ => hx, List.forall_mem_cons.mpr ⟨fun _ => hxs, List.forall_mem_singleton.mpr
    fun h => absurd (hinf.symm.trans h) Bool.false_ne_true⟩, fun _ _ => trivial, trivial⟩

theorem payload_round_trip_reading : ∃ value member, Value.fromStr readingText = some value
    ∧ Value.get value "message" = some member
    ∧ decode readingType.default member = .ok (readingType.orNan reading)
    ∧ payload (T := readingType) "/t" "test/msg/Reading" 3 (readingType.orNan reading) notifyLimit
      = .ok readingText :=
  @payload_round_trip _ readingType _ _ 3 reading _ _ (by decide +kernel) reading_readsBack

end Witness

end PgRos2
