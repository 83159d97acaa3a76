import PgRos2.Unlimited
import PgRos2.Proofs.Payload

/-!
# The limit is exact

The encoder with a limit is the encoder without one and a check at the end (`Caps`): whatever the
writer without a limit appends, the writer with one pushes as a whole, and where the one fails the
other does. What each walk accepts is then a matter of the message alone.
-/

namespace PgRos2

open Lib

/-- What `g` appends `f` pushes, and where `g` fails `f` does. -/
def Caps (f : Output → Except String Output) (g : String → Except String String) : Prop :=
  ∀ out, (∀ s, g out.text = .ok s → ∃ t, s = out.text ++ t ∧ f out = out.push t)
    ∧ ∀ e, g out.text = .error e → ∃ e', f out = .error e'

namespace Caps

theorem push (t : String) : Caps (fun out => out.push t) (fun out => .ok (out ++ t)) := by
  intro out
  refine ⟨fun s hs => ?_, fun e he => by cases he⟩
  cases hs
  exact ⟨t, rfl, rfl⟩

theorem ok : Caps .ok .ok := by
  intro out
  refine ⟨fun s hs => ?_, fun e he => by cases he⟩
  cases hs
  exact ⟨"", by simp, Emits.ok out⟩

theorem error (e e' : String) : Caps (fun _ => .error e) (fun _ => .error e') := by
  intro out
  exact ⟨fun s hs => (by cases hs), fun _ _ => ⟨e, rfl⟩⟩

theorem congr {f f' : Output → Except String Output} {g g' : String → Except String String}
    (h : Caps f g) (hf : ∀ out, f' out = f out) (hg : ∀ out, g' out = g out) : Caps f' g' := by
  rwa [show f' = f from funext hf, show g' = g from funext hg]

/-- A writer appends to what is there. -/
theorem appends {f : Output → Except String Output} {g : String → Except String String}
    (h : Caps f g) {s s' : String} (hs : g s = .ok s') : ∃ t, s' = s ++ t := by
  obtain ⟨t, ht, -⟩ := (h ⟨s, s.utf8ByteSize, le_rfl⟩).1 s' hs
  exact ⟨t, ht⟩

/-- One writer after another. -/
theorem bind {f f' : Output → Except String Output} {g g' : String → Except String String}
    (h : Caps f g) (h' : Caps f' g') :
    Caps (fun out => f out >>= f') (fun out => g out >>= g') := by
  intro out
  change (∀ s, (g out.text >>= g') = .ok s → ∃ t, s = out.text ++ t ∧ (f out >>= f') = out.push t)
    ∧ ∀ e, (g out.text >>= g') = .error e → ∃ e', (f out >>= f') = .error e'
  rcases hg : g out.text with e | s
  · obtain ⟨e', he'⟩ := (h out).2 e hg
    refine ⟨fun s hs => (by cases hs), fun _ _ => ⟨e', ?_⟩⟩
    rw [he']
    rfl
  obtain ⟨t, rfl, hf⟩ := (h out).1 s hg
  rw [hf]
  by_cases hfits : out.text.utf8ByteSize + t.utf8ByteSize > out.limit
  · -- the first text is refused, so the two together are
    have herror : out.push t = .error (Output.limitError out.limit) := dif_pos hfits
    refine ⟨fun s hs => ?_, fun _ _ => ⟨Output.limitError out.limit, by rw [herror]; rfl⟩⟩
    obtain ⟨t', rfl⟩ := Caps.appends h' hs
    refine ⟨t ++ t', by rw [String.append_assoc], ?_⟩
    rw [← Output.push_push, herror]
    rfl
  · have hpush : out.push t = .ok (out.pushStr t hfits) := dif_neg hfits
    refine ⟨fun s hs => ?_, fun e he => ?_⟩
    · obtain ⟨t', rfl, hf'⟩ := (h' (out.pushStr t hfits)).1 s hs
      refine ⟨t ++ t', String.append_assoc .., ?_⟩
      rw [← Output.push_push, hpush]
      exact hf'
    · obtain ⟨e', he'⟩ := (h' (out.pushStr t hfits)).2 e he
      rw [hpush]
      exact ⟨e', he'⟩

theorem separator (index : ℕ) :
    Caps (Output.separator index) (fun out => .ok (Unlimited.separator index out)) := by
  by_cases h : index > 0
  · exact (Caps.push ",").congr (fun _ => by rw [Output.separator, if_pos h])
      (fun _ => by rw [Unlimited.separator, if_pos h])
  · exact Caps.ok.congr (fun _ => by rw [Output.separator, if_neg h])
      (fun _ => by rw [Unlimited.separator, if_neg h])

theorem message {members : Output → Except String Output}
    {members' : String → Except String String} (h : Caps members members') (depth : ℕ) :
    Caps (Output.message members depth) (Unlimited.message members' depth) := by
  by_cases hd : depth > 64
  · exact (Caps.error _ _).congr (fun _ => by rw [Output.message, if_pos hd])
      (fun _ => by rw [Unlimited.message, if_pos hd])
  · exact ((Caps.push "\x7b").bind (h.bind (Caps.push "\x7d"))).congr
      (fun _ => by rw [Output.message, if_neg hd])
      (fun _ => by rw [Unlimited.message, if_neg hd]; rfl)

section Elements

variable {T : Type} {encode : T → Output → Except String Output}
  {encode' : T → String → Except String String}

theorem arrayElements (h : ∀ x, Caps (encode x) (encode' x)) : ∀ (xs : List T) (index : ℕ),
    Caps (Output.arrayElements encode index xs) (Unlimited.arrayElements encode' index xs)
  | [], _ => Caps.ok.congr (fun _ => rfl) (fun _ => rfl)
  | x :: xs, index =>
    ((Caps.separator index).bind ((h x).bind (arrayElements h xs (index + 1)))).congr
      (fun _ => rfl) (fun _ => rfl)

theorem container [Rclrs] (e : ElemType) {values : List e.Val}
    {encode : e.Val → Output → Except String Output}
    {encode' : e.Val → String → Except String String} (h : ∀ x, Caps (encode x) (encode' x)) :
    Caps (Output.container e values encode) (Unlimited.container e values encode') := by
  rcases he : e.isLongDouble with _ | _
  · exact ((Caps.push "[").bind ((Caps.arrayElements h values 0).bind (Caps.push "]"))).congr
      (fun _ => by simp [Output.container, he, Output.array])
      (fun _ => by simp [Unlimited.container, he, Unlimited.array]; rfl)
  · exact (Caps.error _ _).congr (fun _ => by rw [Output.container, if_pos he])
      (fun _ => by rw [Unlimited.container, if_pos he])

end Elements

variable [Rclrs]

theorem string (value : String) :
    Caps (fun out => out.string value) (fun out => .ok (Unlimited.string value out)) :=
  (Caps.push _).congr (fun out => Output.string_eq_push out value) (fun _ => rfl)

theorem number (value : String) :
    Caps (fun out => out.number value) (fun out => .ok (out ++ value)) :=
  (Caps.push value).congr (fun out => Output.number_eq_push out value) (fun _ => rfl)

theorem simpleValue : ∀ (k : Prim) (v : k.Carrier),
    Caps (Output.simpleValue k v) (fun out => (Unlimited.simpleText k v).map (out ++ ·))
  | .float, (v : Float32) => by
    by_cases h : v.isFinite
    · refine (Caps.number (String.ofList (Rclrs.f32Display v).text)).congr (fun _ => ?_) fun _ => ?_
      · rw [Output.simpleValue, if_pos h]
      · rw [Unlimited.simpleText, if_pos h]
        rfl
    · refine (Caps.push "null").congr (fun _ => ?_) fun _ => ?_
      · rw [Output.simpleValue, if_neg h]
      · rw [Unlimited.simpleText, if_neg h]
        rfl
  | .double, (v : Float) => by
    by_cases h : v.isFinite
    · refine (Caps.number (String.ofList (Rclrs.f64Display v).text)).congr (fun _ => ?_) fun _ => ?_
      · rw [Output.simpleValue, if_pos h]
      · rw [Unlimited.simpleText, if_pos h]
        rfl
    · refine (Caps.push "null").congr (fun _ => ?_) fun _ => ?_
      · rw [Output.simpleValue, if_neg h]
      · rw [Unlimited.simpleText, if_neg h]
        rfl
  | .longDouble, _ => Caps.error _ _
  | .boolean, _ | .char, _ | .wChar, _ | .octet, _ | .uint8, _ | .int8, _ | .uint16, _
  | .int16, _ | .uint32, _ | .int32, _ | .uint64, _ | .int64, _ =>
    (Caps.number _).congr (fun _ => rfl) (fun _ => rfl)
  | .string, _ | .boundedString _, _ | .wString, _ | .boundedWString _, _ =>
    (Caps.string _).congr (fun _ => rfl) (fun _ => rfl)

end Caps

theorem mapM_eq_none_iff {α β : Type} (t : α → Option β) : ∀ xs : List α,
    xs.mapM t = none ↔ ∃ x ∈ xs, t x = none
  | [] => by simp
  | x :: xs => by
    have ih := mapM_eq_none_iff t xs
    rw [List.mapM_cons]
    rcases hx : t x with _ | y
    · simp [hx]
    rcases hxs : xs.mapM t with _ | ys
    · simpa [hx] using ih.mp hxs
    · simpa [hx, hxs] using ih

section Encode

variable [Rclrs]

mutual

theorem Fields.encode_caps : ∀ (fs : Fields) (v : fs.Val) (index depth : ℕ),
    Caps (fs.encode v index depth) (fs.unlimited v index depth)
  | .nil, _, _, _ => Caps.ok.congr (fun _ => by rw [Fields.encode]) fun _ => by
      rw [Fields.unlimited]
  | .cons name type rest, v, index, depth => by
    have ht := type.encode_caps v.1 (depth + 1)
    have hr := rest.encode_caps v.2 (index + 1) depth
    exact ((Caps.separator index).bind ((Caps.string name).bind
      ((Caps.push ":").bind (ht.bind hr)))).congr (fun _ => by rw [Fields.encode]) fun _ => by
        rw [Fields.unlimited]
        rfl

/-- The walk with a limit caps the walk without one. -/
theorem FieldType.encode_caps : ∀ (f : FieldType) (v : f.Val) (depth : ℕ),
    Caps (f.encode v depth) (f.unlimited v depth)
  | .simple e, v, depth => (e.encode_caps v depth).congr (fun _ => by rw [FieldType.encode])
      fun _ => by rw [FieldType.unlimited]
  | .array e _, v, depth => (Caps.container e fun x => e.encode_caps x depth).congr
      (fun _ => by rw [FieldType.encode]; rfl) fun _ => by rw [FieldType.unlimited]
  | .sequence e, v, depth => (Caps.container e fun x => e.encode_caps x depth).congr
      (fun _ => by rw [FieldType.encode]; rfl) fun _ => by rw [FieldType.unlimited]
  | .boundedSequence e _, v, depth => (Caps.container e fun x => e.encode_caps x depth).congr
      (fun _ => by rw [FieldType.encode]; rfl) fun _ => by rw [FieldType.unlimited]

theorem ElemType.encode_caps : ∀ (e : ElemType) (v : e.Val) (depth : ℕ),
    Caps (e.encode v depth) (e.unlimited v depth)
  | .prim k, v, _ => (Caps.simpleValue k v).congr (fun _ => by rw [ElemType.encode]) fun _ => by
      rw [ElemType.unlimited]
  | .message _ fields, v, depth => ((fields.encode_caps v 0 depth).message depth).congr
      (fun _ => by rw [ElemType.encode]) fun _ => by rw [ElemType.unlimited]

end

theorem treeOf_eq_none_iff (e : ElemType) {tree : e.Val → Option (Json Json.Numeral)}
    {reaches : e.Val → Prop} (h : ∀ v, tree v = none ↔ reaches v) (values : List e.Val) :
    e.treeOf tree values = none ↔ e.isLongDouble ∨ ∃ v ∈ values, reaches v := by
  unfold ElemType.treeOf
  split_ifs with he
  · simp [he]
  · simp [he, mapM_eq_none_iff, h]

mutual

theorem Fields.tree_eq_none_iff : ∀ (fs : Fields) (v : fs.Val),
    fs.tree v = none ↔ fs.ReachesLongDouble v
  | .nil, _ => by simp [Fields.tree, Fields.ReachesLongDouble]
  | .cons name type rest, v => by
    rw [Fields.ReachesLongDouble, ← type.tree_eq_none_iff v.1, ← rest.tree_eq_none_iff v.2,
      Fields.tree]
    rcases type.tree v.1 with _ | j
    · simp
    rcases rest.tree v.2 with _ | ms <;> simp

/-- A value has no tree just when the walk over it reaches a long double. -/
theorem FieldType.tree_eq_none_iff : ∀ (f : FieldType) (v : f.Val),
    f.tree v = none ↔ f.ReachesLongDouble v
  | .simple e, v => by
    rw [FieldType.tree, FieldType.ReachesLongDouble]
    exact e.tree_eq_none_iff v
  | .array e _, v => by
    rw [FieldType.tree, FieldType.ReachesLongDouble]
    exact treeOf_eq_none_iff e (fun v => e.tree_eq_none_iff v) v.1
  | .sequence e, v => by
    rw [FieldType.tree, FieldType.ReachesLongDouble]
    exact treeOf_eq_none_iff e (fun v => e.tree_eq_none_iff v) v
  | .boundedSequence e _, v => by
    rw [FieldType.tree, FieldType.ReachesLongDouble]
    exact treeOf_eq_none_iff e (fun v => e.tree_eq_none_iff v) v.1

theorem ElemType.tree_eq_none_iff : ∀ (e : ElemType) (v : e.Val),
    e.tree v = none ↔ e.ReachesLongDouble v
  | .prim k, v => by
    rw [ElemType.tree, ElemType.ReachesLongDouble]
    cases k <;> simp [Prim.tree]
  | .message _ fields, v => by
    rw [ElemType.tree, ElemType.ReachesLongDouble, Option.map_eq_none_iff]
    exact fields.tree_eq_none_iff v

end

end Encode

section Payload

variable [Rclrs] {T : MessageType}

theorem exists_tree_iff (message : T.Val) :
    (∃ j, T.tree message = some j) ↔ ¬ T.ReachesLongDouble message := by
  unfold MessageType.ReachesLongDouble MessageType.tree
  rw [← T.fields.tree_eq_none_iff message, ← Option.ne_none_iff_exists']
  simp

theorem envelope_caps (topic messageType : String) (sequence : ℕ) (message : T.Val) :
    Caps (Output.envelope topic messageType sequence message)
      (Unlimited.envelope topic messageType sequence message) := by
  have hm := (T.fields.encode_caps message 0 0).message 0
  exact ((Caps.push "\x7b\"topic\":").bind ((Caps.string topic).bind
    ((Caps.push ",\"message_type\":").bind ((Caps.string messageType).bind
    ((Caps.push ",\"sequence\":").bind ((Caps.number (toString sequence)).bind
    ((Caps.push ",\"message\":").bind (hm.bind (Caps.push "\x7d"))))))))).congr
    (fun _ => rfl) (fun _ => rfl)

/-- The limit is a check on the length of what is written without one. -/
theorem payload_eq_ok_iff_unlimited {topic messageType : String} {sequence : ℕ} {message : T.Val}
    {limit : ℕ} {text : String} : payload topic messageType sequence message limit = .ok text ↔
      Unlimited.payload topic messageType sequence message = .ok text
        ∧ text.utf8ByteSize ≤ limit := by
  have h := envelope_caps topic messageType sequence message (Output.new limit)
  change (∀ s, Unlimited.payload topic messageType sequence message = .ok s → _)
    ∧ (∀ e, Unlimited.payload topic messageType sequence message = .error e → _) at h
  unfold payload
  rcases hu : Unlimited.payload topic messageType sequence message with e | s
  · obtain ⟨e', he'⟩ := h.2 e hu
    simp [he', Except.map]
  · obtain ⟨t, rfl, ht⟩ := h.1 s hu
    rw [ht, Output.push_new]
    constructor
    · intro h
      split_ifs at h with hs
      cases h
      exact ⟨by simp [Output.new], hs⟩
    · rintro ⟨h, hs⟩
      simp only [Output.new, String.empty_append, Except.ok.injEq] at h
      subst h
      rw [if_pos hs]

/-- The byte limit is exact: a payload is the encoding without a limit, of a message that reaches
no long double and nests no deeper than 64 levels, when that encoding fits. -/
theorem payload_limit_exact (topic messageType : String) (sequence : ℕ) (message : T.Val) :
    (∀ limit text, payload topic messageType sequence message limit = .ok text ↔
      ¬ T.ReachesLongDouble message ∧ T.levels message ≤ 64
        ∧ Unlimited.payload topic messageType sequence message = .ok text
        ∧ text.utf8ByteSize ≤ limit)
    ∧ ((¬ T.ReachesLongDouble message ∧ T.levels message ≤ 64) ↔
      ∃ text, Unlimited.payload topic messageType sequence message = .ok text)
    ∧ ∀ limit limit' text, limit ≤ limit' →
      payload topic messageType sequence message limit = .ok text →
      payload topic messageType sequence message limit' = .ok text := by
  have hwalk : ∀ {limit text}, payload topic messageType sequence message limit = .ok text →
      ¬ T.ReachesLongDouble message ∧ T.levels message ≤ 64 := by
    intro limit text h
    obtain ⟨j, hj, hl, -⟩ := payload_eq_ok_iff.mp h
    exact ⟨(exists_tree_iff message).mp ⟨j, hj⟩, hl⟩
  refine ⟨fun limit text => ⟨fun h => ?_, ?_⟩, ⟨?_, ?_⟩, fun limit limit' text hle h => ?_⟩
  · exact ⟨(hwalk h).1, (hwalk h).2, payload_eq_ok_iff_unlimited.mp h⟩
  · rintro ⟨-, -, h⟩
    exact payload_eq_ok_iff_unlimited.mpr h
  · rintro ⟨hr, hl⟩
    obtain ⟨j, hj⟩ := (exists_tree_iff message).mpr hr
    -- with a limit of the length of the text itself
    exact ⟨_, (payload_eq_ok_iff_unlimited.mp
      (payload_eq_ok_iff.mpr ⟨j, hj, hl, rfl, le_rfl⟩)).1⟩
  · rintro ⟨text, h⟩
    exact hwalk (payload_eq_ok_iff_unlimited.mpr ⟨h, le_rfl⟩)
  · obtain ⟨hu, hs⟩ := payload_eq_ok_iff_unlimited.mp h
    exact payload_eq_ok_iff_unlimited.mpr ⟨hu, by omega⟩

end Payload

end PgRos2
