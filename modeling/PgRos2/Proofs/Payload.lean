import PgRos2.Proofs.Encode
import PgRos2.Reference

/-!
# The envelope

The text of a payload is the text of an object of four members, the last of them the message's
tree, and it is refused exactly when it would be longer than the limit, reaches a long double or
nests too deep. A tree's text parses back to it, so a payload determines the topic, the type name,
the sequence and the tree it was made of.
-/

namespace PgRos2

open Lib

/-- The object a notification carries. -/
def envelope (topic messageType : String) (sequence : ℕ) (message : Json Json.Numeral) :
    Json Json.Numeral :=
  .object [("topic", .string topic), ("message_type", .string messageType),
    ("sequence", .number (.ofInt sequence)), ("message", message)]

theorem text_ofInt_natCast (n : ℕ) : (Json.Numeral.ofInt n).text = (toString n).toList := by
  have h : ¬ ((n : ℤ) < 0) := by omega
  simp [Json.Numeral.ofInt, Json.Numeral.text, Json.Numeral.fracText, Json.Numeral.expText, h]

theorem Prim.tree_valid [Rclrs] : ∀ (k : Prim) (v : k.Carrier) (j), k.tree v = some j → j.Valid
  | .float, (v : Float32), j, h => by
    simp only [Prim.tree, Option.some.injEq] at h
    subst h
    split_ifs with hf
    · exact Rclrs.f32_valid v hf
    · trivial
  | .double, (v : Float), j, h => by
    simp only [Prim.tree, Option.some.injEq] at h
    subst h
    split_ifs with hf
    · exact Rclrs.f64_valid v hf
    · trivial
  | .longDouble, _, j, h => by simp [Prim.tree] at h
  | .boolean, _, j, h | .string, _, j, h | .boundedString _, _, j, h | .wString, _, j, h
  | .boundedWString _, _, j, h => by
    simp only [Prim.tree, Option.some.injEq] at h
    subst h
    trivial
  | .char, _, j, h | .wChar, _, j, h | .octet, _, j, h | .uint8, _, j, h | .int8, _, j, h
  | .uint16, _, j, h | .int16, _, j, h | .uint32, _, j, h | .int32, _, j, h | .uint64, _, j, h
  | .int64, _, j, h => by
    simp only [Prim.tree, Option.some.injEq] at h
    subst h
    exact Json.Numeral.valid_ofInt _

/-- Mapping a list that is not refused maps its elements one by one. -/
theorem forall₂_of_mapM {α β : Type} {f : α → Option β} : ∀ {xs : List α} {ys : List β},
    xs.mapM f = some ys → List.Forall₂ (fun x y => f x = some y) xs ys
  | [], ys, h => by
    simp only [List.mapM_nil, Option.pure_def, Option.some.injEq] at h
    subst h
    exact .nil
  | x :: xs, ys, h => by
    simp only [List.mapM_cons, Option.bind_eq_bind, Option.bind_eq_some_iff, Option.pure_def,
      Option.some.injEq] at h
    obtain ⟨y, hy, ys', hys, rfl⟩ := h
    exact .cons hy (forall₂_of_mapM hys)

theorem elements_valid {α : Type} {tree : α → Option (Json Json.Numeral)}
    (h : ∀ x j, tree x = some j → j.Valid) {xs : List α} {js : List (Json Json.Numeral)}
    (hj : List.Forall₂ (fun x j => tree x = some j) xs js) : Json.ValidElements js := by
  induction hj with
  | nil => trivial
  | @cons x j xs js hx _ ih => exact ⟨h x j hx, ih⟩

section Trees

variable [Rclrs]

theorem treeOf_eq_some {e : ElemType} {tree : e.Val → Option (Json Json.Numeral)}
    {xs : List e.Val} {j : Json Json.Numeral} (h : e.treeOf tree xs = some j) :
    e.isLongDouble = false
      ∧ ∃ js, List.Forall₂ (fun x j => tree x = some j) xs js ∧ j = .array js := by
  unfold ElemType.treeOf at h
  split_ifs at h with he
  obtain ⟨js, hjs, rfl⟩ := Option.map_eq_some_iff.mp h
  exact ⟨by simpa using he, js, forall₂_of_mapM hjs, rfl⟩

theorem treeOf_valid (e : ElemType) {tree : e.Val → Option (Json Json.Numeral)}
    (h : ∀ x j, tree x = some j → j.Valid) (xs : List e.Val) (j)
    (hj : e.treeOf tree xs = some j) : j.Valid := by
  obtain ⟨-, js, hjs, rfl⟩ := treeOf_eq_some hj
  exact elements_valid h hjs

mutual

theorem Fields.tree_valid : ∀ (fs : Fields) (v : fs.Val) (ms), fs.tree v = some ms →
    Json.ValidMembers ms
  | .nil, _, ms, h => by
    simp only [Fields.tree, Option.some.injEq] at h
    subst h
    trivial
  | .cons name type rest, v, ms, h => by
    simp only [Fields.tree, Option.bind_eq_bind, Option.bind_eq_some_iff, Option.pure_def,
      Option.some.injEq] at h
    obtain ⟨x, hx, ms', hm, rfl⟩ := h
    exact ⟨type.tree_valid v.1 x hx, rest.tree_valid v.2 ms' hm⟩

theorem FieldType.tree_valid : ∀ (f : FieldType) (v : f.Val) (j), f.tree v = some j → j.Valid
  | .simple e, v, j, h => e.tree_valid v j (by rwa [FieldType.tree] at h)
  | .array e _, v, j, h => treeOf_valid e (fun v j => e.tree_valid v j) v.1 j (by
      rwa [FieldType.tree] at h)
  | .sequence e, v, j, h => treeOf_valid e (fun v j => e.tree_valid v j) v j (by
      rwa [FieldType.tree] at h)
  | .boundedSequence e _, v, j, h => treeOf_valid e (fun v j => e.tree_valid v j) v.1 j (by
      rwa [FieldType.tree] at h)

theorem ElemType.tree_valid : ∀ (e : ElemType) (v : e.Val) (j), e.tree v = some j → j.Valid
  | .prim k, v, j, h => k.tree_valid v j (by rwa [ElemType.tree] at h)
  | .message _ fields, v, j, h => by
    rw [ElemType.tree, Option.map_eq_some_iff] at h
    obtain ⟨ms, hm, rfl⟩ := h
    exact fields.tree_valid v ms hm

end

theorem MessageType.tree_valid (T : MessageType) {message : T.Val} {j : Json Json.Numeral}
    (h : T.tree message = some j) : j.Valid := by
  rw [MessageType.tree, Option.map_eq_some_iff] at h
  obtain ⟨ms, hm, rfl⟩ := h
  exact T.fields.tree_valid message ms hm

end Trees

theorem text_envelope (topic messageType : String) (sequence : ℕ) (j : Json Json.Numeral) :
    Json.text (envelope topic messageType sequence j)
      = "\x7b\"topic\":".toList ++ (Json.quote topic ++ (",\"message_type\":".toList
        ++ (Json.quote messageType ++ (",\"sequence\":".toList ++ ((toString sequence).toList
        ++ (",\"message\":".toList ++ (Json.text j ++ "\x7d".toList))))))) := by
  rw [envelope, Json.text, Json.membersText, Json.membersText, Json.membersText, Json.membersText,
    Json.text, Json.text, Json.text, text_ofInt_natCast,
    show Json.quote "topic" = "\"topic\"".toList by decide,
    show Json.quote "message_type" = "\"message_type\"".toList by decide,
    show Json.quote "sequence" = "\"sequence\"".toList by decide,
    show Json.quote "message" = "\"message\"".toList by decide]
  simp only [List.append_assoc, List.cons_append]
  rfl

theorem envelope_valid (topic messageType : String) (sequence : ℕ) {j : Json Json.Numeral}
    (h : j.Valid) : (envelope topic messageType sequence j).Valid :=
  ⟨trivial, trivial, Json.Numeral.valid_ofInt _, h, trivial⟩

theorem envelope_inj {topic topic' messageType messageType' : String} {sequence sequence' : ℕ}
    {j j' : Json Json.Numeral}
    (h : envelope topic messageType sequence j = envelope topic' messageType' sequence' j') :
    topic = topic' ∧ messageType = messageType' ∧ sequence = sequence' ∧ j = j' := by
  simp only [envelope, Json.object.injEq, List.cons.injEq, Prod.mk.injEq, true_and, and_true,
    Json.string.injEq, Json.number.injEq] at h
  obtain ⟨ht, hm, hs, hj⟩ := h
  refine ⟨ht, hm, ?_, hj⟩
  have hd := congrArg (fun n => Nat.ofDigitChars 10 n.int 0) hs
  simpa [Json.Numeral.ofInt, Nat.ofDigitChars_toDigits] using hd

section Payload

variable [Rclrs] {T : MessageType} {topic messageType : String} {sequence : ℕ} {message : T.Val}
  {limit : ℕ} {text : String}

/-- What is written for an envelope, whatever stands before it. -/
theorem envelope_emits (topic messageType : String) (sequence : ℕ) (message : T.Val) :
    Emits (Output.envelope topic messageType sequence message)
      ((within 64 (T.levels message) (T.tree message)).map
        fun j => Json.text (envelope topic messageType sequence j)) := by
  have hm := message_emits 0 ((T.fields.encode_emits message 0 0).congr
    (t := (within 64 (T.levels message) (T.fields.tree message)).map Json.membersText)
    (fun _ => rfl) (by simp [lead, MessageType.levels]))
  refine ((Emits.push "\x7b\"topic\":").bind ((Emits.string topic).bind
    ((Emits.push ",\"message_type\":").bind ((Emits.string messageType).bind
    ((Emits.push ",\"sequence\":").bind ((Emits.number (toString sequence)).bind
    ((Emits.push ",\"message\":").bind (hm.bind (Emits.push "\x7d"))))))))).congr
    (fun _ => rfl) ?_
  rw [if_pos (by omega), MessageType.tree]
  unfold within
  split_ifs
  · rcases T.fields.tree message with _ | ms
    · rfl
    · exact congrArg some (text_envelope topic messageType sequence _).symm
  · rfl

/-- `payload` gives the text of the envelope, when there is one and it fits. -/
theorem payload_eq_ok_iff : payload topic messageType sequence message limit = .ok text ↔
    ∃ j, T.tree message = some j ∧ T.levels message ≤ 64
      ∧ text = String.ofList (Json.text (envelope topic messageType sequence j))
      ∧ text.utf8ByteSize ≤ limit := by
  have he := envelope_emits topic messageType sequence message
  unfold payload
  unfold within at he
  split_ifs at he with hl
  · rcases hj : T.tree message with _ | j <;> rw [hj] at he
    · obtain ⟨e, h⟩ := he (Output.new limit)
      simp [h, Except.map]
    · rw [he (Output.new limit), Output.push_new]
      constructor
      · intro h
        split_ifs at h with hs
        cases h
        exact ⟨j, rfl, hl, rfl, hs⟩
      · rintro ⟨j', h', -, rfl, hs⟩
        cases h'
        rw [if_pos hs]
  · obtain ⟨e, h⟩ := he (Output.new limit)
    simp [h, Except.map, hl]

/-- A payload parses to the object it stands for. -/
theorem parse_payload (h : payload topic messageType sequence message limit = .ok text) :
    ∃ j, T.tree message = some j
      ∧ Json.parse text = some (envelope topic messageType sequence j) := by
  obtain ⟨j, hj, -, rfl, -⟩ := payload_eq_ok_iff.mp h
  exact ⟨j, hj, Json.parse_text (envelope_valid topic messageType sequence (T.tree_valid hj))⟩

/-- A payload parses to the envelope of its message's tree, and no other topic, type name,
sequence or tree has the same payload. -/
theorem payload_faithful (h : payload topic messageType sequence message limit = .ok text) :
    ∃ j, T.tree message = some j
      ∧ Json.parse text = some (envelope topic messageType sequence j)
      ∧ ∀ (T' : MessageType) (topic' messageType' : String) (sequence' : ℕ) (message' : T'.Val)
          (limit' : ℕ), payload topic' messageType' sequence' message' limit' = .ok text →
        topic' = topic ∧ messageType' = messageType ∧ sequence' = sequence
          ∧ T'.tree message' = some j := by
  obtain ⟨j, hj, hp⟩ := parse_payload h
  refine ⟨j, hj, hp, fun T' topic' messageType' sequence' message' limit' h' => ?_⟩
  obtain ⟨j', hj', hp'⟩ := parse_payload h'
  rw [hp, Option.some.injEq] at hp'
  obtain ⟨rfl, rfl, rfl, rfl⟩ := envelope_inj hp'
  exact ⟨rfl, rfl, rfl, hj'⟩

end Payload

section Witness

open Reference

def stringType : MessageType :=
  ⟨"std_msgs/msg/String", .cons "data" (.simple (.prim .string)) .nil, by
    simp [Fields.Distinct, FieldType.Distinct, ElemType.Distinct, Fields.names]⟩

/-- A payload whose string has a quote and a newline in it. -/
def quotedText : String :=
  "\x7b\"topic\":\"/chat\",\"message_type\":\"std_msgs/msg/String\","
    ++ "\"sequence\":7,\"message\":\x7b\"data\":\"say \\\"hi\\\"\\n\"\x7d\x7d"

theorem payload_faithful_quoted : ∃ j, stringType.tree ("say \"hi\"\n", ()) = some j
    ∧ Json.parse quotedText = some (envelope "/chat" "std_msgs/msg/String" 7 j) := by
  obtain ⟨j, hj, hp, -⟩ := @payload_faithful _ stringType "/chat" "std_msgs/msg/String" 7
    ("say \"hi\"\n", ()) notifyLimit quotedText (by decide +kernel)
  exact ⟨j, hj, hp⟩

end Witness

end PgRos2
