import PgRos2.Proofs.Text

/-!
# How deep a payload nests

The encoder counts the levels of messages and the parser of a flush those of arrays as well, so a
payload the encoder accepts can nest deeper than the parser goes: each level of messages can stand
in an array of its own. A payload is written to its topic exactly when its message nests no deeper
than the parser takes inside an envelope and has no U+0000 in it (`payload_storable_iff`), and no
message of 62 levels or fewer nests too deep (`shallow_reparses`).
-/

namespace PgRos2

open Lib

/-- The greatest of a list of depths. -/
def deepest (depths : List ℕ) : ℕ := depths.foldr max 0

theorem deepest_le {depths : List ℕ} {n : ℕ} (h : ∀ d ∈ depths, d ≤ n) : deepest depths ≤ n := by
  induction depths with
  | nil => exact Nat.zero_le n
  | cons d depths ih =>
    exact max_le (h d List.mem_cons_self) (ih fun e he => h e (List.mem_cons_of_mem _ he))

theorem le_deepest {depths : List ℕ} {d : ℕ} (h : d ∈ depths) : d ≤ deepest depths := by
  induction depths with
  | nil => simp at h
  | cons e depths ih =>
    rcases List.mem_cons.mp h with rfl | h
    · exact le_max_left _ _
    · exact (ih h).trans (le_max_right _ _)

section Messages

variable [Bounds]

mutual

/-- How deep messages, arrays and sequences nest in the fields of a message. -/
def Fields.nesting : (fs : Fields) → fs.Val → ℕ
  | .nil, _ => 0
  | .cons _ type rest, v => max (type.nesting v.1) (rest.nesting v.2)

/-- How deep they nest in a value. -/
def FieldType.nesting : (f : FieldType) → f.Val → ℕ
  | .simple e, v => e.nesting v
  | .array e _, v => deepest (v.1.map fun v => e.nesting v) + 1
  | .sequence e, v => deepest (List.map (fun v => e.nesting v) v) + 1
  | .boundedSequence e _, v => deepest (v.1.map fun v => e.nesting v) + 1

def ElemType.nesting : (e : ElemType) → e.Val → ℕ
  | .prim _, _ => 0
  | .message _ fields, v => fields.nesting v + 1

end

/-- How deep they nest in a whole message, which counts itself. -/
def MessageType.nesting (T : MessageType) (message : T.Val) : ℕ := T.fields.nesting message + 1

/-- A string has no U+0000 in it. -/
def Prim.NulFree : (k : Prim) → k.Carrier → Prop
  | .string, (v : String) => Value.isText v = true
  | .boundedString _, v => Value.isText v.1 = true
  | .wString, (v : String) => Value.isText v = true
  | .boundedWString _, v => Value.isText v.1 = true
  | _, _ => True

mutual

def Fields.NulFree : (fs : Fields) → fs.Val → Prop
  | .nil, _ => True
  | .cons name type rest, v => (Value.isText name = true ∧ type.NulFree v.1) ∧ rest.NulFree v.2

/-- No string of a value and no name of its fields has a U+0000 in it. -/
def FieldType.NulFree : (f : FieldType) → f.Val → Prop
  | .simple e, v => e.NulFree v
  | .array e _, v => ∀ x ∈ v.1, e.NulFree x
  | .sequence e, (v : List e.Val) => ∀ x ∈ v, e.NulFree x
  | .boundedSequence e _, v => ∀ x ∈ v.1, e.NulFree x

def ElemType.NulFree : (e : ElemType) → e.Val → Prop
  | .prim k, v => k.NulFree v
  | .message _ fields, v => fields.NulFree v

end

abbrev MessageType.NulFree (T : MessageType) (message : T.Val) : Prop := T.fields.NulFree message

end Messages

section Payload

variable [Rclrs]

/-! ## Levels -/

theorem nesting_elements {e : ElemType} (h : ∀ x, e.nesting x ≤ 2 * e.levels x) (xs : List e.Val) :
    deepest (xs.map fun x => e.nesting x) + 1
      ≤ 2 * (xs.map fun x => e.levels x).foldr max 0 + 1 := by
  refine Nat.add_le_add_right (deepest_le fun d hd => ?_) 1
  obtain ⟨x, hx, rfl⟩ := List.mem_map.mp hd
  have hl : e.levels x ≤ deepest (xs.map fun x => e.levels x) :=
    le_deepest (List.mem_map.mpr ⟨x, hx, rfl⟩)
  have hn := h x
  unfold deepest at hl
  omega

mutual

theorem Fields.nesting_le : ∀ (fs : Fields) (v : fs.Val), fs.nesting v ≤ 2 * fs.levels v + 1
  | .nil, _ => Nat.zero_le _
  | .cons _ type rest, v => by
    have ht := type.nesting_le v.1
    have hr := rest.nesting_le v.2
    simp only [Fields.nesting, Fields.levels]
    omega

theorem FieldType.nesting_le : ∀ (f : FieldType) (v : f.Val), f.nesting v ≤ 2 * f.levels v + 1
  | .simple e, v => (e.nesting_le v).trans (Nat.le_succ _)
  | .array e _, v => nesting_elements e.nesting_le v.1
  | .sequence e, v => nesting_elements e.nesting_le v
  | .boundedSequence e _, v => nesting_elements e.nesting_le v.1

/-- Each level of messages adds an array at most. -/
theorem ElemType.nesting_le : ∀ (e : ElemType) (v : e.Val), e.nesting v ≤ 2 * e.levels v
  | .prim _, _ => Nat.zero_le _
  | .message _ fields, v => by
    have h := fields.nesting_le v
    simp only [ElemType.nesting, ElemType.levels]
    omega

end

theorem MessageType.nesting_le (T : MessageType) (message : T.Val) :
    T.nesting message ≤ 2 * T.levels message + 2 := by
  have h := T.fields.nesting_le message
  unfold MessageType.nesting MessageType.levels
  omega

/-! ## Trees -/

/-- A tree is as deep as its value nests and has the value's texts. -/
def Measures (nesting : ℕ) (nulFree : Prop) (j : Json Json.Numeral) : Prop :=
  j.depth = nesting ∧ (IsText j ↔ nulFree)

theorem Prim.tree_measures : ∀ (k : Prim) (v : k.Carrier) (j), k.tree v = some j →
    Measures 0 (k.NulFree v) j
  | .float, (v : Float32), j, h => by
    simp only [Prim.tree, Option.some.injEq] at h
    subst h
    split_ifs <;> exact ⟨rfl, Iff.rfl⟩
  | .double, (v : Float), j, h => by
    simp only [Prim.tree, Option.some.injEq] at h
    subst h
    split_ifs <;> exact ⟨rfl, Iff.rfl⟩
  | .longDouble, _, j, h => by simp [Prim.tree] at h
  | .boolean, _, j, h | .string, _, j, h | .boundedString _, _, j, h | .wString, _, j, h
  | .boundedWString _, _, j, h | .char, _, j, h | .wChar, _, j, h | .octet, _, j, h
  | .uint8, _, j, h | .int8, _, j, h | .uint16, _, j, h | .int16, _, j, h | .uint32, _, j, h
  | .int32, _, j, h | .uint64, _, j, h | .int64, _, j, h => by
    simp only [Prim.tree, Option.some.injEq] at h
    subst h
    exact ⟨rfl, Iff.rfl⟩

omit [Rclrs] in
theorem elements_measures {α : Type} {tree : α → Option (Json Json.Numeral)} {nesting : α → ℕ}
    {nulFree : α → Prop} (h : ∀ x j, tree x = some j → Measures (nesting x) (nulFree x) j)
    {xs : List α} {js : List (Json Json.Numeral)}
    (hj : List.Forall₂ (fun x j => tree x = some j) xs js) :
    Json.elementsDepth js = deepest (xs.map nesting)
      ∧ (IsTextElements js ↔ ∀ x ∈ xs, nulFree x) := by
  induction hj with
  | nil => exact ⟨rfl, by simp [IsTextElements]⟩
  | @cons x j xs js hx _ ih =>
    obtain ⟨hd, ht⟩ := h x j hx
    obtain ⟨hds, hts⟩ := ih
    refine ⟨?_, ?_⟩
    · rw [Json.elementsDepth, hd, hds]
      rfl
    · rw [IsTextElements, ht, hts, List.forall_mem_cons]

theorem treeOf_measures {e : ElemType} {tree : e.Val → Option (Json Json.Numeral)}
    {nesting : e.Val → ℕ} {nulFree : e.Val → Prop}
    (h : ∀ x j, tree x = some j → Measures (nesting x) (nulFree x) j) (xs : List e.Val) (j)
    (hj : e.treeOf tree xs = some j) :
    Measures (deepest (xs.map nesting) + 1) (∀ x ∈ xs, nulFree x) j := by
  obtain ⟨-, js, hjs, rfl⟩ := treeOf_eq_some hj
  obtain ⟨hd, ht⟩ := elements_measures h hjs
  exact ⟨congrArg (· + 1) hd, ht⟩

mutual

theorem Fields.tree_measures : ∀ (fs : Fields) (v : fs.Val) (ms), fs.tree v = some ms →
    Json.membersDepth ms = fs.nesting v ∧ (IsTextMembers ms ↔ fs.NulFree v)
  | .nil, _, ms, h => by
    simp only [Fields.tree, Option.some.injEq] at h
    subst h
    exact ⟨rfl, Iff.rfl⟩
  | .cons name type rest, v, ms, h => by
    simp only [Fields.tree, Option.bind_eq_bind, Option.bind_eq_some_iff, Option.pure_def,
      Option.some.injEq] at h
    obtain ⟨x, hx, ms', hm, rfl⟩ := h
    obtain ⟨hd, ht⟩ := type.tree_measures v.1 x hx
    obtain ⟨hds, hts⟩ := rest.tree_measures v.2 ms' hm
    refine ⟨?_, ?_⟩
    · rw [Json.membersDepth, hd, hds, Fields.nesting]
    · rw [IsTextMembers, ht, hts, Fields.NulFree]

theorem FieldType.tree_measures : ∀ (f : FieldType) (v : f.Val) (j), f.tree v = some j →
    Measures (f.nesting v) (f.NulFree v) j
  | .simple e, v, j, h => e.tree_measures v j h
  | .array e _, v, j, h => treeOf_measures (fun x j => e.tree_measures x j) v.1 j h
  | .sequence e, v, j, h => treeOf_measures (fun x j => e.tree_measures x j) v j h
  | .boundedSequence e _, v, j, h => treeOf_measures (fun x j => e.tree_measures x j) v.1 j h

theorem ElemType.tree_measures : ∀ (e : ElemType) (v : e.Val) (j), e.tree v = some j →
    Measures (e.nesting v) (e.NulFree v) j
  | .prim k, v, j, h => k.tree_measures v j h
  | .message _ fields, v, j, h => by
    obtain ⟨ms, hm, rfl⟩ := Option.map_eq_some_iff.mp h
    obtain ⟨hd, ht⟩ := fields.tree_measures v ms hm
    exact ⟨congrArg (· + 1) hd, ht⟩

end

theorem MessageType.tree_measures (T : MessageType) {message : T.Val} {j : Json Json.Numeral}
    (h : T.tree message = some j) : Measures (T.nesting message) (T.NulFree message) j :=
  (ElemType.message T.name T.fields).tree_measures message j h

theorem treeOf_singleton {e : ElemType} (he : e.isLongDouble = false)
    {tree : e.Val → Option (Json Json.Numeral)} {x : e.Val} {j : Json Json.Numeral}
    (h : tree x = some j) : e.treeOf tree [x] = some (.array [j]) := by
  simp [ElemType.treeOf, he, h]

theorem envelope_measures {T : MessageType} {message : T.Val} {j : Json Json.Numeral}
    (h : T.tree message = some j) (topic messageType : String) (sequence : ℕ) :
    (envelope topic messageType sequence j).depth = T.nesting message + 1
      ∧ (IsText (envelope topic messageType sequence j) ↔ Value.isText topic = true
        ∧ Value.isText messageType = true ∧ T.NulFree message) := by
  obtain ⟨hd, ht⟩ := T.tree_measures h
  refine ⟨by simp [envelope, Json.depth, Json.membersDepth, hd], ?_⟩
  simp [envelope, IsText, IsTextMembers, ht, show Value.isText "topic" = true from rfl,
    show Value.isText "message_type" = true from rfl, show Value.isText "sequence" = true from rfl,
    show Value.isText "message" = true from rfl]

/-! ## Storing -/

/-- A payload reads back as a value `jsonb` takes, and a flush that finds it pending, and no message
of another topic that `jsonb` refuses, writes it to its topic and tells of no error but the
encoder's. -/
def Storable (topic : String) (sequence : ℕ) (text : String) : Prop :=
  ∃ value message, Value.fromStrLimited text = some value ∧ value.jsonb = some message
    ∧ ∀ (topics : LiveMap) (live : Live) (now : Time) (ext : Extension),
      topics.lookup topic = some live → live.mailbox.pending = some (sequence, text) →
      (∀ other live' m, other ≠ topic → topics.lookup other = some live' →
        live'.message = some m → m.2.jsonb.isSome = true) →
      live.errors = live.mailbox.error.toList
        ∧ ∃ ext', flush topics now (some ext) = some (some ext')
          ∧ ext'.messages.lookup topic = some ⟨sequence, now, message⟩

theorem storable_of_reads {topic text : String} {sequence : ℕ} {value message : Value}
    (hv : Value.fromStrLimited text = some value) (hm : value.jsonb = some message) :
    Storable topic sequence text := by
  refine ⟨value, message, hv, hm, fun topics live now ext hl hp hothers => ?_⟩
  have hlive : live.message = some (sequence, value) := by simp [Live.message, hp, hv]
  refine ⟨by simp [Live.errors, hp, hv], ?_⟩
  have hsome : flush topics now (some ext) ≠ none := by
    intro hnone
    obtain ⟨other, live', m, hl', hm', hj⟩ := (flush_eq_none_iff topics now ext).mp hnone
    by_cases ho : other = topic
    · subst ho
      rw [hl, Option.some.injEq] at hl'
      subst hl'
      rw [hlive, Option.some.injEq] at hm'
      subst hm'
      rw [hm] at hj
      cases hj
    · have := hothers other live' m ho hl' hm'
      rw [hj] at this
      cases this
  obtain ⟨r, hr⟩ := Option.ne_none_iff_exists'.mp hsome
  obtain ⟨ext', rfl, -, htopic⟩ := flush_topic hr
  refine ⟨ext', hr, ?_⟩
  rw [(htopic topic).1, hl, Option.bind_some, hlive]
  simp [hm]

theorem payload_reparses {T : MessageType} {message : T.Val} {j : Json Json.Numeral}
    (hj : T.tree message = some j) (hr : T.ReadsBack message) (topic messageType : String)
    (sequence : UInt64) : Reparses (envelope topic messageType sequence.toNat j)
      ↔ T.nesting message ≤ 126 := by
  obtain ⟨w, hw, -⟩ := (ElemType.message T.name T.fields).overlay_tree T.distinct message hr j hj
  obtain ⟨object, ho, -⟩ := envelope_reads hw topic messageType sequence
  unfold Reparses Value.recursionLimit
  rw [ho, (envelope_measures hj topic messageType sequence.toNat).1]
  exact ⟨fun h => Nat.le_of_succ_le_succ h.1, fun h => ⟨Nat.succ_le_succ h, rfl⟩⟩

/-- Two levels below those the encoder takes, whatever stands in arrays is read back. -/
theorem shallow_reparses {T : MessageType} {message : T.Val} {j : Json Json.Numeral}
    (hj : T.tree message = some j) (hr : T.ReadsBack message) (hl : T.levels message ≤ 62)
    (topic messageType : String) (sequence : UInt64) :
    Reparses (envelope topic messageType sequence.toNat j) := by
  have hn := T.nesting_le message
  exact (payload_reparses hj hr topic messageType sequence).mpr (by omega)

/-- What the encoder accepts nests at most 127 deep and is stored exactly when its message nests at
most 126 deep and neither the message nor the names beside it have a U+0000. -/
theorem payload_storable_iff {T : MessageType} {topic messageType text : String}
    {sequence : UInt64} {message : T.Val} {limit : ℕ}
    (h : payload topic messageType sequence.toNat message limit = .ok text)
    (hr : T.ReadsBack message) :
    ((∃ e, Json.parse text = some e ∧ e.depth ≤ 127) ∧ Storable topic sequence.toNat text)
      ↔ T.nesting message ≤ 126
        ∧ Value.isText topic = true ∧ Value.isText messageType = true ∧ T.NulFree message := by
  obtain ⟨j, hj, hp⟩ := parse_payload h
  have hre := payload_reparses hj hr topic messageType sequence
  have htext := (envelope_measures hj topic messageType sequence.toNat).2
  rw [← hre, ← htext]
  constructor
  · rintro ⟨-, value, stored, hv, hm, -⟩
    obtain ⟨-, hno⟩ | ⟨hrep, v, hv', hiff⟩ := payload_fromStrLimited h hj
    · rw [hno] at hv
      cases hv
    · rw [hv', Option.some.injEq] at hv
      subst hv
      exact ⟨hrep, hiff.mp (by rw [hm]; rfl)⟩
  · rintro ⟨hrep, hnul⟩
    obtain ⟨hno, -⟩ | ⟨-, v, hv, hiff⟩ := payload_fromStrLimited h hj
    · exact absurd hrep hno
    · obtain ⟨stored, hm⟩ := Option.isSome_iff_exists.mp (hiff.mpr hnul)
      exact ⟨⟨_, hp, hrep.1⟩, storable_of_reads hv hm⟩

end Payload

section Witness

open Reference

theorem reading_storable : Storable "/t" 3 readingText := by
  refine ((@payload_storable_iff _ readingType "/t" "test/msg/Reading" readingText 3 reading
    notifyLimit (by decide +kernel) reading_readsBack).mpr ⟨by decide +kernel, ?_⟩).2
  exact ⟨rfl, rfl, ⟨rfl, trivial⟩, ⟨rfl, fun _ _ => trivial⟩, ⟨rfl, fun _ _ => trivial⟩, trivial⟩

/-- A message in a sequence in a message, and so on. -/
def nestedFields : ℕ → Fields
  | 0 => .nil
  | n + 1 => .cons "m" (.sequence (.message "test/msg/Nested" (nestedFields n))) .nil

theorem nestedFields_distinct : ∀ n, (nestedFields n).Distinct
  | 0 => trivial
  | n + 1 => ⟨List.not_mem_nil, nestedFields_distinct n, trivial⟩

def nestedType (n : ℕ) : MessageType := ⟨"test/msg/Nested", nestedFields n, nestedFields_distinct n⟩

/-- Each sequence with one message in it. -/
def nested : (n : ℕ) → (nestedFields n).Val
  | 0 => ()
  | n + 1 => ([nested n], ())

/-- Its tree. -/
def nestedTree : ℕ → Json Json.Numeral
  | 0 => .object []
  | n + 1 => .object [("m", .array [nestedTree n])]

theorem nested_tree : ∀ n, (nestedType n).tree (nested n) = some (nestedTree n)
  | 0 => rfl
  | n + 1 => by
    have hs : FieldType.tree (.sequence (.message "test/msg/Nested" (nestedFields n))) [nested n]
        = some (.array [nestedTree n]) :=
      treeOf_singleton (e := .message "test/msg/Nested" (nestedFields n)) rfl (nested_tree n)
    show Option.map Json.object (do
      let x ← FieldType.tree (.sequence (.message "test/msg/Nested" (nestedFields n))) [nested n]
      let ms ← some []
      return ("m", x) :: ms) = _
    rw [hs]
    rfl

theorem nested_levels : ∀ n, (nestedFields n).levels (nested n) = n
  | 0 => rfl
  | n + 1 => by
    have ih := nested_levels n
    show max (max ((nestedFields n).levels (nested n) + 1) 0) 0 = _
    omega

theorem nested_nesting : ∀ n, (nestedFields n).nesting (nested n) = 2 * n
  | 0 => rfl
  | n + 1 => by
    have ih := nested_nesting n
    show max (max ((nestedFields n).nesting (nested n) + 1) 0 + 1) 0 = _
    omega

theorem nested_readsBack : ∀ n, (nestedFields n).ReadsBack (nested n)
  | 0 => trivial
  | n + 1 => ⟨List.forall_mem_singleton.mpr (nested_readsBack n), trivial⟩

theorem nestedTree_size : ∀ n, ((Json.text (nestedTree n)).map Char.utf8Size).sum = 8 * n + 2
  | 0 => rfl
  | n + 1 => by
    have ih := nestedTree_size n
    have hq : ((Json.quote "m").map Char.utf8Size).sum = 3 := by decide
    have hb : '\x7b'.utf8Size = 1 ∧ '\x7d'.utf8Size = 1 ∧ ':'.utf8Size = 1 ∧ '['.utf8Size = 1
      ∧ ']'.utf8Size = 1 := by decide
    simp only [nestedTree, Json.text, Json.membersText, Json.elementsText, List.map_cons,
      List.map_append, List.sum_cons, List.sum_append, List.map_nil, List.sum_nil, hq, hb, ih]
    omega

theorem nested_payload : ∃ text, payload (T := nestedType 63) "/t" "test/msg/Nested" 1 (nested 63)
    notifyLimit = .ok text := by
  refine ⟨_, payload_eq_ok_iff.mpr
    ⟨_, nested_tree 63, (nested_levels 63).le.trans (by omega), rfl, ?_⟩⟩
  rw [utf8ByteSize_ofList, text_envelope]
  simp only [List.map_append, List.sum_append, nestedTree_size]
  decide +kernel

/-- The encoder takes a message of 63 levels, each in a sequence, for a notification even, and the
parser does not take its payload. -/
theorem nested_refused : ∃ text, payload (T := nestedType 63) "/t" "test/msg/Nested" 1 (nested 63)
      notifyLimit = .ok text
    ∧ (∃ e, Json.parse text = some e ∧ e.depth = 128)
    ∧ (nestedType 63).ReadsBack (nested 63)
    ∧ Value.fromStrLimited text = none ∧ ¬ Storable "/t" 1 text := by
  obtain ⟨text, h⟩ := nested_payload
  obtain ⟨j, hj, hp⟩ := parse_payload h
  have hd : (envelope "/t" "test/msg/Nested" 1 j).depth = 128 := by
    rw [(envelope_measures hj "/t" "test/msg/Nested" 1).1]
    show (nestedFields 63).nesting (nested 63) + 1 + 1 = 128
    rw [nested_nesting]
  have hnone : Value.fromStrLimited text = none := by
    unfold Value.fromStrLimited
    rw [hp, Option.bind_some, if_neg]
    unfold Value.recursionLimit
    omega
  refine ⟨text, h, ⟨_, hp, hd⟩, nested_readsBack 63, hnone, ?_⟩
  rintro ⟨value, -, hv, -⟩
  rw [hnone] at hv
  cases hv

end Witness

end PgRos2
