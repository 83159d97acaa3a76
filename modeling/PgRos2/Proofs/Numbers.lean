import PgRos2.Numbers
import PgRos2.Proofs.Decode

/-!
# Numbers of a message

What decoding writes to a position is what the field's kind reads there (`ElemType.overlay_leafAt`).
Integers are checked against the width, doubles hold every JSON number, and a number becomes an
infinite 32-bit float from the midpoint behind the largest one on (`numbers_kept_iff`).
-/

namespace PgRos2

open Lib Float.Model

/-! ## Numbers as floats -/

theorem asF64_posInt (n : UInt64) : (Number.posInt n).asF64.toModel.unpack
    = UnpackedFloat.unpack .binary64 (UnpackedFloat.pack .binary64
      (UnpackedFloat.normalize .binary64 n.toNat 0 .positive)) := by
  unfold Number.asF64 UInt64.toFloat Float.Model.ofUInt64 UnpackedFloat.ofUInt64
    UnpackedFloat.ofNat UnpackedFloat.ofInt Float.Model.unpack Float.Model.pack
  rfl

theorem asF64_negInt (i : Int64) : (Number.negInt i).asF64.toModel.unpack
    = UnpackedFloat.unpack .binary64 (UnpackedFloat.pack .binary64
      (UnpackedFloat.normalize .binary64 i.toInt 0 .positive)) := by
  unfold Number.asF64 Float.Model.ofInt64 UnpackedFloat.ofInt64 UnpackedFloat.ofInt
    Float.Model.unpack Float.Model.pack
  rfl

theorem asF32_unpack (x : Float) (s : UnpackedFloat.Sign) {m : ℕ} {e : ℤ} (hm : 0 < m)
    (hx : x.toModel.unpack = .finite s m e hm) : (asF32 x).toModel.unpack
    = UnpackedFloat.unpack .binary32 (UnpackedFloat.pack .binary32
      (UnpackedFloat.round .binary32 s m e)) := by
  unfold asF32
  rw [hx]
  rfl

/-- A 64-bit integer is a finite double, and not beyond the next power of two. -/
theorem normalize_of_int {i : ℤ} (hi : |i| < 2 ^ 65) :
    (UnpackedFloat.unpack .binary64 (UnpackedFloat.pack .binary64
      (UnpackedFloat.normalize .binary64 i 0 .positive))).isFinite = true
    ∧ |Lib.value (UnpackedFloat.unpack .binary64 (UnpackedFloat.pack .binary64
      (UnpackedFloat.normalize .binary64 i 0 .positive)))| < 2 ^ (66 : ℤ) := by
  have hlt : |(i : ℚ)| < 2 ^ 65 := by exact_mod_cast hi
  refine ⟨(isFinite_normalize_iff (by decide) i 0 _).2 ?_, abs_value_normalize_lt _ hi (by decide)⟩
  rw [zpow_zero, mul_one]
  refine hlt.trans (lt_of_le_of_lt ?_ overflow_bounds.1)
  rw [← zpow_natCast]
  exact zpow_le_zpow_right₀ (by norm_num) (by decide)

theorem Number.asF64_of_finite {n : Number} (hn : n.Finite) : n.asF64.isFinite = true
    ∧ (Lib.value n.asF64.toModel.unpack = n.value
      ∨ |n.value| < 2 ^ 65 ∧ |Lib.value n.asF64.toModel.unpack| < 2 ^ (66 : ℤ)) := by
  rcases n with n | i | x
  · have hlt := n.toNat_lt
    have hi : |(n.toNat : ℤ)| < 2 ^ 65 := by
      rw [abs_of_nonneg (by omega)]
      omega
    have hlt : |(Number.posInt n).value| < 2 ^ 65 := by
      simp only [Number.value, Nat.abs_cast]
      exact_mod_cast (by omega : n.toNat < 2 ^ 65)
    obtain ⟨hfinite, hvalue⟩ := normalize_of_int hi
    rw [← asF64_posInt] at hfinite hvalue
    exact ⟨hfinite, .inr ⟨hlt, hvalue⟩⟩
  · have hlow := i.le_toInt
    have hhigh := i.toInt_lt
    have hi : |i.toInt| < 2 ^ 65 := by
      rw [abs_lt]
      omega
    have hlt : |(Number.negInt i).value| < 2 ^ 65 := by
      simp only [Number.value]
      exact_mod_cast hi
    obtain ⟨hfinite, hvalue⟩ := normalize_of_int hi
    rw [← asF64_negInt] at hfinite hvalue
    exact ⟨hfinite, .inr ⟨hlt, hvalue⟩⟩
  · exact ⟨hn, .inl rfl⟩

theorem two_pow_lt_overflow : (2 : ℚ) ^ (66 : ℤ) < overflow .binary32 :=
  lt_of_le_of_lt (zpow_le_zpow_right₀ (by norm_num) (by decide)) overflow_bounds.1

/-- A double is a finite 32-bit float up to the midpoint. -/
theorem asF32_isFinite_iff {x : Float} (hx : x.isFinite = true) :
    (asF32 x).isFinite = true ↔ |Lib.value x.toModel.unpack| < overflow .binary32 := by
  have hpos : (0 : ℚ) < overflow .binary32 := lt_trans (by positivity) two_pow_lt_overflow
  rcases h : x.toModel.unpack with s | _ | s | ⟨s, m, e, hm⟩
  · change x.toModel.unpack.isFinite = true at hx
    rw [h] at hx
    cases hx
  · change x.toModel.unpack.isFinite = true at hx
    rw [h] at hx
    cases hx
  · refine iff_of_true ?_ (by simpa [Lib.value] using hpos)
    have hzero := isFinite_pack_zero .binary32 s
    unfold asF32
    rw [h]
    exact hzero
  · rw [abs_value_finite, ← isFinite_round_iff (by decide) s e hm, ← asF32_unpack x s hm h]
    rfl

/-- So is a JSON number, also one that is an integer and rounds twice. -/
theorem Number.asF32_isFinite_iff {n : Number} (hn : n.Finite) :
    (asF32 n.asF64).isFinite = true ↔ |n.value| < overflow .binary32 := by
  obtain ⟨hfinite, hvalue⟩ := n.asF64_of_finite hn
  rw [PgRos2.asF32_isFinite_iff hfinite]
  rcases hvalue with heq | ⟨hlt, hlt'⟩
  · rw [heq]
  · refine iff_of_true (hlt'.trans two_pow_lt_overflow) (lt_trans hlt (lt_trans ?_
      two_pow_lt_overflow))
    norm_num

/-- Every JSON number is in the range of a double. -/
theorem Number.abs_value_le (n : Number) : |n.value| ≤ largest .binary64 := by
  have hint : ∀ i : ℤ, |i| < 2 ^ 65 → |(i : ℚ)| ≤ largest .binary64 := by
    intro i hi
    have hlt : |(i : ℚ)| < 2 ^ 65 := by exact_mod_cast hi
    refine hlt.le.trans (le_trans ?_ (two_pow_le_largest .binary64))
    rw [← zpow_natCast]
    exact zpow_le_zpow_right₀ (by norm_num) (by decide)
  rcases n with n | i | x
  · have hlt := n.toNat_lt
    exact hint n.toNat (by rw [abs_of_nonneg (by omega)]; omega)
  · have hlow := i.le_toInt
    have hhigh := i.toInt_lt
    exact hint i.toInt (by rw [abs_lt]; omega)
  · exact abs_value_unpack_le (by decide) _

/-! ## What a field reads -/

/-- The integers of a width are kept, and no number out of range is among them. -/
theorem readInt_keeps {T : Type} [FixedInt T] {item : Value} (hc : InRange T item) :
    (∃ v, readInt T item = some v ∧ KeepsInteger T item v)
      ∧ ∀ n, item = .number n → ¬ (n.value < (intRange T).1 ∨ (intRange T).2 < n.value) := by
  obtain ⟨i, hi, hlo, hhi⟩ := hc
  constructor
  · refine ⟨FixedInt.ofInt i, by simp [readInt, hi], ?_⟩
    intro j hj
    rw [hi] at hj
    cases hj
    exact FixedInt.toInt_ofInt i hlo hhi
  · rintro n rfl
    have hvalue : n.value = i := by
      rcases n with n | j | x <;> simp [Value.integer] at hi
      · subst hi
        simp [Number.value]
      · subst hi
        simp [Number.value]
    rw [hvalue]
    simp only [intRange, Int.cast_lt]
    omega

/-- A 32-bit float excludes the numbers behind the largest one. -/
theorem Prim.float_excludes {item : Value} : Prim.float.Excludes item
    ↔ ∃ n, item = .number n ∧ n.Finite ∧ largest .binary32 < |n.value| := by
  constructor
  · rintro ⟨n, range, hi, hn, hr, hout⟩
    cases hr
    exact ⟨n, hi, hn, lt_abs.2 (hout.symm.imp id fun h => by simp only [floatRange] at h; linarith)⟩
  · rintro ⟨n, hi, hn, hlt⟩
    refine ⟨n, _, hi, hn, rfl, (lt_abs.1 hlt).symm.imp (fun h => ?_) id⟩
    simp only [floatRange]
    linarith

section Read

variable [Bounds]

/-- A conforming value is read and kept by every kind but the 32-bit float. -/
theorem Prim.read_keeps {item : Value} : ∀ {k : Prim}, k.Conforms item → k ≠ .float →
    ∃ v, k.read item = some v ∧ k.Keeps item v
  | .float, _, hk => absurd rfl hk
  | .double, hc, _ => by
    rcases hc with rfl | ⟨n, rfl⟩
    · exact ⟨_, rfl, fun n h => by cases h⟩
    · refine ⟨_, rfl, fun n' h hn => ?_⟩
      cases h
      exact (n.asF64_of_finite hn).1
  | .char, hc, _ | .wChar, hc, _ | .octet, hc, _ | .uint8, hc, _ | .int8, hc, _ | .uint16, hc, _
  | .int16, hc, _ | .uint32, hc, _ | .int32, hc, _ | .uint64, hc, _ | .int64, hc, _ =>
    (readInt_keeps hc).1
  | .boolean, hc, _ => by
    obtain ⟨b, rfl⟩ := hc
    exact ⟨b, rfl, trivial⟩
  | .string, hc, _ | .wString, hc, _ => by
    obtain ⟨s, rfl⟩ := hc
    exact ⟨s, rfl, trivial⟩
  | .boundedString _, hc, _ | .boundedWString _, hc, _ => by
    obtain ⟨s, rfl, hle⟩ := hc
    exact ⟨⟨s, hle⟩, dif_pos hle, trivial⟩

/-- It is in the range of the kind. -/
theorem Prim.not_excludes {item : Value} : ∀ {k : Prim}, k.Conforms item → k ≠ .float →
    ¬ k.Excludes item
  | .float, _, hk => absurd rfl hk
  | .double, _, _ => by
    rintro ⟨n, range, -, -, hr, hout⟩
    cases hr
    have := abs_le.1 n.abs_value_le
    simp only [floatRange] at hout
    rcases hout with h | h <;> linarith
  | .char, hc, _ | .wChar, hc, _ | .octet, hc, _ | .uint8, hc, _ | .int8, hc, _ | .uint16, hc, _
  | .int16, hc, _ | .uint32, hc, _ | .int32, hc, _ | .uint64, hc, _ | .int64, hc, _ => by
    rintro ⟨n, range, hi, -, hr, hout⟩
    cases hr
    exact (readInt_keeps hc).2 n hi hout
  | .longDouble, hc, _ => hc.elim
  | .boolean, _, _ | .string, _, _ | .wString, _, _ | .boundedString _, _, _
  | .boundedWString _, _, _ => by
    rintro ⟨n, range, -, -, hr, -⟩
    cases hr

/-- A 32-bit float keeps the numbers up to the midpoint. -/
theorem Prim.float_keeps {item : Value} (hc : Prim.float.Conforms item) :
    ∃ v, Prim.float.read item = some v ∧ (Prim.float.Keeps item v
      ↔ ∀ n, item = .number n → n.Finite → |n.value| < overflow .binary32) := by
  rcases hc with rfl | ⟨n, rfl⟩
  · exact ⟨_, rfl, iff_of_true (fun n h => by cases h) fun n h => by cases h⟩
  · refine ⟨_, rfl, forall_congr' fun n' => forall_congr' fun h => forall_congr' fun hn => ?_⟩
    cases h
    exact n.asF32_isFinite_iff hn

end Read

/-! ## Positions -/

theorem follow_field {value item : Value} {name : String} {path : List PathStep}
    (h : value.follow (.field name :: path) = some item) :
    ∃ object inner, value = .object object ∧ object.lookup name = some inner
      ∧ Value.follow inner path = some item := by
  unfold Value.follow at h
  obtain ⟨inner, hget, hinner⟩ := Option.bind_eq_some_iff.1 h
  unfold Value.get at hget
  obtain ⟨object, ho, hl⟩ := Option.bind_eq_some_iff.1 hget
  cases value <;> cases ho
  exact ⟨_, inner, rfl, hl, hinner⟩

theorem follow_index {items : List Value} {item : Value} {i : ℕ} {path : List PathStep}
    (h : Value.follow (.array items) (.index i :: path) = some item) :
    ∃ inner, items[i]? = some inner ∧ Value.follow inner path = some item :=
  Option.bind_eq_some_iff.1 h

section Overlay

variable [Rclrs]

/-- A value conforms to the kind it is written to, and what it is read as is what lies there. -/
def ReadAt (k : Prim) (item : Value) (leaf : Option ((k : Prim) × k.Carrier)) : Prop :=
  k.Conforms item ∧ ∀ v, k.read item = some v → leaf = some ⟨k, v⟩

mutual

theorem Fields.overlay_leafAt {k : Prim} {item : Value} : ∀ (fs : Fields) (old : fs.Val)
    {object : List (String × Value)}, fs.Conforms object → ∀ {name path inner},
    object.lookup name = some inner → fs.kindAt name path = some k →
    Value.follow inner path = some item →
      ReadAt k item (fs.leafAt (fs.overlay old object) name path)
  | .nil, _, _, _, _, _, _, _, hk, _ => by cases hk
  | .cons name type rest, old, object, hc, field, path, inner, hl, hk, hf => by
    unfold Fields.kindAt at hk
    simp only [Fields.overlay, Fields.leafAt]
    split_ifs at hk ⊢ with heq
    · subst heq
      simp only [hl]
      exact type.overlay_leafAt old.1 (hc.1 inner hl) path hk hf
    · exact rest.overlay_leafAt old.2 hc.2 hl hk hf

theorem FieldType.overlay_leafAt {k : Prim} {item : Value} : ∀ (f : FieldType) (old : f.Val)
    {value : Value}, f.Conforms value → ∀ path, f.kindAt path = some k →
    value.follow path = some item → ReadAt k item (f.leafAt (f.overlay old value) path)
  | .simple e, old, value, hc, path, hk, hf => e.overlay_leafAt old hc path hk hf
  | .array e n, old, value, hc, .index i :: path, hk, hf => by
    obtain ⟨items, rfl, -, hn, hc⟩ := hc
    obtain ⟨inner, hi, hf⟩ := follow_index hf
    have hlt : i < old.1.length := by
      rw [old.2, ← hn]
      exact (List.getElem?_eq_some_iff.1 hi).1
    have := e.overlay_leafAt old.1[i] (hc inner (List.mem_of_getElem? hi)) path hk hf
    unfold FieldType.overlay FieldType.leafAt leafOf overlaySlice
    simpa [Value.asArray, hn, List.getElem?_zipWith, hlt, hi] using this
  | .sequence e, old, value, hc, .index i :: path, hk, hf => by
    obtain ⟨items, rfl, -, hc⟩ := hc
    obtain ⟨inner, hi, hf⟩ := follow_index hf
    have := e.overlay_leafAt (Rclrs.elemDefault e) (hc inner (List.mem_of_getElem? hi)) path hk hf
    unfold FieldType.overlay FieldType.leafAt leafOf
    simpa [Value.asArray, hi] using this
  | .boundedSequence e bound, old, value, hc, .index i :: path, hk, hf => by
    obtain ⟨items, rfl, -, hn, hc⟩ := hc
    obtain ⟨inner, hi, hf⟩ := follow_index hf
    have := e.overlay_leafAt (Rclrs.elemDefault e) (hc inner (List.mem_of_getElem? hi)) path hk hf
    unfold FieldType.overlay FieldType.leafAt leafOf overlayBounded
    simpa [Value.asArray, hn, hi] using this

theorem ElemType.overlay_leafAt {k : Prim} {item : Value} : ∀ (e : ElemType) (old : e.Val)
    {value : Value}, e.Conforms value → ∀ path, e.kindAt path = some k →
    value.follow path = some item → ReadAt k item (e.leafAt (e.overlay old value) path)
  | .prim k', old, value, hc, [], hk, hf => by
    cases hk
    cases hf
    refine ⟨hc, fun v hv => ?_⟩
    simp only [ElemType.overlay, ElemType.leafAt, hv]
    rfl
  | .message name fields, old, value, hc, .field field :: path, hk, hf => by
    obtain ⟨object, rfl, -, hc⟩ := hc
    obtain ⟨object, inner, ho, hl, hf⟩ := follow_field hf
    cases ho
    exact fields.overlay_leafAt old hc hl hk hf

end

/-- What is written to a position of a message that decoding accepts. -/
theorem decode_leafAt {T : MessageType} {message message' : T.Val} {value : Value}
    (hv : value.Distinct) (h : decode message value = .ok message') {path : List PathStep}
    {k : Prim} {item : Value} (hk : T.kindAt path = some k) (hf : value.follow path = some item) :
    ReadAt k item (T.leafAt message' path) := by
  obtain ⟨hc, rfl⟩ := ((decode_eq_ok_iff T message hv).1 message').1 h
  exact ElemType.overlay_leafAt (.message T.name T.fields) message hc path hk hf

/-- A number out of range that decoding accepts is a 32-bit float. -/
theorem rejected_iff {T : MessageType} (message : T.Val) {value : Value} (hv : value.Distinct) :
    Rejected T message value
      ↔ (T.Conforms value → FloatsWithin T value (· ≤ largest .binary32)) := by
  constructor
  · intro hrej hc path n hk hf hn
    by_contra hlt
    obtain ⟨failure, herr⟩ := hrej path .float (.number n) hk hf
      (Prim.float_excludes.2 ⟨n, rfl, hn, not_le.1 hlt⟩)
    have hok := ((decode_eq_ok_iff T message hv).1 _).2 ⟨hc, rfl⟩
    rw [herr] at hok
    cases hok
  · intro hwithin path k item hk hf hex
    cases hd : decode message value with
    | error failure => exact ⟨failure, rfl⟩
    | ok message' =>
      obtain ⟨hconf, -⟩ := decode_leafAt hv hd hk hf
      by_cases hfloat : k = .float
      · subst hfloat
        obtain ⟨n, rfl, hn, hlt⟩ := Prim.float_excludes.1 hex
        have hc := (((decode_eq_ok_iff T message hv).1 message').1 hd).1
        exact absurd (hwithin hc path n hk hf hn) (not_le.2 hlt)
      · exact absurd hex (Prim.not_excludes hconf hfloat)

/-- What is not kept is a 32-bit float as well. -/
theorem stored_iff {T : MessageType} (message : T.Val) {value : Value} (hv : value.Distinct) :
    Stored T message value
      ↔ (T.Conforms value → FloatsWithin T value (· < overflow .binary32)) := by
  constructor
  · intro hst hc path n hk hf hn
    have hok := ((decode_eq_ok_iff T message hv).1 _).2 ⟨hc, rfl⟩
    obtain ⟨hconf, hread⟩ := decode_leafAt hv hok hk hf
    obtain ⟨v, hv', hkeeps⟩ := Prim.float_keeps hconf
    obtain ⟨v', hleaf, hkept⟩ := hst _ hok path .float (.number n) hk hf
    rw [hread v hv', Option.some.injEq, Sigma.mk.injEq] at hleaf
    obtain rfl := eq_of_heq hleaf.2
    exact hkeeps.1 hkept n rfl hn
  · intro hwithin message' hd path k item hk hf
    obtain ⟨hconf, hread⟩ := decode_leafAt hv hd hk hf
    by_cases hfloat : k = .float
    · subst hfloat
      obtain ⟨v, hv', hkeeps⟩ := Prim.float_keeps hconf
      have hc := (((decode_eq_ok_iff T message hv).1 message').1 hd).1
      refine ⟨v, hread v hv', hkeeps.2 ?_⟩
      rintro n rfl hn
      exact hwithin hc path n hk hf hn
    · obtain ⟨v, hv', hkept⟩ := Prim.read_keeps hconf hfloat
      exact ⟨v, hread v hv', hkept⟩

/-- Decoding keeps every number and rejects those out of range just when it is not given a finite
number behind the largest 32-bit float for such a field; the numbers it takes are all kept just when
none of them is as large as the midpoint behind that float. -/
theorem numbers_kept_iff (T : MessageType) (message : T.Val) (value : Value)
    (hv : value.Distinct) :
    (Stored T message value ∧ Rejected T message value
        ↔ (T.Conforms value → FloatsWithin T value (· ≤ largest .binary32)))
      ∧ (Stored T message value
        ↔ (T.Conforms value → FloatsWithin T value (· < overflow .binary32))) := by
  refine ⟨?_, stored_iff message hv⟩
  rw [stored_iff message hv, rejected_iff message hv, and_iff_right_iff_imp]
  intro hwithin hc path n hk hf hn
  exact (hwithin hc path n hk hf hn).trans_lt (largest_lt_overflow .binary32)

end Overlay

section Witness

open Reference

/-- A message of two 32-bit floats. -/
def rangeType : MessageType :=
  ⟨"test/msg/Range",
    .cons "min" (.simple (.prim .float)) (.cons "max" (.simple (.prim .float)) .nil), by
    simp [Fields.Distinct, FieldType.Distinct, ElemType.Distinct, Fields.names]⟩

/-- A range that is given its upper end only. -/
def upTo (x : Float) : Value := .object [("max", .number (.float x))]

theorem upTo_distinct (x : Float) : (upTo x).Distinct := by
  simp [upTo, Value.Distinct, Value.DistinctMembers]

theorem upTo_conforms (x : Float) : rangeType.Conforms (upTo x) := by
  refine ⟨_, rfl, by simp [Fields.names, rangeType], ?_⟩
  simp [rangeType, Fields.Conforms, FieldType.Conforms, ElemType.Conforms, Prim.Conforms,
    List.lookup_cons]

theorem upTo_decodes (x : Float) : decode rangeType.default (upTo x)
    = .ok (rangeType.overlay rangeType.default (upTo x)) :=
  ((decode_eq_ok_iff rangeType rangeType.default (upTo_distinct x)).1 _).2 ⟨upTo_conforms x, rfl⟩

theorem upTo_leafAt (x : Float) : rangeType.leafAt
    (rangeType.overlay rangeType.default (upTo x)) [.field "max"] = some ⟨.float, asF32 x⟩ := rfl

/-- `1e39` is a finite number, and decoding takes it and stores an infinity. -/
theorem decode_beyond_float : (1e39 : Float).isFinite = true
    ∧ (∃ message', decode rangeType.default (upTo 1e39) = .ok message'
      ∧ ∃ v : Float32, rangeType.leafAt message' [.field "max"] = some ⟨.float, v⟩
        ∧ v.isFinite = false)
    ∧ ¬ (Stored rangeType rangeType.default (upTo 1e39)
      ∧ Rejected rangeType rangeType.default (upTo 1e39)) := by
  have hfinite : (1e39 : Float).isFinite = true := by decide +kernel
  have hinfinite : (asF32 1e39).isFinite = false := by decide +kernel
  refine ⟨hfinite, ⟨_, upTo_decodes 1e39, _, upTo_leafAt 1e39, hinfinite⟩, ?_⟩
  rintro ⟨hst, -⟩
  obtain ⟨v, hleaf, hkept⟩ := hst _ (upTo_decodes 1e39) [.field "max"] .float _ rfl rfl
  obtain rfl := eq_of_heq
    (Sigma.mk.inj (Option.some.inj ((upTo_leafAt 1e39).symm.trans hleaf))).2
  have hkept := hkept _ rfl hfinite
  rw [hinfinite] at hkept
  cases hkept

/-- A half is kept, and nothing is out of range. -/
theorem decode_half : Stored rangeType rangeType.default (upTo 0.5)
    ∧ Rejected rangeType rangeType.default (upTo 0.5) := by
  refine (numbers_kept_iff rangeType rangeType.default (upTo 0.5) (upTo_distinct 0.5)).1.2 ?_
  intro _ path n _ hf _
  match path, hf with
  | [], hf => cases hf
  | .index i :: path, hf => cases hf
  | .field name :: path, hf =>
    obtain ⟨object, inner, ho, hl, hf⟩ := follow_field hf
    cases ho
    obtain rfl : Json.number (.float 0.5) = inner := by
      rw [List.lookup_cons] at hl
      split at hl
      · exact Option.some.inj hl
      · cases hl
    match path, hf with
    | [], hf =>
      cases hf
      have hle : |Lib.value (0.5 : Float).toModel.unpack| ≤ largest .binary32 := by decide +kernel
      exact hle
    | .field _ :: _, hf => cases hf
    | .index _ :: _, hf => cases hf

end Witness

end PgRos2
