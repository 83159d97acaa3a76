import PgRos2.Proofs.Decode
import PgRos2.Proofs.Serde
import Mathlib.Data.List.Perm.Basic

/-!
# What the store gives back

A value that was stored as `jsonb` comes back as the same tree, with the members of an object in any
order, and in which a number may be written another way: a double keeps its value but for the sign
of a zero, an integer is the same integer (`Value.Preserved`). Decoding takes what came back where
it took what was stored, and makes the same message of it but for the sign of zeros
(`decode_preserved`).
-/

namespace PgRos2

open Lib

/-- A double without the sign of a zero. -/
def unsigned (x : Float) : Float :=
  if isZero x then Float.ofModel (.pack (.zero .positive)) else x

/-- Either zero of a single. -/
def isZero32 (x : Float32) : Bool :=
  match x.toModel.unpack with
  | .zero _ => true
  | _ => false

/-- A single without the sign of a zero. -/
def unsigned32 (x : Float32) : Float32 :=
  if isZero32 x then Float32.ofModel (.pack (.zero .positive)) else x

/-- A number as it was, a double under any way of writing it. -/
inductive Number.Preserved : Number → Number → Prop
  | posInt (n : UInt64) : Preserved (.posInt n) (.posInt n)
  | negInt (i : Int64) : Preserved (.negInt i) (.negInt i)
  | float {x : Float} {n : Number} (h : unsigned n.asF64 = unsigned x) : Preserved (.float x) n

theorem isZero_zero : isZero (Float.ofModel (.pack (.zero .positive))) = true := by decide +kernel

theorem unsigned_unsigned (x : Float) : unsigned (unsigned x) = unsigned x := by
  by_cases h : isZero x = true
  · rw [unsigned, unsigned, if_pos h, if_pos isZero_zero]
  · have hx : unsigned x = x := if_neg h
    rw [hx, hx]

/-- What `jsonb` keeps of a number. -/
theorem Number.preserved_jsonb : ∀ n : Number, n.Preserved n.jsonb
  | .posInt n => .posInt n
  | .negInt i => .negInt i
  | .float x => .float (unsigned_unsigned x)

theorem Number.Preserved.refl : ∀ n : Number, n.Preserved n
  | .posInt n => .posInt n
  | .negInt i => .negInt i
  | .float _ => .float rfl

theorem Number.Preserved.trans {n n' n'' : Number} (h : n.Preserved n') (h' : n'.Preserved n'') :
    n.Preserved n'' := by
  cases h with
  | posInt n => exact h'
  | negInt i => exact h'
  | float h =>
    refine .float (Eq.trans ?_ h)
    cases h' with
    | posInt n => rfl
    | negInt i => rfl
    | float h' => exact h'

namespace Value

mutual

/-- A value as it comes back from the store. -/
def Preserved : Value → Value → Prop
  | .null, v' => v' = .null
  | .bool b, v' => v' = .bool b
  | .number n, v' => ∃ n', v' = .number n' ∧ n.Preserved n'
  | .string s, v' => v' = .string s
  | .array xs, v' => ∃ xs', v' = .array xs' ∧ PreservedElements xs xs'
  | .object ms, v' => ∃ ms₁ ms', v' = .object ms' ∧ PreservedMembers ms ms₁ ∧ ms'.Perm ms₁

def PreservedElements : List Value → List Value → Prop
  | [], xs' => xs' = []
  | x :: xs, xs' => ∃ x' rest, xs' = x' :: rest ∧ Preserved x x' ∧ PreservedElements xs rest

def PreservedMembers : List (String × Value) → List (String × Value) → Prop
  | [], ms' => ms' = []
  | (k, x) :: ms, ms' =>
    ∃ x' rest, ms' = (k, x') :: rest ∧ Preserved x x' ∧ PreservedMembers ms rest

end

theorem forall₂_of_preservedElements : ∀ {xs xs' : List Value}, PreservedElements xs xs' →
    List.Forall₂ Preserved xs xs'
  | [], _, h => by
    cases h
    exact .nil
  | x :: xs, _, h => by
    obtain ⟨x', rest, rfl, hx, hrest⟩ := h
    exact .cons hx (forall₂_of_preservedElements hrest)

theorem preservedMembers_names : ∀ {ms ms' : List (String × Value)}, PreservedMembers ms ms' →
    ms'.map Prod.fst = ms.map Prod.fst
  | [], _, h => by
    cases h
    rfl
  | (k, x) :: ms, _, h => by
    obtain ⟨x', rest, rfl, -, hrest⟩ := h
    rw [List.map_cons, List.map_cons, preservedMembers_names hrest]

theorem preservedMembers_forall₂ : ∀ {ms ms' : List (String × Value)},
    PreservedMembers ms ms' ↔ List.Forall₂ (fun m m' => m'.1 = m.1 ∧ Preserved m.2 m'.2) ms ms'
  | [], ms' => by
    rw [PreservedMembers, List.forall₂_nil_left_iff]
  | (k, x) :: ms, ms' => by
    rw [PreservedMembers, List.forall₂_cons_left_iff]
    constructor
    · rintro ⟨x', rest, rfl, hx, hrest⟩
      exact ⟨(k, x'), rest, ⟨rfl, hx⟩, preservedMembers_forall₂.mp hrest, rfl⟩
    · rintro ⟨⟨k', x'⟩, rest, ⟨rfl, hx⟩, hrest, rfl⟩
      exact ⟨x', rest, rfl, hx, preservedMembers_forall₂.mpr hrest⟩

mutual

theorem Preserved.distinct : ∀ {v v' : Value}, Preserved v v' → v.Distinct → v'.Distinct
  | .null, v', h, _ | .bool _, v', h, _ | .string _, v', h, _ => by
    cases h
    trivial
  | .number n, v', h, _ => by
    obtain ⟨n', rfl, -⟩ := h
    trivial
  | .array xs, v', h, hd => by
    obtain ⟨xs', rfl, hxs⟩ := h
    exact preservedElements_distinct hxs hd
  | .object ms, v', h, hd => by
    obtain ⟨ms₁, ms', rfl, hms, hperm⟩ := h
    refine ⟨?_, distinctMembers_iff.mpr fun m hm => ?_⟩
    · rw [(hperm.map Prod.fst).nodup_iff, preservedMembers_names hms]
      exact hd.1
    · exact distinctMembers_iff.mp (preservedMembers_distinct hms hd.2) m (hperm.subset hm)

theorem preservedElements_distinct : ∀ {xs xs' : List Value}, PreservedElements xs xs' →
    DistinctElements xs → DistinctElements xs'
  | [], _, h, _ => by
    cases h
    trivial
  | x :: xs, _, h, hd => by
    obtain ⟨x', rest, rfl, hx, hrest⟩ := h
    exact ⟨hx.distinct hd.1, preservedElements_distinct hrest hd.2⟩

theorem preservedMembers_distinct : ∀ {ms ms' : List (String × Value)}, PreservedMembers ms ms' →
    DistinctMembers ms → DistinctMembers ms'
  | [], _, h, _ => by
    cases h
    trivial
  | (k, x) :: ms, _, h, hd => by
    obtain ⟨x', rest, rfl, hx, hrest⟩ := h
    exact ⟨hx.distinct hd.1, preservedMembers_distinct hrest hd.2⟩

end

/-- The members of two objects agree: a name stands in neither, or for values of which the one is
the other as it comes back. -/
def AgreeingMembers (ms ms' : List (String × Value)) : Prop :=
  ∀ name, ms.lookup name = none ∧ ms'.lookup name = none
    ∨ ∃ x x', ms.lookup name = some x ∧ ms'.lookup name = some x' ∧ x.Distinct ∧ Preserved x x'

theorem preservedMembers_agree : ∀ {ms ms' : List (String × Value)}, DistinctMembers ms →
    PreservedMembers ms ms' → AgreeingMembers ms ms'
  | [], _, _, h, name => by
    cases h
    exact .inl ⟨rfl, rfl⟩
  | (k, x) :: ms, _, hd, h, name => by
    obtain ⟨x', rest, rfl, hx, hrest⟩ := h
    rw [lookup_cons_eq, lookup_cons_eq]
    by_cases hk : name = k
    · rw [if_pos hk, if_pos hk]
      exact .inr ⟨x, x', rfl, rfl, hd.1, hx⟩
    · rw [if_neg hk, if_neg hk]
      exact preservedMembers_agree hd.2 hrest name

/-- A member comes back under its name, wherever it stands. -/
theorem Preserved.agree {ms ms₁ ms' : List (String × Value)} (hd : Distinct (.object ms))
    (h : PreservedMembers ms ms₁) (hperm : ms'.Perm ms₁) : AgreeingMembers ms ms' := by
  have hn : (ms₁.map Prod.fst).Nodup := by
    rw [preservedMembers_names h]
    exact hd.1
  intro name
  rw [← lookup_of_perm hperm.symm hn]
  exact preservedMembers_agree hd.2 h name

mutual

/-- What `jsonb` keeps is a value as it comes back. -/
theorem preserved_jsonb : ∀ {v v' : Value}, v.jsonb = some v' → Preserved v v'
  | .null, v', h | .bool _, v', h => (Option.some.inj h).symm
  | .string s, v', h => by
    unfold jsonb at h
    split_ifs at h
    exact (Option.some.inj h).symm
  | .number n, v', h => ⟨n.jsonb, (Option.some.inj h).symm, n.preserved_jsonb⟩
  | .array xs, v', h => by
    obtain ⟨xs', hxs, rfl⟩ := Option.map_eq_some_iff.mp h
    exact ⟨xs', rfl, preserved_jsonbElements hxs⟩
  | .object ms, v', h => by
    obtain ⟨ms', hms, rfl⟩ := Option.map_eq_some_iff.mp h
    exact ⟨ms', ms', rfl, preserved_jsonbMembers hms, .refl ms'⟩

theorem preserved_jsonbElements : ∀ {xs xs' : List Value}, jsonbElements xs = some xs' →
    PreservedElements xs xs'
  | [], _, h => (Option.some.inj h).symm
  | x :: xs, _, h => by
    obtain ⟨x', hx, h⟩ := Option.bind_eq_some_iff.mp h
    obtain ⟨rest, hrest, h⟩ := Option.bind_eq_some_iff.mp h
    cases h
    exact ⟨x', rest, rfl, preserved_jsonb hx, preserved_jsonbElements hrest⟩

theorem preserved_jsonbMembers : ∀ {ms ms' : List (String × Value)}, jsonbMembers ms = some ms' →
    PreservedMembers ms ms'
  | [], _, h => (Option.some.inj h).symm
  | (k, x) :: ms, _, h => by
    unfold jsonbMembers at h
    split_ifs at h
    obtain ⟨x', hx, h⟩ := Option.bind_eq_some_iff.mp h
    obtain ⟨rest, hrest, h⟩ := Option.bind_eq_some_iff.mp h
    cases h
    exact ⟨x', rest, rfl, preserved_jsonb hx, preserved_jsonbMembers hrest⟩

end

mutual

theorem Preserved.refl : ∀ v : Value, Preserved v v
  | .null | .bool _ | .string _ => rfl
  | .number n => ⟨n, rfl, .refl n⟩
  | .array xs => ⟨xs, rfl, preservedElements_refl xs⟩
  | .object ms => ⟨ms, ms, rfl, preservedMembers_refl ms, .refl ms⟩

theorem preservedElements_refl : ∀ xs : List Value, PreservedElements xs xs
  | [] => rfl
  | x :: xs => ⟨x, xs, rfl, .refl x, preservedElements_refl xs⟩

theorem preservedMembers_refl : ∀ ms : List (String × Value), PreservedMembers ms ms
  | [] => rfl
  | (_, x) :: ms => ⟨x, ms, rfl, .refl x, preservedMembers_refl ms⟩

end

mutual

theorem Preserved.trans : ∀ {v v' v'' : Value}, Preserved v v' → Preserved v' v'' → Preserved v v''
  | .null, _, _, h, h' | .bool _, _, _, h, h' | .string _, _, _, h, h' => by
    cases h
    exact h'
  | .number n, _, _, h, h' => by
    obtain ⟨n', rfl, hn⟩ := h
    obtain ⟨n'', rfl, hn'⟩ := h'
    exact ⟨n'', rfl, hn.trans hn'⟩
  | .array xs, _, _, h, h' => by
    obtain ⟨xs', rfl, hxs⟩ := h
    obtain ⟨xs'', rfl, hxs'⟩ := h'
    exact ⟨xs'', rfl, preservedElements_trans hxs hxs'⟩
  | .object ms, _, _, h, h' => by
    obtain ⟨ms₁, ms', rfl, hms, hperm⟩ := h
    obtain ⟨ms₂, ms'', rfl, hms', hperm'⟩ := h'
    -- what became of `ms'` became of `ms₁`, in the order of `ms₁`
    obtain ⟨ms₃, hms₃, hperm₃⟩ :=
      List.perm_comp_forall₂ hperm.symm (preservedMembers_forall₂.mp hms')
    exact ⟨ms₃, ms'', rfl, preservedMembers_trans hms (preservedMembers_forall₂.mpr hms₃),
      hperm'.trans hperm₃.symm⟩

theorem preservedElements_trans : ∀ {xs xs' xs'' : List Value}, PreservedElements xs xs' →
    PreservedElements xs' xs'' → PreservedElements xs xs''
  | [], _, _, h, h' => by
    cases h
    exact h'
  | x :: xs, _, _, h, h' => by
    obtain ⟨x', rest, rfl, hx, hrest⟩ := h
    obtain ⟨x'', rest', rfl, hx', hrest'⟩ := h'
    exact ⟨x'', rest', rfl, hx.trans hx', preservedElements_trans hrest hrest'⟩

theorem preservedMembers_trans : ∀ {ms ms' ms'' : List (String × Value)}, PreservedMembers ms ms' →
    PreservedMembers ms' ms'' → PreservedMembers ms ms''
  | [], _, _, h, h' => by
    cases h
    exact h'
  | (k, x) :: ms, _, _, h, h' => by
    obtain ⟨x', rest, rfl, hx, hrest⟩ := h
    obtain ⟨x'', rest', rfl, hx', hrest'⟩ := h'
    exact ⟨x'', rest', rfl, hx.trans hx', preservedMembers_trans hrest hrest'⟩

end

end Value

/-! ## Messages but for the sign of zeros -/

section Unsigned

variable [Bounds]

/-- A field without the sign of a zero. -/
def Prim.unsigned : (k : Prim) → k.Carrier → k.Carrier
  | .float, (v : Float32) => unsigned32 v
  | .double, (v : Float) => PgRos2.unsigned v
  | _, v => v

mutual

def Fields.unsigned : (fs : Fields) → fs.Val → fs.Val
  | .nil, v => v
  | .cons _ type rest, v => (type.unsigned v.1, rest.unsigned v.2)

/-- The value without the sign of any zero. -/
def FieldType.unsigned : (f : FieldType) → f.Val → f.Val
  | .simple e, v => e.unsigned v
  | .array e _, v => ⟨v.1.map fun x => e.unsigned x, by rw [List.length_map, v.2]⟩
  | .sequence e, v => List.map (fun x => e.unsigned x) v
  | .boundedSequence e _, v =>
    ⟨v.1.map fun x => e.unsigned x, by rw [List.length_map]; exact v.2⟩

def ElemType.unsigned : (e : ElemType) → e.Val → e.Val
  | .prim k, v => k.unsigned v
  | .message _ fields, v => fields.unsigned v

end

end Unsigned

abbrev MessageType.unsigned [Bounds] (T : MessageType) (message : T.Val) : T.Val :=
  T.fields.unsigned message

/-- A zero becomes a zero. -/
theorem asF32_of_isZero {x : Float} (h : isZero x = true) :
    unsigned32 (asF32 x) = Float32.ofModel (.pack (.zero .positive)) := by
  unfold isZero at h
  split at h
  · rename_i s hx
    unfold asF32
    rw [hx]
    cases s <;> decide +kernel
  · cases h

theorem unsigned32_asF32 (x : Float) : unsigned32 (asF32 (unsigned x)) = unsigned32 (asF32 x) := by
  by_cases h : isZero x = true
  · rw [asF32_of_isZero h, unsigned, if_pos h, asF32_of_isZero isZero_zero]
  · rw [unsigned, if_neg h]

/-! ## Decoding what came back -/

theorem preserved_integer {v v' : Value} {i : ℤ} (h : Value.Preserved v v')
    (hi : Value.integer v = some i) : Value.integer v' = some i := by
  unfold Value.integer at hi
  split at hi
  · obtain ⟨n', rfl, hn⟩ := h
    cases hn
    exact hi
  · obtain ⟨n', rfl, hn⟩ := h
    cases hn
    exact hi
  · cases hi

theorem preserved_inRange {T : Type} [FixedInt T] {v v' : Value} (h : Value.Preserved v v')
    (hc : InRange T v) : InRange T v' ∧ readInt T v' = readInt T v := by
  obtain ⟨i, hi, hrange⟩ := hc
  have hi' := preserved_integer h hi
  exact ⟨⟨i, hi', hrange⟩, by rw [readInt, readInt, hi, hi']⟩

/-- A value that came back is taken where the stored one was, and what it makes of anything is the
same but for `g`. An object that names a member twice may come back in another order. -/
def Agrees {α : Type} (C : Value → Prop) (overlay : α → Value → α) (g : α → α) : Prop :=
  ∀ v v', v.Distinct → C v → Value.Preserved v v' →
    C v' ∧ ∀ old, g (overlay old v') = g (overlay old v)

theorem preserved_float {v v' : Value} (h : Value.Preserved v v')
    (hc : v = .null ∨ ∃ n, v = .number n) :
    (v = .null ∧ v' = .null)
      ∨ ∃ n n', v = .number n ∧ v' = .number n' ∧ unsigned n'.asF64 = unsigned n.asF64 := by
  rcases hc with rfl | ⟨n, rfl⟩
  · exact .inl ⟨rfl, h⟩
  · obtain ⟨n', rfl, hn⟩ := h
    refine .inr ⟨n, n', rfl, rfl, ?_⟩
    cases hn with
    | posInt n => rfl
    | negInt i => rfl
    | float h => exact h

theorem integer_agrees {T : Type} [FixedInt T] {v v' : Value} (h : Value.Preserved v v')
    (hc : InRange T v) :
    InRange T v' ∧ ∀ old, (readInt T v').getD old = (readInt T v).getD old := by
  obtain ⟨hc', hread⟩ := preserved_inRange h hc
  exact ⟨hc', fun old => by rw [hread]⟩

section Types

theorem Prim.agrees [Bounds] : ∀ k : Prim,
    Agrees k.Conforms (fun old v => (k.read v).getD old) k.unsigned
  | .float, v, v', _, hc, h => by
    obtain ⟨rfl, rfl⟩ | ⟨n, n', rfl, rfl, hn⟩ := preserved_float h hc
    · exact ⟨hc, fun _ => rfl⟩
    · refine ⟨.inr ⟨n', rfl⟩, fun old => ?_⟩
      change unsigned32 (asF32 n'.asF64) = unsigned32 (asF32 n.asF64)
      rw [← unsigned32_asF32, hn, unsigned32_asF32]
  | .double, v, v', _, hc, h => by
    obtain ⟨rfl, rfl⟩ | ⟨n, n', rfl, rfl, hn⟩ := preserved_float h hc
    · exact ⟨hc, fun _ => rfl⟩
    · exact ⟨.inr ⟨n', rfl⟩, fun old => hn⟩
  | .longDouble, v, v', _, hc, h => absurd hc id
  | .boolean, v, v', _, hc, h => by
    obtain ⟨b, rfl⟩ := hc
    cases h
    exact ⟨⟨b, rfl⟩, fun _ => rfl⟩
  | .string, v, v', _, hc, h | .wString, v, v', _, hc, h => by
    obtain ⟨t, rfl⟩ := hc
    cases h
    exact ⟨⟨t, rfl⟩, fun _ => rfl⟩
  | .boundedString bound, v, v', _, hc, h | .boundedWString bound, v, v', _, hc, h => by
    obtain ⟨t, rfl, ht⟩ := hc
    cases h
    exact ⟨⟨t, rfl, ht⟩, fun _ => rfl⟩
  | .char, v, v', _, hc, h | .octet, v, v', _, hc, h | .uint8, v, v', _, hc, h
  | .wChar, v, v', _, hc, h | .uint16, v, v', _, hc, h | .int8, v, v', _, hc, h
  | .int16, v, v', _, hc, h | .uint32, v, v', _, hc, h | .int32, v, v', _, hc, h
  | .uint64, v, v', _, hc, h | .int64, v, v', _, hc, h =>
    integer_agrees h hc

/-- The elements of what came back, laid over as many and over defaults. -/
theorem elements_agree {α : Type} {C : Value → Prop} {overlay : α → Value → α} {g : α → α}
    (h : Agrees C overlay g) {xs xs' : List Value} (hxs : List.Forall₂ Value.Preserved xs xs') :
    Value.DistinctElements xs → (∀ x ∈ xs, C x) → (∀ x ∈ xs', C x) ∧ xs'.length = xs.length
      ∧ (∀ d, (xs'.map (overlay d)).map g = (xs.map (overlay d)).map g)
      ∧ ∀ olds, (List.zipWith overlay olds xs').map g = (List.zipWith overlay olds xs).map g := by
  induction hxs with
  | nil => exact fun _ _ => ⟨by simp, rfl, fun _ => rfl, fun _ => rfl⟩
  | @cons x x' xs xs' hx _ ih =>
    intro hd hc
    obtain ⟨hcx, ho⟩ := h x x' hd.1 (hc x List.mem_cons_self) hx
    obtain ⟨hcs, hl, hm, hz⟩ := ih hd.2 fun y hy => hc y (List.mem_cons_of_mem _ hy)
    refine ⟨List.forall_mem_cons.mpr ⟨hcx, hcs⟩, by simp [hl], fun d => ?_, fun olds => ?_⟩
    · rw [List.map_cons, List.map_cons, List.map_cons, List.map_cons, ho, hm d]
    · rcases olds with _ | ⟨old, olds⟩
      · rfl
      · rw [List.zipWith_cons_cons, List.zipWith_cons_cons, List.map_cons, List.map_cons, ho,
          hz olds]

theorem overlaySlice_val {α : Type} {n : ℕ} (overlay : α → Value → α)
    (old : { xs : List α // xs.length = n }) {items : List Value} (h : items.length = n) :
    (overlaySlice overlay old items).1 = List.zipWith overlay old.1 items := by
  unfold overlaySlice
  rw [dif_pos h]

theorem overlayBounded_val {α : Type} {bound : ℕ} (read : Value → α)
    (old : { xs : List α // xs.length ≤ bound }) {items : List Value} (h : items.length ≤ bound) :
    (overlayBounded read old items).1 = items.map read := by
  unfold overlayBounded
  rw [dif_pos h]

variable [Rclrs]

mutual

theorem Fields.agrees : ∀ (fs : Fields) (object object' : List (String × Value)),
    fs.Conforms object → Value.AgreeingMembers object object' →
      fs.Conforms object'
        ∧ ∀ old, fs.unsigned (fs.overlay old object') = fs.unsigned (fs.overlay old object)
  | .nil, _, _, _, _ => ⟨trivial, fun _ => rfl⟩
  | .cons name type rest, object, object', hc, h => by
    obtain ⟨hcr, hor⟩ := rest.agrees object object' hc.2 h
    obtain ⟨hl, hl'⟩ | ⟨x, x', hl, hl', hd, hx⟩ := h name
    · refine ⟨⟨fun item hi => ?_, hcr⟩, fun old => ?_⟩
      · rw [hl'] at hi
        cases hi
      · simp only [Fields.overlay, Fields.unsigned, hl, hl', hor]
        rfl
    · obtain ⟨hcx, hox⟩ := type.agrees x x' hd (hc.1 x hl) hx
      refine ⟨⟨fun item hi => ?_, hcr⟩, fun old => ?_⟩
      · rw [hl', Option.some.injEq] at hi
        exact hi ▸ hcx
      · simp only [Fields.overlay, Fields.unsigned, hl, hl', hox, hor]
        rfl

theorem FieldType.agrees : ∀ f : FieldType, Agrees f.Conforms f.overlay f.unsigned
  | .simple e, v, v', hd, hc, h => e.agrees v v' hd hc h
  | .array e n, v, v', hd, hc, h => by
    obtain ⟨items, rfl, he, hn, hc⟩ := hc
    obtain ⟨items', rfl, hitems⟩ := h
    obtain ⟨hcs, hl, -, hz⟩ :=
      elements_agree (fun x x' => e.agrees x x') (Value.forall₂_of_preservedElements hitems) hd hc
    refine ⟨⟨items', rfl, he, hl.trans hn, hcs⟩, fun old => Subtype.ext ?_⟩
    have hold := congrArg (List.map e.unsigned) (overlaySlice_val e.overlay old hn)
    have hold' := congrArg (List.map e.unsigned) (overlaySlice_val e.overlay old (hl.trans hn))
    exact hold'.trans ((hz old.1).trans hold.symm)
  | .sequence e, v, v', hd, hc, h => by
    obtain ⟨items, rfl, he, hc⟩ := hc
    obtain ⟨items', rfl, hitems⟩ := h
    obtain ⟨hcs, -, hm, -⟩ :=
      elements_agree (fun x x' => e.agrees x x') (Value.forall₂_of_preservedElements hitems) hd hc
    exact ⟨⟨items', rfl, he, hcs⟩, fun _ => hm (Rclrs.elemDefault e)⟩
  | .boundedSequence e bound, v, v', hd, hc, h => by
    obtain ⟨items, rfl, he, hb, hc⟩ := hc
    obtain ⟨items', rfl, hitems⟩ := h
    obtain ⟨hcs, hl, hm, -⟩ :=
      elements_agree (fun x x' => e.agrees x x') (Value.forall₂_of_preservedElements hitems) hd hc
    refine ⟨⟨items', rfl, he, hl.trans_le hb, hcs⟩, fun old => Subtype.ext ?_⟩
    have hread := overlayBounded_val (e.overlay (Rclrs.elemDefault e)) old hb
    have hread' := overlayBounded_val (e.overlay (Rclrs.elemDefault e)) old (hl.trans_le hb)
    exact (congrArg (List.map e.unsigned) hread').trans
      ((hm (Rclrs.elemDefault e)).trans (congrArg (List.map e.unsigned) hread).symm)

theorem ElemType.agrees : ∀ e : ElemType, Agrees e.Conforms e.overlay e.unsigned
  | .prim k, v, v', hd, hc, h => k.agrees v v' hd hc h
  | .message _ fields, v, v', hd, hc, h => by
    obtain ⟨object, rfl, hnames, hc⟩ := hc
    obtain ⟨object₁, object', rfl, hobject, hperm⟩ := h
    obtain ⟨hc', ho⟩ := fields.agrees object object' hc (Value.Preserved.agree hd hobject hperm)
    refine ⟨⟨object', rfl, fun m hm => ?_, hc'⟩, ho⟩
    have hmem : m.1 ∈ object₁.map Prod.fst := List.mem_map_of_mem (hperm.subset hm)
    rw [Value.preservedMembers_names hobject] at hmem
    obtain ⟨m', hm', hname⟩ := List.mem_map.mp hmem
    exact hname ▸ hnames m' hm'

end

/-- Decoding takes what came back of a value it takes, and makes the same of it but for the sign of
zeros. -/
theorem decode_preserved {T : MessageType} {message message' : T.Val} {v v' : Value}
    (hv : v.Distinct) (h : Value.Preserved v v') (hd : decode message v = .ok message') :
    ∃ message'', decode message v' = .ok message''
      ∧ T.unsigned message'' = T.unsigned message' := by
  have hdecodes := decode_decodes T message hv
  have hdecodes' := decode_decodes T message (h.distinct hv)
  by_cases hc : T.Conforms v
  · obtain ⟨hc', ho⟩ := (ElemType.message T.name T.fields).agrees v v' hv hc h
    rw [hdecodes.1 hc, Except.ok.injEq] at hd
    subst hd
    exact ⟨_, hdecodes'.1 hc', ho message⟩
  · obtain ⟨text, herror⟩ := hdecodes.2 hc
    rw [hd] at herror
    cases herror

end Types

end PgRos2
