import PgRos2.Decode
import PgRos2.Overlay
import PgRos2.Reference

/-!
# What the decoder accepts

Decoding succeeds on the values that conform and then leaves the overlay; on every other value it
gives an error, never a panic (`Decodes`). The loops run over the members of the object and over
zipped items, the overlay over the fields of the type: one member written is one field overlaid
(`Fields.assign_decodes`), and an object without a repeated name is overlaid member by member
(`Fields.overlay_cons`).
-/

namespace PgRos2

open Lib

/-- Success with `x` where `c` holds, and an error elsewhere. -/
def Decodes {α : Type} (r : Except Failure α) (c : Prop) (x : α) : Prop :=
  (c → r = .ok x) ∧ (¬c → ∃ text, r = .error (.error text))

namespace Decodes

variable {α β : Type} {r : Except Failure α} {c d : Prop} {x : α}

theorem ok (x : α) : Decodes (.ok x) True x := ⟨fun _ => rfl, fun h => absurd trivial h⟩

theorem error (text : String) (x : α) : Decodes (.error (.error text)) False x :=
  ⟨False.elim, fun _ => ⟨text, rfl⟩⟩

theorem congr (h : Decodes r c x) (hc : d ↔ c) : Decodes r d x :=
  ⟨fun hd => h.1 (hc.mp hd), fun hd => h.2 (fun h' => hd (hc.mpr h'))⟩

theorem of_imp {y : α} (h : Decodes r c x) (hxy : c → x = y) : Decodes r c y :=
  ⟨fun hc => hxy hc ▸ h.1 hc, h.2⟩

theorem bind {f : α → Except Failure β} {y : β} (hr : Decodes r c x) (hf : Decodes (f x) d y) :
    Decodes (r >>= f) (c ∧ d) y := by
  by_cases hc : c
  · rw [hr.1 hc]
    exact hf.congr (and_iff_right hc)
  · obtain ⟨text, h⟩ := hr.2 hc
    rw [h]
    exact (error text y).congr (iff_of_false (fun h => hc h.1) id)

theorem map {y : β} {f : α → β} (hr : Decodes r c x) (hf : c → f x = y) :
    Decodes (r >>= fun a => pure (f a)) c y :=
  ((hr.bind (ok (f x))).congr (and_true c).to_iff.symm).of_imp hf

end Decodes

section Primitives

theorem integer_eq (value : Value) :
    (value.asI64.map Int64.toInt).or (value.asU64.map fun n => (n.toNat : ℤ))
      = Value.integer value := by
  rcases value with _ | _ | n | _ | _ | _
  case number =>
    rcases n with n | i | x
    · simp only [Value.asI64, Value.asU64, Number.asI64, Number.asU64, Value.integer]
      split_ifs with h
      · simp [Int64.toInt_ofNat_of_lt h]
      · rfl
    · rfl
    · rfl
  all_goals rfl

theorem integer_decodes {T : Type} [FixedInt T] (value : Value) (name : String) (old : T) :
    Decodes (integer value name) (InRange T value) ((readInt T value).getD old) := by
  unfold integer InRange readInt
  rw [integer_eq]
  rcases Value.integer value with _ | i
  · simp [Decodes]
  · by_cases h : FixedInt.lo T ≤ i ∧ i ≤ FixedInt.hi T <;> simp [FixedInt.tryFrom, h, Decodes]

theorem asF32_f64Nan : asF32 f64Nan = f32Nan := by decide +kernel

theorem boolean_decodes [Bounds] (value : Value) (name : String) (old : Bool) :
    Decodes (boolean value name) (∃ b, value = .bool b) ((Prim.read .boolean value).getD old) :=
  match value with
  | .bool b => (Decodes.ok b).congr (iff_of_true ⟨b, rfl⟩ trivial)
  | .null | .number _ | .string _ | .array _ | .object _ => (Decodes.error _ _).congr (by simp)

theorem string_decodes [Bounds] (value : Value) (name : String) (old : String) :
    Decodes (string value name) (∃ s, value = .string s) ((Prim.read .string value).getD old) :=
  match value with
  | .string s => (Decodes.ok s).congr (iff_of_true ⟨s, rfl⟩ trivial)
  | .null | .bool _ | .number _ | .array _ | .object _ => (Decodes.error _ _).congr (by simp)

theorem float64_decodes [Bounds] (value : Value) (name : String) (old : Float) :
    Decodes (float64 value name) (value = .null ∨ ∃ n, value = .number n)
      ((Prim.read .double value).getD old) :=
  match value with
  | .null => (Decodes.ok f64Nan).congr (iff_of_true (.inl rfl) trivial)
  | .number n => (Decodes.ok n.asF64).congr (iff_of_true (.inr ⟨n, rfl⟩) trivial)
  | .bool _ | .string _ | .array _ | .object _ => (Decodes.error _ _).congr (by simp)

theorem float32_decodes [Bounds] (value : Value) (name : String) (old : Float32) :
    Decodes (float32 value name) (value = .null ∨ ∃ n, value = .number n)
      ((Prim.read .float value).getD old) :=
  match value with
  | .null => (Decodes.ok (asF32 f64Nan)).of_imp (fun _ => asF32_f64Nan) |>.congr
      (iff_of_true (.inl rfl) trivial)
  | .number n => (Decodes.ok (asF32 n.asF64)).congr (iff_of_true (.inr ⟨n, rfl⟩) trivial)
  | .bool _ | .string _ | .array _ | .object _ => (Decodes.error _ _).congr (by simp)

theorem tryAssign_decodes (length : String → ℕ) (bound : ℕ) (value : Value) (name : String)
    (x : { s : String // length s ≤ bound })
    (hx : ∀ s, value = .string s → ∀ h : length s ≤ bound, x = ⟨s, h⟩) :
    Decodes (tryAssign length bound value name) (∃ s, value = .string s ∧ length s ≤ bound) x := by
  unfold tryAssign string
  cases value with
  | string s =>
    by_cases h : length s ≤ bound
    · exact ⟨fun _ => by simp [Value.asStr, h, hx s rfl h, bind, Except.bind, pure, Except.pure],
        fun hn => absurd ⟨s, rfl, h⟩ hn⟩
    · exact ⟨by simp [h], fun _ => by simp [Value.asStr, h, bind, Except.bind, throw,
        throwThe, MonadExceptOf.throw]⟩
  | null | bool _ | number _ | array _ | object _ =>
    exact ⟨by simp, fun _ => by simp [Value.asStr, bind, Except.bind]⟩

theorem simplePrim_decodes [Rclrs] : ∀ (k : Prim) (value : Value) (name : String) (old : k.Carrier),
    Decodes (simplePrim k value name) (k.Conforms value) ((k.read value).getD old)
  | .float, value, name, old => float32_decodes value name old
  | .double, value, name, old => float64_decodes value name old
  | .longDouble, value, name, old => Decodes.error _ _
  | .boolean, value, name, old => boolean_decodes value name old
  | .string, value, name, old => string_decodes value name old
  | .wString, value, name, old => by cases value <;> exact string_decodes _ name old
  | .boundedString bound, value, name, old =>
    tryAssign_decodes Bounds.stringLength bound value name _ fun s hs h => by
      subst hs
      exact congrArg (Option.getD · old) (dif_pos h)
  | .boundedWString bound, value, name, old =>
    tryAssign_decodes Bounds.wstringLength bound value name _ fun s hs h => by
      subst hs
      exact congrArg (Option.getD · old) (dif_pos h)
  | .char, value, name, old | .octet, value, name, old | .uint8, value, name, old =>
    integer_decodes (T := UInt8) value name old
  | .wChar, value, name, old | .uint16, value, name, old =>
    integer_decodes (T := UInt16) value name old
  | .int8, value, name, old => integer_decodes (T := Int8) value name old
  | .int16, value, name, old => integer_decodes (T := Int16) value name old
  | .uint32, value, name, old => integer_decodes (T := UInt32) value name old
  | .int32, value, name, old => integer_decodes (T := Int32) value name old
  | .uint64, value, name, old => integer_decodes (T := UInt64) value name old
  | .int64, value, name, old => integer_decodes (T := Int64) value name old

end Primitives

section Loops

variable {T : Type} {write : T → Value → Except Failure T} {C : Value → Prop}
  {o : T → Value → T}

/-- The loop over a slice and as many items. -/
theorem overwrite_decodes : ∀ (slot : List T) (items : List Value) (h : items.length = slot.length),
    (∀ x, ∀ item ∈ items, Decodes (write x item) (C item) (o x item)) →
    Decodes (overwrite write slot items) (∀ item ∈ items, C item)
      ⟨List.zipWith o slot items, by simp [h]⟩
  | [], [], _, _ => (Decodes.ok _).congr (by simp)
  | x :: slot, item :: items, h, hw => by
    have ih := overwrite_decodes slot items (by simpa using h) fun x item hm =>
      hw x item (List.mem_cons_of_mem _ hm)
    change Decodes (write x item >>= fun y => overwrite write slot items >>= fun xs =>
      pure (⟨y :: xs.1, congrArg (· + 1) xs.2⟩ : { ys : List T // ys.length = (x :: slot).length }))
      _ _
    exact ((hw x item List.mem_cons_self).bind (ih.map fun _ => rfl)).congr (by simp)

theorem mapM_decodes {read : Value → Except Failure T} {d : T} : ∀ items : List Value,
    (∀ item ∈ items, Decodes (read item) (C item) (o d item)) →
    Decodes (items.mapM read) (∀ item ∈ items, C item) (items.map (o d))
  | [], _ => (Decodes.ok _).congr (by simp)
  | item :: items, hw => by
    have ih := mapM_decodes items fun item hm => hw item (List.mem_cons_of_mem _ hm)
    rw [List.mapM_cons]
    exact ((hw item List.mem_cons_self).bind (ih.map fun _ => rfl)).congr (by simp)

variable {items : List Value}
  (hw : ∀ x, ∀ item ∈ items, Decodes (write x item) (C item) (o x item))

include hw

/-- A fixed array takes as many items as it has elements. -/
theorem fill_decodes {n : ℕ} (slot : Slice T n) (name : String) :
    Decodes (fill write slot items name) (items.length = n ∧ ∀ item ∈ items, C item)
      (overlaySlice o slot items) := by
  obtain ⟨slot, rfl⟩ := slot
  unfold fill checkLength overlaySlice
  by_cases h : items.length = slot.length
  · rw [if_pos h.symm, dif_pos h]
    exact ((overwrite_decodes slot items h hw).map fun _ => rfl).congr (and_iff_right h)
  · rw [if_neg (Ne.symm h)]
    exact (Decodes.error _ _).congr (by simp [h])

end Loops

section Resets

theorem zipWith_replicate {T : Type} {o : T → Value → T} (d : T) : ∀ items : List Value,
    List.zipWith o (List.replicate items.length d) items = items.map (o d)
  | [] => rfl
  | item :: items => congrArg (o d item :: ·) (zipWith_replicate d items)

variable [Rclrs] {e : ElemType} {write : e.Val → Value → Except Failure e.Val}
  {C : Value → Prop} {o : e.Val → Value → e.Val} {items : List Value}
  (hw : ∀ x, ∀ item ∈ items, Decodes (write x item) (C item) (o x item))

/-- Items laid over a sequence that was reset to their number. -/
theorem zipWith_reset (o : e.Val → Value → e.Val) (items : List Value) :
    List.zipWith o (Rclrs.reset e items.length) items = items.map (o (Rclrs.elemDefault e)) := by
  rw [Rclrs.reset_eq]
  exact zipWith_replicate (Rclrs.elemDefault e) items

include hw

/-- A sequence that is reset first takes any number of items. -/
theorem refill_decodes : Decodes (refill e write items) (∀ item ∈ items, C item)
    (items.map (o (Rclrs.elemDefault e))) :=
  (overwrite_decodes (Rclrs.reset e items.length) items (by simp [Rclrs.reset_eq]) hw).map
    fun _ => zipWith_reset o items

/-- A bounded sequence takes as many items as its bound allows. -/
theorem resizeFill_decodes {bound : ℕ} (old : { xs : List e.Val // xs.length ≤ bound })
    (name : String) :
    Decodes (resizeFill e bound write items name) (items.length ≤ bound ∧ ∀ item ∈ items, C item)
      (overlayBounded (o (Rclrs.elemDefault e)) old items) := by
  unfold resizeFill resize tryReset overlayBounded
  by_cases h : items.length ≤ bound
  · rw [if_neg (by omega), dif_pos h, dif_pos h]
    exact ((overwrite_decodes (Rclrs.reset e items.length) items (by simp [Rclrs.reset_eq])
      hw).map fun _ => Subtype.ext (zipWith_reset o items)).congr (and_iff_right h)
  · rw [if_pos (by omega), dif_neg h]
    exact (Decodes.error _ _).congr (by simp [h])

end Resets

section Containers

theorem jsonArray_decodes {α : Type} {f : List Value → Except Failure α} {c : List Value → Prop}
    {x : α} (value : Value) (name : String)
    (h : ∀ items, value = .array items → Decodes (f items) (c items) x) :
    Decodes (jsonArray value name >>= f) (∃ items, value = .array items ∧ c items) x := by
  cases value with
  | array items => exact (h items rfl).congr (by simp)
  | null | bool _ | number _ | string _ | object _ => exact (Decodes.error _ _).congr (by simp)

variable [Rclrs]

theorem arrayPrim_decodes (k : Prim) {n : ℕ} (slot : Slice k.Carrier n) (items : List Value)
    (name : String) : Decodes (arrayPrim k slot items name)
      ((ElemType.prim k).isLongDouble = false ∧ items.length = n ∧ ∀ item ∈ items, k.Conforms item)
      (overlaySlice (fun x item => (k.read item).getD x) slot items) := by
  have h := fill_decodes (fun x item (_ : item ∈ items) => simplePrim_decodes k item name x) slot
    name
  cases k
  case longDouble => exact (Decodes.error _ _).congr (by simp [ElemType.isLongDouble])
  all_goals exact h.congr (and_iff_right rfl)

theorem sequencePrim_decodes (k : Prim) (items : List Value) (name : String) :
    Decodes (sequencePrim k items name)
      ((ElemType.prim k).isLongDouble = false ∧ ∀ item ∈ items, k.Conforms item)
      (items.map fun item => (k.read item).getD (Rclrs.elemDefault (.prim k))) := by
  have hs := fun x item (_ : item ∈ items) => simplePrim_decodes k item name x
  have hm := mapM_decodes (o := fun x item => (k.read item).getD x) items
    (hs (Rclrs.elemDefault (.prim k)))
  have hr := refill_decodes (e := .prim k) hs
  cases k
  case longDouble => exact (Decodes.error _ _).congr (by simp [ElemType.isLongDouble])
  case boundedString => exact hr.congr (and_iff_right rfl)
  case boundedWString => exact hr.congr (and_iff_right rfl)
  all_goals exact hm.congr (and_iff_right rfl)

theorem boundedSequencePrim_decodes (k : Prim) {bound : ℕ}
    (old : { xs : List k.Carrier // xs.length ≤ bound }) (items : List Value) (name : String) :
    Decodes (boundedSequencePrim k bound items name)
      ((ElemType.prim k).isLongDouble = false ∧ items.length ≤ bound
        ∧ ∀ item ∈ items, k.Conforms item)
      (overlayBounded (fun item => (k.read item).getD (Rclrs.elemDefault (.prim k))) old
        items) := by
  have h := resizeFill_decodes (e := .prim k)
    (fun x item (_ : item ∈ items) => simplePrim_decodes k item name x) old name
  cases k
  case longDouble => exact (Decodes.error _ _).congr (by simp [ElemType.isLongDouble])
  all_goals exact h.congr (and_iff_right rfl)

end Containers

theorem Value.distinctElements_iff : ∀ {items : List Value},
    Value.DistinctElements items ↔ ∀ item ∈ items, Value.Distinct item
  | [] => by simp [Value.DistinctElements]
  | _ :: items => by
    rw [Value.DistinctElements, List.forall_mem_cons, distinctElements_iff]

theorem Value.distinctMembers_iff : ∀ {object : List (String × Value)},
    Value.DistinctMembers object ↔ ∀ m ∈ object, Value.Distinct m.2
  | [] => by simp [Value.DistinctMembers]
  | (_, _) :: object => by
    rw [Value.DistinctMembers, List.forall_mem_cons, distinctMembers_iff]

section Members

theorem lookup_cons_eq (name field : String) (item : Value) (object : List (String × Value)) :
    List.lookup name ((field, item) :: object)
      = if name = field then some item else object.lookup name := by
  rw [List.lookup_cons]
  rcases h : name == field with _ | _ <;> simp_all

theorem lookup_eq_none_of_not_mem {field : String} {object : List (String × Value)}
    (h : field ∉ object.map Prod.fst) : object.lookup field = none := by
  rw [List.lookup_eq_none_iff]
  intro member hm
  have : member.1 ≠ field := fun he => h (he ▸ List.mem_map_of_mem hm)
  simpa using this.symm

theorem lookup_of_mem {name : String} {item : Value} : ∀ {object : List (String × Value)},
    (object.map Prod.fst).Nodup → (name, item) ∈ object → object.lookup name = some item
  | (field, x) :: object, hn, hm => by
    rw [List.map_cons, List.nodup_cons] at hn
    rw [lookup_cons_eq]
    rcases List.mem_cons.mp hm with he | hm
    · cases he
      exact if_pos rfl
    · have hne : name ≠ field := fun he => hn.1 (he ▸ List.mem_map.mpr ⟨_, hm, rfl⟩)
      rw [if_neg hne]
      exact lookup_of_mem hn.2 hm

theorem lookup_of_perm {object object' : List (String × Value)} (h : object.Perm object')
    (hn : (object.map Prod.fst).Nodup) (name : String) :
    object.lookup name = object'.lookup name := by
  by_cases hmem : name ∈ object.map Prod.fst
  · obtain ⟨⟨field, item⟩, hm, rfl⟩ := List.mem_map.mp hmem
    rw [lookup_of_mem hn hm, lookup_of_mem ((h.map Prod.fst).nodup hn) (h.subset hm)]
  · rw [lookup_eq_none_of_not_mem hmem,
      lookup_eq_none_of_not_mem ((h.map Prod.fst).mem_iff.not.mp hmem)]

theorem find?_eq_none_iff {names : List String} {object : List (String × Value)} :
    (object.find? fun member => !names.contains member.1) = none
      ↔ ∀ member ∈ object, member.1 ∈ names := by
  simp [List.find?_eq_none]

variable [Rclrs]

theorem Fields.overlay_nil : ∀ (fs : Fields) (view : fs.Val), fs.overlay view [] = view
  | .nil, _ => rfl
  | .cons _ _ rest, view => congrArg (view.1, ·) (rest.overlay_nil view.2)

theorem Fields.conforms_nil : ∀ fs : Fields, fs.Conforms []
  | .nil => trivial
  | .cons _ _ rest => ⟨fun _ h => by simp at h, rest.conforms_nil⟩

/-- An object that names no field of the type changes nothing. -/
theorem Fields.overlay_of_not_mem {field : String} {item : Value} :
    ∀ (fs : Fields) (view : fs.Val), field ∉ fs.names → fs.overlay view [(field, item)] = view
  | .nil, _, _ => rfl
  | .cons name type rest, view, h => by
    simp only [Fields.names, List.mem_cons, not_or] at h
    rw [Fields.overlay, rest.overlay_of_not_mem view.2 h.2,
      lookup_cons_eq name, if_neg (Ne.symm h.1)]
    rfl

theorem Fields.conforms_of_not_mem {field : String} {item : Value} :
    ∀ fs : Fields, field ∉ fs.names → fs.Conforms [(field, item)]
  | .nil, _ => trivial
  | .cons name type rest, h => by
    simp only [Fields.names, List.mem_cons, not_or] at h
    refine ⟨fun x hx => ?_, rest.conforms_of_not_mem h.2⟩
    rw [lookup_cons_eq name, if_neg (Ne.symm h.1)] at hx
    simp at hx

/-- An object without a repeated name is laid over a message member by member. -/
theorem Fields.overlay_cons {field : String} {item : Value} {object : List (String × Value)}
    (h : field ∉ object.map Prod.fst) : ∀ (fs : Fields) (view : fs.Val),
    fs.overlay view ((field, item) :: object)
      = fs.overlay (fs.overlay view [(field, item)]) object
  | .nil, _ => rfl
  | .cons name type rest, view => by
    rw [Fields.overlay, Fields.overlay, Fields.overlay, rest.overlay_cons h view.2,
      lookup_cons_eq name, lookup_cons_eq name]
    by_cases hn : name = field
    · subst hn
      rw [if_pos rfl, if_pos rfl, lookup_eq_none_of_not_mem h]
    · rw [if_neg hn, if_neg hn]
      rfl

theorem Fields.conforms_cons {field : String} {item : Value} {object : List (String × Value)}
    (h : field ∉ object.map Prod.fst) : ∀ fs : Fields,
    fs.Conforms ((field, item) :: object) ↔ fs.Conforms [(field, item)] ∧ fs.Conforms object
  | .nil => by simp [Fields.Conforms]
  | .cons name type rest => by
    rw [Fields.Conforms, Fields.Conforms, Fields.Conforms, rest.conforms_cons h,
      lookup_cons_eq name, lookup_cons_eq name]
    by_cases hn : name = field
    · subst hn
      simp [lookup_eq_none_of_not_mem h]
      tauto
    · simp [hn]
      tauto

/-- The loop over the members, once writing one member is overlaying one field. -/
theorem assignMembers_decodes (fs : Fields) (path : String → String)
    (hs : ∀ field ∈ fs.names, ∀ item, Value.Distinct item → ∀ name view,
      Decodes (fs.assign field item name view) (fs.Conforms [(field, item)])
        (fs.overlay view [(field, item)])) :
    ∀ (object : List (String × Value)) (view : fs.Val), (object.map Prod.fst).Nodup →
      Value.DistinctMembers object → (∀ member ∈ object, member.1 ∈ fs.names) →
      Decodes (assignMembers (fun field item => fs.assign field item (path field)) object view)
        (fs.Conforms object) (fs.overlay view object)
  | [], view, _, _, _ => by
    rw [Fields.overlay_nil]
    exact (Decodes.ok view).congr (iff_of_true fs.conforms_nil trivial)
  | (field, item) :: object, view, hn, hd, hm => by
    rw [List.map_cons, List.nodup_cons] at hn
    rw [Value.DistinctMembers] at hd
    have hf := hs field (hm _ List.mem_cons_self) item hd.1 (path field) view
    have ih := assignMembers_decodes fs path hs object (fs.overlay view [(field, item)]) hn.2 hd.2
      fun member h => hm member (List.mem_cons_of_mem _ h)
    rw [fs.overlay_cons hn.1]
    exact (hf.bind ih).congr (fs.conforms_cons hn.1)

theorem messageView_decodes {V : Type} {names : List String}
    {assign : String → Value → String → V → Except Failure V} {C : List (String × Value) → Prop}
    {o : V → List (String × Value) → V} (view : V) (value : Value) (name : String)
    (h : ∀ object, value = .object object → (∀ member ∈ object, member.1 ∈ names) →
      Decodes (assignMembers (fun field item => assign field item s!"{name}.{field}") object view)
        (C object) (o view object)) :
    Decodes (messageView names assign view value name)
      (∃ object, value = .object object ∧ (∀ member ∈ object, member.1 ∈ names) ∧ C object)
      (match value.asObject with
        | some object => o view object
        | none => view) := by
  cases value with
  | object object =>
    unfold messageView
    simp only [Value.asObject]
    by_cases hm : ∀ member ∈ object, member.1 ∈ names
    · rw [find?_eq_none_iff.mpr hm]
      refine (h object rfl hm).congr ⟨?_, fun hc => ⟨object, rfl, hm, hc⟩⟩
      rintro ⟨_, ho, -, hc⟩
      cases ho
      exact hc
    · obtain ⟨member, hf⟩ := Option.ne_none_iff_exists'.mp (mt find?_eq_none_iff.mp hm)
      rw [hf]
      refine (Decodes.error _ _).congr (iff_of_false ?_ id)
      rintro ⟨_, ho, hc, -⟩
      cases ho
      exact hm hc
  | null | bool _ | number _ | string _ | array _ => exact (Decodes.error _ _).congr (by simp)

mutual

/-- Writing one member to its field overlays that field alone. -/
theorem Fields.assign_decodes : ∀ (fs : Fields), fs.Distinct → ∀ field ∈ fs.names,
    ∀ item, Value.Distinct item → ∀ name view,
    Decodes (fs.assign field item name view) (fs.Conforms [(field, item)])
      (fs.overlay view [(field, item)])
  | .nil, _, field, hf, _, _, _, _ => by simp [Fields.names] at hf
  | .cons n type rest, hd, field, hf, item, hi, name, (v, vs) => by
    rw [Fields.Distinct] at hd
    rw [Fields.Conforms, lookup_cons_eq n field item []]
    change Decodes (if n = field then type.valueMut v item name >>= fun slot => pure (slot, vs)
      else rest.assign field item name vs >>= fun vs => pure (v, vs)) _
      (match List.lookup n [(field, item)] with
        | some item => type.overlay v item
        | none => v, rest.overlay vs [(field, item)])
    rw [lookup_cons_eq n field item []]
    by_cases hn : n = field
    · subst hn
      rw [if_pos rfl, if_pos rfl]
      refine ((type.valueMut_decodes hd.2.1 item hi name v).map fun _ => ?_).congr ?_
      · rw [rest.overlay_of_not_mem vs hd.1]
      · simp [rest.conforms_of_not_mem hd.1]
    · have hr : field ∈ rest.names := by
        rw [Fields.names, List.mem_cons] at hf
        exact hf.resolve_left (Ne.symm hn)
      rw [if_neg hn, if_neg hn]
      exact ((rest.assign_decodes hd.2.2 field hr item hi name vs).map fun _ => rfl).congr
        (by simp)

/-- A slot takes the values that conform to its type, and then holds the overlay. -/
theorem FieldType.valueMut_decodes : ∀ (f : FieldType), f.Distinct → ∀ value,
    Value.Distinct value → ∀ name slot,
    Decodes (f.valueMut slot value name) (f.Conforms value) (f.overlay slot value)
  | .simple e, hd, value, hv, name, slot => by
    rw [FieldType.valueMut, FieldType.Conforms, FieldType.overlay]
    exact e.simple_decodes hd value hv name slot
  | .array (.prim k) n, _, value, _, name, slot => by
    rw [FieldType.valueMut, FieldType.Conforms]
    refine jsonArray_decodes value name fun items hi => ?_
    subst hi
    rw [FieldType.overlay]
    exact arrayPrim_decodes k slot items name
  | .array (.message m fields) n, hd, value, hv, name, slot => by
    rw [FieldType.valueMut, FieldType.Conforms]
    refine jsonArray_decodes value name fun items hi => ?_
    subst hi
    rw [FieldType.overlay]
    refine (fill_decodes (fun view item hm => ?_) slot name).congr (and_iff_right rfl)
    exact (ElemType.message m fields).simple_decodes hd item
      (Value.distinctElements_iff.mp hv _ hm) name view
  | .sequence (.prim k), _, value, _, name, slot => by
    rw [FieldType.valueMut, FieldType.Conforms]
    refine jsonArray_decodes value name fun items hi => ?_
    subst hi
    rw [FieldType.overlay]
    exact sequencePrim_decodes k items name
  | .sequence (.message m fields), hd, value, hv, name, slot => by
    rw [FieldType.valueMut, FieldType.Conforms]
    refine jsonArray_decodes value name fun items hi => ?_
    subst hi
    rw [FieldType.overlay]
    have h := refill_decodes (e := .message m fields)
      (o := fun x item => (ElemType.message m fields).overlay x item)
      (fun view item hm => (ElemType.message m fields).simple_decodes hd item
        (Value.distinctElements_iff.mp hv _ hm) name view)
    exact h.congr (and_iff_right rfl)
  | .boundedSequence (.prim k) bound, _, value, _, name, slot => by
    rw [FieldType.valueMut, FieldType.Conforms]
    refine jsonArray_decodes value name fun items hi => ?_
    subst hi
    rw [FieldType.overlay]
    exact boundedSequencePrim_decodes k slot items name
  | .boundedSequence (.message m fields) bound, hd, value, hv, name, slot => by
    rw [FieldType.valueMut, FieldType.Conforms]
    refine jsonArray_decodes value name fun items hi => ?_
    subst hi
    rw [FieldType.overlay]
    have h := resizeFill_decodes (e := .message m fields)
      (o := fun x item => (ElemType.message m fields).overlay x item)
      (fun view item hm => (ElemType.message m fields).simple_decodes hd item
        (Value.distinctElements_iff.mp hv _ hm) name view) slot name
    exact h.congr (and_iff_right rfl)

theorem ElemType.simple_decodes : ∀ (e : ElemType), e.Distinct → ∀ value, Value.Distinct value →
    ∀ name slot, Decodes (e.simple slot value name) (e.Conforms value) (e.overlay slot value)
  | .prim k, _, value, _, name, slot => by
    rw [ElemType.simple, ElemType.Conforms, ElemType.overlay]
    exact simplePrim_decodes k value name slot
  | .message m fields, hd, value, hv, name, slot => by
    rw [ElemType.simple, ElemType.Conforms]
    exact messageView_decodes (C := fields.Conforms) (o := fields.overlay) slot value name
      fun object ho hm =>
        assignMembers_decodes fields (fun field => s!"{name}.{field}")
          (fun field hf item hi name view => fields.assign_decodes hd field hf item hi name view)
          object slot (by subst ho; exact hv.1) (by subst ho; exact hv.2) hm

end

end Members

/-- Decoding succeeds on the values that conform to the type, and lays them over the message;
anywhere else it gives an error, and never panics. -/
theorem decode_decodes [Rclrs] (T : MessageType) (message : T.Val) {value : Value}
    (hv : Value.Distinct value) :
    Decodes (decode message value) (T.Conforms value) (T.overlay message value) := by
  unfold MessageType.Conforms MessageType.overlay
  rw [ElemType.Conforms]
  cases value with
  | object object =>
    unfold decode
    simp only [Value.asObject]
    by_cases hm : ∀ member ∈ object, member.1 ∈ T.fields.names
    · rw [find?_eq_none_iff.mpr hm]
      refine (assignMembers_decodes T.fields id (fun field hf item hi name view =>
        T.fields.assign_decodes T.distinct field hf item hi name view) object message hv.1 hv.2
        hm).congr ⟨?_, fun hc => ⟨object, rfl, hm, hc⟩⟩
      rintro ⟨_, ho, -, hc⟩
      cases ho
      exact hc
    · obtain ⟨member, hf⟩ := Option.ne_none_iff_exists'.mp (mt find?_eq_none_iff.mp hm)
      rw [hf]
      refine (Decodes.error _ _).congr (iff_of_false ?_ id)
      rintro ⟨_, ho, hc, -⟩
      cases ho
      exact hm hc
  | null | bool _ | number _ | string _ | array _ => exact (Decodes.error _ _).congr (by simp)

/-- The decoder accepts exactly the conforming JSON, applies it as an overlay, and never asks for
a field that is not there. -/
theorem decode_eq_ok_iff [Rclrs] (T : MessageType) (message : T.Val) {value : Value}
    (hv : Value.Distinct value) :
    (∀ message' : T.Val, decode message value = .ok message'
        ↔ T.Conforms value ∧ message' = T.overlay message value)
      ∧ ∀ text, decode message value ≠ .error (.panic text) := by
  obtain ⟨hok, herr⟩ := decode_decodes T message hv
  by_cases hc : T.Conforms value
  · simp only [hok hc, Except.ok.injEq, hc, true_and, ne_eq, reduceCtorEq, not_false_eq_true,
      implies_true, and_true]
    exact fun message' => eq_comm
  · obtain ⟨text, h⟩ := herr hc
    simp [h, hc]

section Witness

open Reference

def segmentType : MessageType :=
  ⟨"test/msg/Segment",
    .cons "id" (.simple (.prim .uint8)) (.cons "ends" (.array (.message "test/msg/Point"
      (.cons "x" (.simple (.prim .int32)) (.cons "y" (.simple (.prim .int32)) .nil))) 2) .nil), by
    simp [Fields.Distinct, FieldType.Distinct, ElemType.Distinct, Fields.names]⟩

def segment (id : UInt8) (x y x' y' : Int32) : segmentType.Val :=
  (id, ⟨[(x, y, ()), (x', y', ())], rfl⟩, ())

/-- Each element of the array names one of its two fields. -/
def halfEnds : Value :=
  .object [("ends", .array [.object [("x", .number (.posInt 1))],
    .object [("y", .number (.negInt (-2)))]])]

theorem decode_halfEnds :
    decode (segment 7 3 4 5 6) halfEnds = .ok (segment 7 1 4 5 (-2)) := by
  refine ((decode_eq_ok_iff segmentType (segment 7 3 4 5 6) ?_).1 _).mpr ⟨?_, by rfl⟩
  · simp [halfEnds, Value.Distinct, Value.DistinctMembers, Value.DistinctElements]
  · simp [halfEnds, segmentType, MessageType.Conforms, ElemType.Conforms, FieldType.Conforms,
      Fields.Conforms, Fields.names, ElemType.isLongDouble, Prim.Conforms, InRange, Value.integer]
    refine ⟨?_, ⟨by decide, ?_⟩, ?_, by decide⟩ <;> intro item h <;> simp [List.lookup_cons] at h

end Witness

end PgRos2
