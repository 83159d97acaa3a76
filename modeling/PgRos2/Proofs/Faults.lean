import PgRos2.Proofs.Decode

/-!
# What a refusal names

A value that does not conform has a fault: the fields on the way to it and what is wrong there. The
decoder stops at one of them and says which (`decode_refuses`). Two runs of the decoder that start
from different messages are compared step by step, since what a slot held before is not looked at
(`Alike`).
-/

namespace PgRos2

open Lib

/-- What is wrong with a value, for the slot it is written to. -/
inductive Fault where
  | number
  | boolean
  | integer
  | outOfRange (i : ℤ)
  | string
  | tooLong
  | longDouble
  | array
  | arrayLength (expected actual : ℕ)
  | sequenceLength (bound actual : ℕ)
  | object
  | unknownField (field : String)
  deriving DecidableEq

/-- What the decoder says of a fault of the slot `name`. -/
def Fault.text [Rclrs] (name : String) : Fault → String
  | .number => s!"{name}: expected a JSON number or null"
  | .boolean => s!"{name}: expected a JSON boolean"
  | .integer => s!"{name}: expected a JSON integer"
  | .outOfRange i => s!"{name}: integer {i} is out of range"
  | .string => s!"{name}: expected a JSON string"
  | .tooLong => s!"{name}: string exceeds its ROS bound"
  | .longDouble => s!"{name}: long double fields are unsupported"
  | .array => s!"{name}: expected a JSON array"
  | .arrayLength expected actual => s!"{name}: expected {expected} array elements, got {actual}"
  | .sequenceLength bound actual =>
    s!"{name}: {actual} sequence elements exceed the ROS bound of {bound}"
  | .object => s!"{name}: expected a JSON object"
  | .unknownField field => s!"{name}: unknown message field {Rclrs.debug field}"

/-- The slot a path of fields leads to from the slot of a name. -/
def dotted (name : String) (path : List String) : String :=
  path.foldl (fun name field => s!"{name}.{field}") name

/-- What the decoder says of a fault a path of fields leads to. The whole message has no name. -/
def Fault.located [Rclrs] (fault : Fault) : List String → String
  | [] =>
    match fault with
    | .unknownField field => s!"unknown message field {Rclrs.debug field}"
    | _ => "message must be a JSON object"
  | field :: path => fault.text (dotted field path)

section Faulty

def FaultyInt (T : Type) [FixedInt T] (value : Value) : Fault → Prop
  | .integer => Value.integer value = none
  | .outOfRange i => Value.integer value = some i ∧ ¬ (FixedInt.lo T ≤ i ∧ i ≤ FixedInt.hi T)
  | _ => False

def FaultyString (length : String → ℕ) (bound : ℕ) (value : Value) : Fault → Prop
  | .string => ∀ s, value ≠ .string s
  | .tooLong => ∃ s, value = .string s ∧ bound < length s
  | _ => False

variable [Bounds]

def Prim.Faulty : Prim → Value → Fault → Prop
  | .float, value, fault => fault = .number ∧ value ≠ .null ∧ ∀ n, value ≠ .number n
  | .double, value, fault => fault = .number ∧ value ≠ .null ∧ ∀ n, value ≠ .number n
  | .longDouble, _, fault => fault = .longDouble
  | .char, value, fault => FaultyInt UInt8 value fault
  | .wChar, value, fault => FaultyInt UInt16 value fault
  | .boolean, value, fault => fault = .boolean ∧ ∀ b, value ≠ .bool b
  | .octet, value, fault => FaultyInt UInt8 value fault
  | .uint8, value, fault => FaultyInt UInt8 value fault
  | .int8, value, fault => FaultyInt Int8 value fault
  | .uint16, value, fault => FaultyInt UInt16 value fault
  | .int16, value, fault => FaultyInt Int16 value fault
  | .uint32, value, fault => FaultyInt UInt32 value fault
  | .int32, value, fault => FaultyInt Int32 value fault
  | .uint64, value, fault => FaultyInt UInt64 value fault
  | .int64, value, fault => FaultyInt Int64 value fault
  | .string, value, fault => fault = .string ∧ ∀ s, value ≠ .string s
  | .boundedString bound, value, fault => FaultyString Bounds.stringLength bound value fault
  | .wString, value, fault => fault = .string ∧ ∀ s, value ≠ .string s
  | .boundedWString bound, value, fault => FaultyString Bounds.wstringLength bound value fault

/-- The faults of an array: of the whole, or of an item, which has no name of its own. -/
def FaultyItems (items : List Value) (whole : Fault → Prop)
    (item : Value → List String → Fault → Prop) (path : List String) (fault : Fault) : Prop :=
  path = [] ∧ whole fault ∨ ∃ x ∈ items, item x path fault

def FaultyArray (value : Value) (whole : List Value → Fault → Prop)
    (item : Value → List String → Fault → Prop) (path : List String) (fault : Fault) : Prop :=
  path = [] ∧ fault = .array ∧ (∀ items, value ≠ .array items)
    ∨ ∃ items, value = .array items ∧ FaultyItems items (whole items) item path fault

/-- An array, a sequence or a bounded sequence as a whole. -/
def ElemType.FaultyLength (e : ElemType) (n : ℕ) (items : List Value) (fault : Fault) : Prop :=
  e.isLongDouble = true ∧ fault = .longDouble
    ∨ items.length ≠ n ∧ fault = .arrayLength n items.length

def ElemType.FaultyKind (e : ElemType) (_ : List Value) (fault : Fault) : Prop :=
  e.isLongDouble = true ∧ fault = .longDouble

def ElemType.FaultyBound (e : ElemType) (bound : ℕ) (items : List Value) (fault : Fault) : Prop :=
  e.isLongDouble = true ∧ fault = .longDouble
    ∨ bound < items.length ∧ fault = .sequenceLength bound items.length

mutual

/-- A fault of an object's member that names a field. -/
def Fields.Faulty : Fields → List (String × Value) → List String → Fault → Prop
  | .nil, _, _, _ => False
  | .cons name type rest, object, path, fault =>
    (∃ item path', (name, item) ∈ object ∧ path = name :: path' ∧ type.Faulty item path' fault)
      ∨ rest.Faulty object path fault

def FieldType.Faulty : FieldType → Value → List String → Fault → Prop
  | .simple e, value, path, fault => e.Faulty value path fault
  | .array e n, value, path, fault =>
    FaultyArray value (e.FaultyLength n) (fun x path fault => e.Faulty x path fault) path fault
  | .sequence e, value, path, fault =>
    FaultyArray value e.FaultyKind (fun x path fault => e.Faulty x path fault) path fault
  | .boundedSequence e bound, value, path, fault =>
    FaultyArray value (e.FaultyBound bound) (fun x path fault => e.Faulty x path fault) path fault

def ElemType.Faulty : ElemType → Value → List String → Fault → Prop
  | .prim k, value, path, fault => path = [] ∧ k.Faulty value fault
  | .message _ fields, value, path, fault =>
    (path = [] ∧ fault = .object ∧ ∀ object, value ≠ .object object)
      ∨ ∃ object, value = .object object
        ∧ ((path = [] ∧ ∃ member ∈ object, member.1 ∉ fields.names
          ∧ fault = .unknownField member.1) ∨ fields.Faulty object path fault)

end

/-- The faults of a JSON value for a message type. -/
def MessageType.Faulty (T : MessageType) (value : Value) (path : List String) (fault : Fault) :
    Prop :=
  (ElemType.message T.name T.fields).Faulty value path fault

end Faulty

/-- Both runs succeed, or both give the same error text, of which `P` holds. -/
def Alike {α β : Type} (r : Except Failure α) (r' : Except Failure β) (P : String → Prop) : Prop :=
  (∃ x x', r = .ok x ∧ r' = .ok x')
    ∨ ∃ text, r = .error (.error text) ∧ r' = .error (.error text) ∧ P text

namespace Alike

variable {α β γ δ : Type} {r : Except Failure α} {r' : Except Failure β} {P P' : String → Prop}

theorem ok (x : α) (x' : β) : Alike (.ok x) (.ok x') P := .inl ⟨x, x', rfl, rfl⟩

theorem error {text : String} (h : P text) :
    Alike (.error (.error text) : Except Failure α) (.error (.error text) : Except Failure β) P :=
  .inr ⟨text, rfl, rfl, h⟩

theorem mono (h : Alike r r' P) (hP : ∀ text, P text → P' text) : Alike r r' P' :=
  h.imp_right fun ⟨text, hr, hr', ht⟩ => ⟨text, hr, hr', hP text ht⟩

theorem bind {f : α → Except Failure γ} {f' : β → Except Failure δ} (h : Alike r r' P)
    (hf : ∀ x x', r = .ok x → r' = .ok x' → Alike (f x) (f' x') P) :
    Alike (r >>= f) (r' >>= f') P := by
  obtain ⟨x, x', hr, hr'⟩ | ⟨text, hr, hr', ht⟩ := h
  · have hx := hf x x' hr hr'
    rw [hr, hr']
    exact hx
  · rw [hr, hr']
    exact error ht

theorem map {f : α → γ} {f' : β → δ} (h : Alike r r' P) :
    Alike (r >>= fun x => pure (f x)) (r' >>= fun x => pure (f' x)) P :=
  h.bind fun x x' _ _ => ok (f x) (f' x')

end Alike

section Primitives

variable [Rclrs]

/-- The text of a fault of the slot `name`, or of one under it. -/
def Names (faulty : List String → Fault → Prop) (name text : String) : Prop :=
  ∃ path fault, faulty path fault ∧ text = fault.text (dotted name path)

theorem Names.here {faulty : List String → Fault → Prop} {name : String} (fault : Fault)
    (h : faulty [] fault) : Names faulty name (fault.text name) := ⟨[], fault, h, rfl⟩

theorem Names.mono {faulty faulty' : List String → Fault → Prop} {name text : String}
    (h : Names faulty name text) (hf : ∀ path fault, faulty path fault → faulty' path fault) :
    Names faulty' name text :=
  h.imp fun path h => h.imp fun fault h => ⟨hf path fault h.1, h.2⟩

theorem integer_alike {T : Type} [FixedInt T] (value : Value) (name : String) :
    Alike (integer (T := T) value name) (integer (T := T) value name)
      (Names (fun path fault => path = [] ∧ FaultyInt T value fault) name) := by
  unfold integer
  rw [integer_eq]
  rcases h : Value.integer value with _ | i
  · exact .error (Names.here .integer ⟨rfl, h⟩)
  · by_cases hi : FixedInt.lo T ≤ i ∧ i ≤ FixedInt.hi T
    · simp only [FixedInt.tryFrom, if_pos hi]
      exact .ok _ _
    · simp only [FixedInt.tryFrom, if_neg hi]
      exact .error (Names.here (.outOfRange i) ⟨rfl, h, hi⟩)

theorem float64_alike (value : Value) (name : String) :
    Alike (float64 value name) (float64 value name)
      (Names ((ElemType.prim .double).Faulty value) name) :=
  match value with
  | .null => .ok f64Nan f64Nan
  | .number n => .ok n.asF64 n.asF64
  | .bool _ | .string _ | .array _ | .object _ =>
    .error (Names.here .number ⟨rfl, rfl, nofun, nofun⟩)

theorem boolean_alike (value : Value) (name : String) :
    Alike (boolean value name) (boolean value name)
      (Names ((ElemType.prim .boolean).Faulty value) name) :=
  match value with
  | .bool b => .ok b b
  | .null | .number _ | .string _ | .array _ | .object _ =>
    .error (Names.here .boolean ⟨rfl, rfl, nofun⟩)

theorem string_alike (value : Value) (name : String) :
    Alike (string value name) (string value name)
      (Names ((ElemType.prim .string).Faulty value) name) :=
  match value with
  | .string s => .ok s s
  | .null | .bool _ | .number _ | .array _ | .object _ =>
    .error (Names.here .string ⟨rfl, rfl, nofun⟩)

theorem tryAssign_alike (length : String → ℕ) (bound : ℕ) (value : Value) (name : String) :
    Alike (tryAssign length bound value name) (tryAssign length bound value name)
      (Names (fun path fault => path = [] ∧ FaultyString length bound value fault) name) := by
  unfold tryAssign
  refine ((string_alike value name).mono fun text h => h.mono ?_).bind fun s s' hs hs' => ?_
  · rintro path fault ⟨hpath, rfl, hno⟩
    exact ⟨hpath, hno⟩
  · obtain rfl : s = s' := Except.ok.inj (hs.symm.trans hs')
    by_cases h : length s ≤ bound
    · rw [dif_pos h]
      exact .ok _ _
    · rw [dif_neg h]
      refine .error (Names.here .tooLong ⟨rfl, s, ?_, not_le.mp h⟩)
      unfold string at hs
      cases value <;> cases hs
      rfl

/-- A primitive slot refuses a value for a fault of it, and looks at nothing else. -/
theorem simplePrim_alike : ∀ (k : Prim) (value : Value) (name : String),
    Alike (simplePrim k value name) (simplePrim k value name)
      (Names ((ElemType.prim k).Faulty value) name)
  | .float, value, name => (float64_alike value name).map
  | .double, value, name => float64_alike value name
  | .longDouble, _, _ => .error (Names.here .longDouble ⟨rfl, rfl⟩)
  | .boolean, value, name => boolean_alike value name
  | .string, value, name | .wString, value, name => string_alike value name
  | .boundedString bound, value, name => tryAssign_alike Bounds.stringLength bound value name
  | .boundedWString bound, value, name => tryAssign_alike Bounds.wstringLength bound value name
  | .char, value, name | .octet, value, name | .uint8, value, name =>
    integer_alike (T := UInt8) value name
  | .wChar, value, name | .uint16, value, name => integer_alike (T := UInt16) value name
  | .int8, value, name => integer_alike (T := Int8) value name
  | .int16, value, name => integer_alike (T := Int16) value name
  | .uint32, value, name => integer_alike (T := UInt32) value name
  | .int32, value, name => integer_alike (T := Int32) value name
  | .uint64, value, name => integer_alike (T := UInt64) value name
  | .int64, value, name => integer_alike (T := Int64) value name

end Primitives

section Loops

variable {T : Type} {write : T → Value → Except Failure T} {P : String → Prop}

theorem overwrite_alike : ∀ (slot slot' : List T) (items : List Value),
    slot.length = slot'.length →
    (∀ x x', ∀ item ∈ items, Alike (write x item) (write x' item) P) →
    Alike (overwrite write slot items) (overwrite write slot' items) P
  | [], [], _, _, _ => .ok _ _
  | _ :: _, _ :: _, [], _, _ => .ok _ _
  | x :: slot, x' :: slot', item :: items, h, hw => by
    rw [overwrite, overwrite]
    refine (hw x x' item List.mem_cons_self).bind fun y y' _ _ => ?_
    exact (overwrite_alike slot slot' items (Nat.succ.inj h) fun x x' item hm =>
      hw x x' item (List.mem_cons_of_mem _ hm)).map

theorem mapM_alike {read : Value → Except Failure T} : ∀ items : List Value,
    (∀ item ∈ items, Alike (read item) (read item) P) →
    Alike (items.mapM read) (items.mapM read) P
  | [], _ => .ok _ _
  | item :: items, hw => by
    rw [List.mapM_cons]
    refine (hw item List.mem_cons_self).bind fun y y' _ _ => ?_
    exact (mapM_alike items fun item hm => hw item (List.mem_cons_of_mem _ hm)).map

variable {items : List Value}

theorem fill_alike {n : ℕ} (slot slot' : Slice T n) (name : String)
    (hlength : items.length ≠ n →
      P s!"{name}: expected {n} array elements, got {items.length}")
    (hw : ∀ x x', ∀ item ∈ items, Alike (write x item) (write x' item) P) :
    Alike (fill write slot items name) (fill write slot' items name) P := by
  have hcheck : Alike (checkLength slot.1.length items.length name)
      (checkLength slot'.1.length items.length name) P := by
    unfold checkLength
    rw [slot.2, slot'.2]
    split_ifs with h
    · exact .ok () ()
    · exact .error (hlength (Ne.symm h))
  exact hcheck.bind fun _ _ _ _ =>
    (overwrite_alike slot.1 slot'.1 items (slot.2.trans slot'.2.symm) hw).map

end Loops

section Resets

variable [Rclrs] {e : ElemType} {write : e.Val → Value → Except Failure e.Val}
  {items : List Value} {P : String → Prop}

theorem refill_alike
    (hw : ∀ x x', ∀ item ∈ items, Alike (write x item) (write x' item) P) :
    Alike (refill e write items) (refill e write items) P :=
  (overwrite_alike _ _ items rfl hw).map

theorem resizeFill_alike {bound : ℕ} (name : String)
    (hlength : bound < items.length →
      P s!"{name}: {items.length} sequence elements exceed the ROS bound of {bound}")
    (hw : ∀ x x', ∀ item ∈ items, Alike (write x item) (write x' item) P) :
    Alike (resizeFill e bound write items name) (resizeFill e bound write items name) P := by
  unfold resizeFill resize tryReset
  by_cases h : items.length ≤ bound
  · rw [if_neg (not_lt.mpr h), dif_pos h]
    exact (overwrite_alike _ _ items rfl hw).map
  · rw [if_pos (not_le.mp h)]
    exact .error (hlength (not_le.mp h))

end Resets

section Containers

variable [Rclrs] {items : List Value} {whole : Fault → Prop} {name : String}
  {faulty : Value → List String → Fault → Prop}

theorem Names.of_whole (fault : Fault) (h : whole fault) :
    Names (FaultyItems items whole faulty) name (fault.text name) :=
  Names.here fault (.inl ⟨rfl, h⟩)

theorem Names.item {text : String} {x : Value} (hx : x ∈ items) (h : Names (faulty x) name text) :
    Names (FaultyItems items whole faulty) name text :=
  h.mono fun _ _ h => .inr ⟨x, hx, h⟩

/-- A value that is no array is refused, and an array for what its items are refused for. -/
theorem jsonArray_alike {α : Type} {f f' : List Value → Except Failure α}
    {whole : List Value → Fault → Prop} (value : Value) (name : String)
    (h : ∀ items, value = .array items →
      Alike (f items) (f' items) (Names (FaultyItems items (whole items) faulty) name)) :
    Alike (jsonArray value name >>= f) (jsonArray value name >>= f')
      (Names (FaultyArray value whole faulty) name) := by
  cases value with
  | array items =>
    exact (h items rfl).mono fun text h => h.mono fun path fault h => .inr ⟨items, rfl, h⟩
  | null | bool _ | number _ | string _ | object _ =>
    exact .error (Names.here .array (.inl ⟨rfl, rfl, by simp⟩))

theorem item_alike (whole : Fault → Prop) (k : Prim) (name : String) {x : Value}
    (hx : x ∈ items) :
    Alike (simplePrim k x name) (simplePrim k x name)
      (Names (FaultyItems items whole (ElemType.prim k).Faulty) name) :=
  (simplePrim_alike k x name).mono fun _ => Names.item hx

theorem arrayPrim_alike (k : Prim) {n : ℕ} (slot slot' : Slice k.Carrier n) (name : String) :
    Alike (arrayPrim k slot items name) (arrayPrim k slot' items name)
      (Names (FaultyItems items ((ElemType.prim k).FaultyLength n items)
        (ElemType.prim k).Faulty) name) := by
  have hs := fun x (hx : x ∈ items) =>
    item_alike ((ElemType.prim k).FaultyLength n items) k name hx
  have h := fill_alike slot slot' name
    (fun hn => Names.of_whole (.arrayLength n items.length) (.inr ⟨hn, rfl⟩))
    fun _ _ => hs
  cases k
  case longDouble => exact .error (Names.of_whole .longDouble (.inl ⟨rfl, rfl⟩))
  all_goals exact h

theorem sequencePrim_alike (k : Prim) (name : String) :
    Alike (sequencePrim k items name) (sequencePrim k items name)
      (Names (FaultyItems items ((ElemType.prim k).FaultyKind items)
        (ElemType.prim k).Faulty) name) := by
  have hs := fun x (hx : x ∈ items) =>
    item_alike ((ElemType.prim k).FaultyKind items) k name hx
  have hm := mapM_alike items hs
  have hr := refill_alike (e := .prim k) fun _ _ => hs
  cases k
  case longDouble => exact .error (Names.of_whole .longDouble ⟨rfl, rfl⟩)
  case boundedString => exact hr
  case boundedWString => exact hr
  all_goals exact hm

theorem boundedSequencePrim_alike (k : Prim) (bound : ℕ) (name : String) :
    Alike (boundedSequencePrim k bound items name) (boundedSequencePrim k bound items name)
      (Names (FaultyItems items ((ElemType.prim k).FaultyBound bound items)
        (ElemType.prim k).Faulty) name) := by
  have hs := fun x (hx : x ∈ items) =>
    item_alike ((ElemType.prim k).FaultyBound bound items) k name hx
  have h := resizeFill_alike (e := .prim k) name
    (fun hn => Names.of_whole (.sequenceLength bound items.length) (.inr ⟨hn, rfl⟩))
    fun _ _ => hs
  cases k
  case longDouble => exact .error (Names.of_whole .longDouble (.inl ⟨rfl, rfl⟩))
  all_goals exact h

end Containers

section Members

theorem assignMembers_alike {V : Type} {assign : String → Value → V → Except Failure V}
    {P : String → Prop} : ∀ (object : List (String × Value)) (view view' : V),
    (∀ member ∈ object, ∀ view view',
      Alike (assign member.1 member.2 view) (assign member.1 member.2 view') P) →
    Alike (assignMembers assign object view) (assignMembers assign object view') P
  | [], _, _, _ => .ok _ _
  | member :: object, view, view', hs => by
    rw [assignMembers, assignMembers]
    refine (hs member List.mem_cons_self view view').bind fun view view' _ _ => ?_
    exact assignMembers_alike object view view' fun member hm =>
      hs member (List.mem_cons_of_mem _ hm)

/-- A fault of a part of the members is one of them all. -/
theorem Fields.Faulty.mono [Bounds] {object object' : List (String × Value)}
    (hsub : object ⊆ object') {path : List String} {fault : Fault} :
    ∀ {fs : Fields}, fs.Faulty object path fault → fs.Faulty object' path fault
  | .cons _ _ rest, h => by
    rw [Fields.Faulty] at h ⊢
    refine h.imp ?_ fun h => h.mono hsub
    rintro ⟨item, path', hm, hpath, hfault⟩
    exact ⟨item, path', hsub hm, hpath, hfault⟩

variable [Rclrs]

theorem messageView_alike (fields : Fields) (m : String)
    (hs : ∀ field ∈ fields.names, ∀ item name view view',
      Alike (fields.assign field item name view) (fields.assign field item name view')
        (Names (fun path => fields.Faulty [(field, item)] (field :: path)) name))
    (view view' : fields.Val) (value : Value) (name : String) :
    Alike (messageView fields.names (fun f => fields.assign f) view value name)
      (messageView fields.names (fun f => fields.assign f) view' value name)
      (Names ((ElemType.message m fields).Faulty value) name) := by
  cases value with
  | object object =>
    unfold messageView
    simp only [Value.asObject]
    by_cases hm : ∀ member ∈ object, member.1 ∈ fields.names
    · rw [find?_eq_none_iff.mpr hm]
      refine assignMembers_alike object view view' fun member hmem view view' => ?_
      refine (hs member.1 (hm member hmem) member.2 s!"{name}.{member.1}" view view').mono ?_
      rintro text ⟨path, fault, hfault, rfl⟩
      have hsub : [(member.1, member.2)] ⊆ object := by simpa using hmem
      exact ⟨member.1 :: path, fault, .inr ⟨object, rfl, .inr (hfault.mono hsub)⟩, rfl⟩
    · obtain ⟨member, hf⟩ := Option.ne_none_iff_exists'.mp (mt find?_eq_none_iff.mp hm)
      have hno : member.1 ∉ fields.names := by simpa using List.find?_some hf
      rw [hf]
      exact .error (Names.here (.unknownField member.1)
        (.inr ⟨object, rfl, .inl ⟨rfl, member, List.mem_of_find?_eq_some hf, hno, rfl⟩⟩))
  | null | bool _ | number _ | string _ | array _ =>
    exact .error (Names.here .object (.inl ⟨rfl, rfl, by simp⟩))

mutual

/-- A member is refused for a fault of it, whatever the message holds. -/
theorem Fields.assign_alike : ∀ (fs : Fields), ∀ field ∈ fs.names, ∀ item name view view',
    Alike (fs.assign field item name view) (fs.assign field item name view')
      (Names (fun path => fs.Faulty [(field, item)] (field :: path)) name)
  | .cons n type rest, field, hf, item, name, (v, vs), (v', vs') => by
    change Alike (if n = field then type.valueMut v item name >>= fun slot => pure (slot, vs)
      else rest.assign field item name vs >>= fun vs => pure (v, vs))
      (if n = field then type.valueMut v' item name >>= fun slot => pure (slot, vs')
      else rest.assign field item name vs' >>= fun vs => pure (v', vs)) _
    by_cases hn : n = field
    · subst hn
      rw [if_pos rfl, if_pos rfl]
      refine ((type.valueMut_alike item name v v').mono fun text h => ?_).map
      exact h.mono fun path fault h => .inl ⟨item, path, List.mem_cons_self, rfl, h⟩
    · have hr : field ∈ rest.names := by
        rw [Fields.names, List.mem_cons] at hf
        exact hf.resolve_left (Ne.symm hn)
      rw [if_neg hn, if_neg hn]
      refine ((rest.assign_alike field hr item name vs vs').mono fun text h => ?_).map
      exact h.mono fun path fault h => .inr h

theorem FieldType.valueMut_alike : ∀ (f : FieldType) (value : Value) (name : String)
    (slot slot' : f.Val), Alike (f.valueMut slot value name) (f.valueMut slot' value name)
      (Names (f.Faulty value) name)
  | .simple e, value, name, slot, slot' => e.simple_alike value name slot slot'
  | .array (.prim k) _, value, name, slot, slot' =>
    jsonArray_alike value name fun _ _ => arrayPrim_alike k slot slot' name
  | .array (.message m fields) n, value, name, slot, slot' =>
    jsonArray_alike value name fun items _ =>
      fill_alike slot slot' name
        (fun hn => Names.of_whole (.arrayLength n items.length) (.inr ⟨hn, rfl⟩))
        fun view view' x hx =>
          ((ElemType.message m fields).simple_alike x name view view').mono fun _ => Names.item hx
  | .sequence (.prim k), value, name, _, _ =>
    jsonArray_alike value name fun _ _ => sequencePrim_alike k name
  | .sequence (.message m fields), value, name, _, _ =>
    jsonArray_alike value name fun _ _ =>
      refill_alike (e := .message m fields) fun view view' x hx =>
        ((ElemType.message m fields).simple_alike x name view view').mono fun _ => Names.item hx
  | .boundedSequence (.prim k) bound, value, name, _, _ =>
    jsonArray_alike value name fun _ _ => boundedSequencePrim_alike k bound name
  | .boundedSequence (.message m fields) bound, value, name, _, _ =>
    jsonArray_alike value name fun items _ =>
      resizeFill_alike (e := .message m fields) name
        (fun hn => Names.of_whole (.sequenceLength bound items.length) (.inr ⟨hn, rfl⟩))
        fun view view' x hx =>
          ((ElemType.message m fields).simple_alike x name view view').mono fun _ => Names.item hx

theorem ElemType.simple_alike : ∀ (e : ElemType) (value : Value) (name : String)
    (slot slot' : e.Val), Alike (e.simple slot value name) (e.simple slot' value name)
      (Names (e.Faulty value) name)
  | .prim k, value, name, _, _ => simplePrim_alike k value name
  | .message m fields, value, name, slot, slot' =>
    messageView_alike fields m (fun field hf item name view view' =>
      fields.assign_alike field hf item name view view') slot slot' value name

end

end Members

/-! ## Faults and conforming -/

section Conforming

theorem FaultyInt.not_inRange {T : Type} [FixedInt T] {value : Value} {fault : Fault}
    (h : FaultyInt T value fault) : ¬ InRange T value := by
  rintro ⟨i, hi, hlo, hhi⟩
  cases fault with
  | integer => exact absurd (hi.symm.trans h) nofun
  | outOfRange j =>
    obtain rfl : i = j := Option.some.inj (hi.symm.trans h.1)
    exact h.2 ⟨hlo, hhi⟩
  | _ => exact h

theorem FaultyString.not_le {length : String → ℕ} {bound : ℕ} {value : Value} {fault : Fault}
    (h : FaultyString length bound value fault) :
    ¬ ∃ s, value = .string s ∧ length s ≤ bound := by
  rintro ⟨s, rfl, hs⟩
  cases fault with
  | string => exact h s rfl
  | tooLong =>
    obtain ⟨s', hs', hlt⟩ := h
    cases hs'
    omega
  | _ => exact h

variable [Bounds]

theorem Prim.Faulty.not_conforms {value : Value} {fault : Fault} :
    ∀ {k : Prim}, k.Faulty value fault → ¬ k.Conforms value
  | .float, h | .double, h => by
    rintro (hnull | ⟨n, hn⟩)
    · exact h.2.1 hnull
    · exact h.2.2 n hn
  | .longDouble, _ => id
  | .boolean, h | .string, h | .wString, h => fun ⟨b, hb⟩ => h.2 b hb
  | .boundedString _, h | .boundedWString _, h => FaultyString.not_le h
  | .char, h | .octet, h | .uint8, h | .wChar, h | .uint16, h | .int8, h | .int16, h | .uint32, h
  | .int32, h | .uint64, h | .int64, h => FaultyInt.not_inRange h

omit [Bounds] in
/-- A faulty array is not one of conforming items for which `whole` has no fault. -/
theorem FaultyArray.not_conforms {value : Value} {whole : List Value → Fault → Prop}
    {faulty : Value → List String → Fault → Prop} {path : List String} {fault : Fault}
    {C : List Value → Prop} (h : FaultyArray value whole faulty path fault)
    (hw : ∀ items, whole items fault → ¬ C items)
    (hi : ∀ items, value = .array items → ∀ x ∈ items, faulty x path fault → ¬ C items) :
    ¬ ∃ items, value = .array items ∧ C items := by
  rintro ⟨items, rfl, hC⟩
  obtain ⟨-, -, hno⟩ | ⟨items', he, ⟨-, hwhole⟩ | ⟨x, hx, hfault⟩⟩ := h
  · exact hno items rfl
  · cases he
    exact hw items hwhole hC
  · cases he
    exact hi items rfl x hx hfault hC

mutual

theorem Fields.Faulty.not_conforms {object : List (String × Value)} {path : List String}
    {fault : Fault} (hn : (object.map Prod.fst).Nodup) (hd : Value.DistinctMembers object) :
    ∀ {fs : Fields}, fs.Faulty object path fault → ¬ fs.Conforms object
  | .cons n type rest, h, hc => by
    obtain ⟨item, path', hm, -, hfault⟩ | h := h
    · exact hfault.not_conforms (Value.distinctMembers_iff.mp hd _ hm)
        (hc.1 item (lookup_of_mem hn hm))
    · exact h.not_conforms hn hd hc.2

theorem FieldType.Faulty.not_conforms {value : Value} {path : List String} {fault : Fault}
    (hv : Value.Distinct value) : ∀ {f : FieldType}, f.Faulty value path fault → ¬ f.Conforms value
  | .simple _, h => ElemType.Faulty.not_conforms hv h
  | .array e n, h => by
    refine FaultyArray.not_conforms h ?_ ?_
    · rintro items (⟨hl, -⟩ | ⟨hl, -⟩) ⟨hc, hlen, -⟩
      · exact absurd (hc.symm.trans hl) nofun
      · exact hl hlen
    · rintro items rfl x hx hfault ⟨-, -, hc⟩
      exact hfault.not_conforms (Value.distinctElements_iff.mp hv _ hx) (hc x hx)
  | .sequence e, h => by
    refine FaultyArray.not_conforms h ?_ ?_
    · rintro items ⟨hl, -⟩ ⟨hc, -⟩
      exact absurd (hc.symm.trans hl) nofun
    · rintro items rfl x hx hfault ⟨-, hc⟩
      exact hfault.not_conforms (Value.distinctElements_iff.mp hv _ hx) (hc x hx)
  | .boundedSequence e bound, h => by
    refine FaultyArray.not_conforms h ?_ ?_
    · rintro items (⟨hl, -⟩ | ⟨hl, -⟩) ⟨hc, hlen, -⟩
      · exact absurd (hc.symm.trans hl) nofun
      · omega
    · rintro items rfl x hx hfault ⟨-, -, hc⟩
      exact hfault.not_conforms (Value.distinctElements_iff.mp hv _ hx) (hc x hx)

theorem ElemType.Faulty.not_conforms {value : Value} {path : List String} {fault : Fault}
    (hv : Value.Distinct value) : ∀ {e : ElemType}, e.Faulty value path fault → ¬ e.Conforms value
  | .prim _, h => h.2.not_conforms
  | .message _ fields, h => by
    rintro ⟨object, rfl, hm, hc⟩
    obtain ⟨-, -, hno⟩ | ⟨object', he, ⟨-, member, hmem, hunknown, -⟩ | h⟩ := h
    · exact hno object rfl
    · cases he
      exact hunknown (hm member hmem)
    · cases he
      exact h.not_conforms hv.1 hv.2 hc

end

end Conforming

/-! ## The decoder -/

/-- The decoder, on two messages of a type, succeeds on both or gives both times the text of one
fault of the value. -/
theorem decode_alike [Rclrs] (T : MessageType) (message message' : T.Val) (value : Value) :
    Alike (decode message value) (decode message' value)
      (fun text => ∃ path fault, T.Faulty value path fault ∧ text = fault.located path) := by
  cases value with
  | object object =>
    unfold decode
    simp only [Value.asObject]
    by_cases hm : ∀ member ∈ object, member.1 ∈ T.fields.names
    · rw [find?_eq_none_iff.mpr hm]
      refine assignMembers_alike object message message' fun member hmem view view' => ?_
      refine (T.fields.assign_alike member.1 (hm member hmem) member.2 member.1 view view').mono ?_
      rintro text ⟨path, fault, hfault, rfl⟩
      have hsub : [(member.1, member.2)] ⊆ object := by simpa using hmem
      exact ⟨member.1 :: path, fault, .inr ⟨object, rfl, .inr (hfault.mono hsub)⟩, rfl⟩
    · obtain ⟨member, hf⟩ := Option.ne_none_iff_exists'.mp (mt find?_eq_none_iff.mp hm)
      have hno : member.1 ∉ T.fields.names := by simpa using List.find?_some hf
      rw [hf]
      exact .error ⟨[], .unknownField member.1,
        .inr ⟨object, rfl, .inl ⟨rfl, member, List.mem_of_find?_eq_some hf, hno, rfl⟩⟩, rfl⟩
  | null | bool _ | number _ | string _ | array _ =>
    exact .error ⟨[], .object, .inl ⟨rfl, rfl, by simp⟩, rfl⟩

/-- A value has a fault just when it does not conform. Decoding it then gives the text of one of
its faults, the same whatever the message holds. -/
theorem decode_refuses [Rclrs] (T : MessageType) {value : Value} (hv : Value.Distinct value) :
    ((∃ path fault, T.Faulty value path fault) ↔ ¬ T.Conforms value)
      ∧ (¬ T.Conforms value → ∃ path fault, T.Faulty value path fault
        ∧ ∀ message : T.Val, decode message value = .error (.error (fault.located path))) := by
  have hrefuse : ¬ T.Conforms value → ∃ path fault, T.Faulty value path fault
      ∧ ∀ message : T.Val, decode message value = .error (.error (fault.located path)) := by
    intro hc
    obtain ⟨text, htext⟩ := (decode_decodes T T.default hv).2 hc
    have hnamed : ∀ message : T.Val, decode message value = .error (.error text)
        ∧ ∃ path fault, T.Faulty value path fault ∧ text = fault.located path := by
      intro message
      obtain ⟨x, _, hx, -⟩ | ⟨text', hd, hd', hP⟩ := decode_alike T T.default message value
      · exact absurd (hx.symm.trans htext) nofun
      · cases hd.symm.trans htext
        exact ⟨hd', hP⟩
    obtain ⟨-, path, fault, hfault, hlocated⟩ := hnamed T.default
    exact ⟨path, fault, hfault, fun message => hlocated ▸ (hnamed message).1⟩
  refine ⟨⟨?_, fun hc => ?_⟩, hrefuse⟩
  · rintro ⟨path, fault, h⟩
    exact h.not_conforms hv
  · obtain ⟨path, fault, h, -⟩ := hrefuse hc
    exact ⟨path, fault, h⟩

section Witness

open Reference

/-- The second end is out of the range of its field. -/
def farEnds : Value :=
  .object [("ends", .array [.object [("x", .number (.posInt 1))],
    .object [("y", .number (.posInt 2147483648))]])]

theorem farEnds_faulty :
    segmentType.Faulty farEnds ["ends", "y"] (.outOfRange 2147483648) := by
  simp [segmentType, MessageType.Faulty, ElemType.Faulty, Fields.Faulty, FieldType.Faulty,
    FaultyArray, FaultyItems, farEnds, Prim.Faulty, FaultyInt, Value.integer, Fields.names]
  decide

theorem decode_refuses_farEnds :
    segmentType.Faulty farEnds ["ends", "y"] (.outOfRange 2147483648)
      ∧ (Fault.outOfRange 2147483648).located ["ends", "y"]
        = "ends.y: integer 2147483648 is out of range"
      ∧ ∃ path fault, segmentType.Faulty farEnds path fault ∧ ∀ message : segmentType.Val,
        decode message farEnds = .error (.error (fault.located path)) := by
  have hv : Value.Distinct farEnds := by
    simp [farEnds, Value.Distinct, Value.DistinctMembers, Value.DistinctElements]
  have h := decode_refuses segmentType hv
  exact ⟨farEnds_faulty, rfl, h.2 (h.1.mp ⟨_, _, farEnds_faulty⟩)⟩

example : decode (segment 7 3 4 5 6) farEnds
    = .error (.error "ends.y: integer 2147483648 is out of range") := by rfl

end Witness

end PgRos2
