import PgRos2.Encode
import PgRos2.Tree
import PgRos2.Lib.JsonParse
import Mathlib.Tactic.SplitIfs
import Mathlib.Data.List.Lemmas

/-!
# What the encoder writes

Every writer either pushes one text, as a whole or not at all, or fails whatever the limit
(`Emits`): a writer that follows another pushes the two texts one after the other, and the walk
over a message pushes the text of its tree (`FieldType.encode_emits`). The scratch buffer of a
string never refuses what would have fitted, because quoting a string does not make it shorter.
-/

namespace PgRos2

open Lib

theorem utf8ByteSize_ofList (cs : List Char) :
    (String.ofList cs).utf8ByteSize = (cs.map Char.utf8Size).sum := by
  induction cs with
  | nil => rfl
  | cons c cs ih =>
    rw [← List.singleton_append, String.ofList_append, String.utf8ByteSize_append, ih,
      List.map_append, List.sum_append]
    congr 1
    exact String.utf8ByteSize_singleton

theorem utf8Size_of_toNat_lt {c : Char} (h : c.toNat < 128) : c.utf8Size = 1 := by
  rw [Char.utf8Size_eq_one_iff, UInt32.le_iff_toNat_le]
  change c.toNat ≤ 127
  omega

theorem utf8Size_le_escape (c : Char) : c.utf8Size ≤ ((Json.escape c).map Char.utf8Size).sum := by
  have hb : 1 ≤ Char.utf8Size '\\' := Char.utf8Size_pos _
  by_cases hc : c.toNat < 128
  · have hpos : 1 ≤ c.utf8Size := Char.utf8Size_pos c
    rw [utf8Size_of_toNat_lt hc]
    unfold Json.escape
    split_ifs <;> simp only [List.map_cons, List.sum_cons] <;> omega
  · have hq : c ≠ '"' := fun h => hc (by rw [h]; decide)
    have hs : c ≠ '\\' := fun h => hc (by rw [h]; decide)
    unfold Json.escape
    rw [if_neg hq, if_neg hs, if_neg (by omega), if_neg (by omega), if_neg (by omega),
      if_neg (by omega), if_neg (by omega), if_neg (by omega)]
    simp

/-- Quoting a string does not make it shorter. -/
theorem utf8ByteSize_le_quote (s : String) :
    s.utf8ByteSize ≤ (String.ofList (Json.quote s)).utf8ByteSize := by
  have h : ∀ cs : List Char, (cs.map Char.utf8Size).sum
      ≤ ((cs.flatMap Json.escape).map Char.utf8Size).sum := by
    intro cs
    induction cs with
    | nil => simp
    | cons c cs ih =>
      have hc := utf8Size_le_escape c
      simp only [List.map_cons, List.sum_cons, List.flatMap_cons, List.map_append, List.sum_append]
      omega
  have hs : s.utf8ByteSize = (s.toList.map Char.utf8Size).sum := by
    rw [← utf8ByteSize_ofList, String.ofList_toList]
  rw [hs, utf8ByteSize_ofList, Json.quote]
  have := h s.toList
  simp only [List.map_cons, List.map_append, List.sum_cons, List.sum_append]
  omega

namespace Output

@[ext] theorem ext {out out' : Output} (ht : out.text = out'.text) (hl : out.limit = out'.limit) :
    out = out' := by
  cases out
  cases out'
  simp_all

theorem pushStr_pushStr (out : Output) (s t : String) (hs) (ht) :
    (out.pushStr s hs).pushStr t ht = out.pushStr (s ++ t)
      (by simp only [pushStr, String.utf8ByteSize_append] at hs ht ⊢; omega) :=
  ext (by simp [pushStr, String.append_assoc]) rfl

theorem push_push (out : Output) (s t : String) :
    (out.push s >>= fun out => out.push t) = out.push (s ++ t) := by
  unfold push
  split_ifs with h₁ h₂ h₂
  · rfl
  · rw [String.utf8ByteSize_append] at h₂
    omega
  · rw [String.utf8ByteSize_append] at h₂
    simp only [bind, Except.bind]
    rw [dif_pos (by simp only [pushStr, String.utf8ByteSize_append]; omega)]
    rfl
  · rw [String.utf8ByteSize_append] at h₂
    simp only [bind, Except.bind]
    rw [dif_neg (by simp only [pushStr, String.utf8ByteSize_append]; omega), pushStr_pushStr]

theorem push_new (limit : ℕ) (s : String) : ((new limit).push s).map text
    = if s.utf8ByteSize ≤ limit then .ok s else .error (limitError limit) := by
  unfold push
  split_ifs with h₁ h₂ h₂ <;> simp [new] at h₁ ⊢
  · omega
  · rfl
  · simp [Except.map, pushStr]
  · omega

theorem foldl_append (ps : List String) : ∀ s : String,
    ps.foldl (· ++ ·) s = s ++ ps.foldl (· ++ ·) "" := by
  induction ps with
  | nil => simp
  | cons p ps ih =>
    intro s
    rw [List.foldl_cons, ih, List.foldl_cons, ih ("" ++ p), String.empty_append,
      String.append_assoc]

/-- However a text is cut into writes, it is written as a whole or not at all. -/
theorem write_eq (ps : List String) : ∀ out : Output,
    out.write ps = out.writeStr (ps.foldl (· ++ ·) "") := by
  induction ps with
  | nil =>
    intro out
    have := out.fits
    unfold write writeStr
    rw [List.foldlM_nil, List.foldl_nil, dif_neg (by rw [String.utf8ByteSize_empty]; omega)]
    exact congrArg some (ext (by simp [pushStr]) rfl)
  | cons p ps ih =>
    intro out
    have hc : out.write (p :: ps) = (out.writeStr p).bind fun out => out.write ps := rfl
    rw [hc, List.foldl_cons, String.empty_append, foldl_append]
    unfold writeStr
    split_ifs with h₁ h₂ h₂
    · rfl
    · rw [String.utf8ByteSize_append] at h₂
      omega
    · rw [String.utf8ByteSize_append] at h₂
      rw [Option.bind_some, ih]
      unfold writeStr
      rw [dif_pos (by simp only [pushStr, String.utf8ByteSize_append]; omega)]
    · rw [String.utf8ByteSize_append] at h₂
      rw [Option.bind_some, ih]
      unfold writeStr
      rw [dif_neg (by simp only [pushStr, String.utf8ByteSize_append]; omega), pushStr_pushStr]

variable [Rclrs]

theorem number_eq_push (out : Output) (value : String) : out.number value = out.push value := by
  unfold number push
  rw [write_eq, Rclrs.pieces_join, writeStr]
  split_ifs <;> rfl

theorem string_eq_push (out : Output) (value : String) :
    out.string value = out.push (String.ofList (Json.quote value)) := by
  unfold string
  rw [write_eq, Rclrs.pieces_join, writeStr]
  split_ifs with h
  · have := utf8ByteSize_le_quote value
    simp only [new, String.utf8ByteSize_empty] at h
    unfold push
    rw [dif_pos (by omega)]
  · have ht : ((new out.limit).pushStr value h).text = value := by simp [pushStr, new]
    simp only [ht]

end Output

/-- A writer that pushes a text, or, where there is none, fails whatever it is given. -/
def Emits (write : Output → Except String Output) : Option (List Char) → Prop
  | some cs => ∀ out, write out = out.push (String.ofList cs)
  | none => ∀ out, ∃ e, write out = .error e

namespace Emits

theorem push (s : String) : Emits (fun out => out.push s) (some s.toList) := fun out => by
  rw [String.ofList_toList]

theorem ok : Emits .ok (some []) := fun out => by
  have := out.fits
  unfold Output.push
  rw [dif_neg (by rw [String.ofList_nil, String.utf8ByteSize_empty]; omega)]
  exact congrArg Except.ok (Output.ext (by simp [Output.pushStr]) rfl)

/-- One writer after another. -/
theorem bind {f g : Output → Except String Output} {s t : Option (List Char)} (hf : Emits f s)
    (hg : Emits g t) : Emits (fun out => f out >>= g) (s.bind fun s => t.map (s ++ ·)) := by
  rcases s with _ | s
  · intro out
    obtain ⟨e, he⟩ := hf out
    exact ⟨e, by simp only [he]; rfl⟩
  rcases t with _ | t
  · intro out
    simp only [hf out, Output.push]
    split_ifs with h
    · exact ⟨_, rfl⟩
    · exact hg _
  · intro out
    simp only [hf out]
    rw [String.ofList_append, ← Output.push_push]
    exact congrArg _ (funext hg)

theorem congr {f g : Output → Except String Output} {s t : Option (List Char)} (h : Emits f s)
    (hfg : ∀ out, g out = f out) (hst : s = t) : Emits g t := by
  subst hst
  rwa [show g = f from funext hfg]

variable [Rclrs]

theorem string (s : String) : Emits (fun out => out.string s) (some (Json.quote s)) := fun out =>
  Output.string_eq_push out s

theorem number (s : String) : Emits (fun out => out.number s) (some s.toList) := fun out => by
  change out.number s = _
  rw [Output.number_eq_push, String.ofList_toList]

end Emits

/-- The comma that separates what follows from what stands before. -/
def lead {α : Type} (index : ℕ) (xs : List α) : List Char :=
  if index > 0 ∧ xs ≠ [] then [','] else []

theorem elementsText_cons_eq (j : Json Json.Numeral) (js : List (Json Json.Numeral)) :
    Json.elementsText (j :: js) = Json.text j ++ (lead 1 js ++ Json.elementsText js) := by
  cases js <;> simp [Json.elementsText, lead]

theorem membersText_cons_eq (m : String × Json Json.Numeral)
    (ms : List (String × Json Json.Numeral)) : Json.membersText (m :: ms)
      = Json.quote m.1 ++ ':' :: (Json.text m.2 ++ (lead 1 ms ++ Json.membersText ms)) := by
  cases ms <;> simp [Json.membersText, lead]

theorem separator_emits (index : ℕ) {α : Type} (x : α) (xs : List α) :
    Emits (Output.separator index) (some (lead index (x :: xs))) := by
  by_cases h : index > 0
  · refine (Emits.push ",").congr (fun out => ?_) (by simp [lead, h])
    rw [Output.separator, if_pos h]
  · refine Emits.ok.congr (fun out => ?_) (by simp [lead, h])
    rw [Output.separator, if_neg h]

section Elements

variable {T : Type} {encode : T → Output → Except String Output}
  {tree : T → Option (Json Json.Numeral)}

theorem arrayElements_emits : ∀ (xs : List T) (index : ℕ),
    (∀ x ∈ xs, Emits (encode x) ((tree x).map Json.text)) →
    Emits (Output.arrayElements encode index xs)
      ((xs.mapM tree).map fun js => lead index js ++ Json.elementsText js)
  | [], index, _ => Emits.ok.congr (fun _ => rfl) (by simp [lead, Json.elementsText])
  | x :: xs, index, h => by
    have hx := h x List.mem_cons_self
    have ih := arrayElements_emits xs (index + 1) fun x hm => h x (List.mem_cons_of_mem _ hm)
    refine ((separator_emits index x xs).bind (hx.bind ih)).congr (fun _ => rfl) ?_
    rw [List.mapM_cons]
    rcases tree x with _ | j
    · rfl
    rcases xs.mapM tree with _ | js
    · rfl
    simp [elementsText_cons_eq, lead]

theorem array_emits (xs : List T) (h : ∀ x ∈ xs, Emits (encode x) ((tree x).map Json.text)) :
    Emits (Output.array xs encode) (((xs.mapM tree).map .array).map Json.text) := by
  refine ((Emits.push "[").bind ((arrayElements_emits xs 0 h).bind (Emits.push "]"))).congr
    (fun _ => rfl) ?_
  rcases xs.mapM tree with _ | js
  · rfl
  · simp [Json.text, lead]

end Elements

theorem message_emits (depth : ℕ) {members : Output → Except String Output}
    {ms : Option (List (String × Json Json.Numeral))}
    (h : Emits members (ms.map Json.membersText)) :
    Emits (Output.message members depth)
      (((if depth ≤ 64 then ms else none).map .object).map Json.text) := by
  by_cases hd : depth ≤ 64
  · refine ((Emits.push "\x7b").bind (h.bind (Emits.push "\x7d"))).congr (fun out => ?_) ?_
    · rw [Output.message, if_neg (by omega)]
    · rw [if_pos hd]
      rcases ms with _ | ms
      · rfl
      · simp [Json.text]
  · rw [if_neg hd]
    intro out
    rw [Output.message, if_pos (by omega)]
    exact ⟨_, rfl⟩

/-- A result, unless it lies too deep. -/
def within {α : Type} (k l : ℕ) (t : Option α) : Option α := if l ≤ k then t else none

theorem within_max {α β γ : Type} (k a b : ℕ) (s : Option α) (t : Option β) (f : α → β → γ) :
    within k (max a b) (s.bind fun x => t.map (f x))
      = (within k a s).bind fun x => (within k b t).map (f x) := by
  unfold within
  by_cases ha : a ≤ k <;> by_cases hb : b ≤ k <;> simp [ha, hb]

theorem mapM_within {α β : Type} (k : ℕ) (l : α → ℕ) (t : α → Option β) (xs : List α) :
    xs.mapM (fun x => within k (l x) (t x)) = within k ((xs.map l).foldr max 0) (xs.mapM t) := by
  induction xs with
  | nil => simp [within]
  | cons x xs ih =>
    have h := within_max k (l x) ((xs.map l).foldr max 0) (t x) (xs.mapM t) List.cons
    rw [List.map_cons, List.foldr_cons, List.mapM_cons, List.mapM_cons, ih]
    simp only [Option.map_eq_bind] at h
    exact h.symm

variable [Rclrs]

theorem simpleValue_emits : ∀ (k : Prim) (v : k.Carrier),
    Emits (Output.simpleValue k v) ((k.tree v).map Json.text)
  | .float, (v : Float32) => by
    by_cases h : v.isFinite
    · refine (Emits.number _).congr (fun _ => by rw [Output.simpleValue, if_pos h]) ?_
      simp [Prim.tree, h, Json.text]
    · refine (Emits.push "null").congr (fun _ => by rw [Output.simpleValue, if_neg h]) ?_
      simp [Prim.tree, h, Json.text]
  | .double, (v : Float) => by
    by_cases h : v.isFinite
    · refine (Emits.number _).congr (fun _ => by rw [Output.simpleValue, if_pos h]) ?_
      simp [Prim.tree, h, Json.text]
    · refine (Emits.push "null").congr (fun _ => by rw [Output.simpleValue, if_neg h]) ?_
      simp [Prim.tree, h, Json.text]
  | .longDouble, _ => fun _ => ⟨_, rfl⟩
  | .boolean, (v : Bool) => by
    refine (Emits.number _).congr (fun _ => rfl) ?_
    cases v <;> simp [Prim.tree, Json.text]
  | .char, _ | .wChar, _ | .octet, _ | .uint8, _ | .int8, _ | .uint16, _ | .int16, _ | .uint32, _
  | .int32, _ | .uint64, _ | .int64, _ => (Emits.number _).congr (fun _ => rfl) (by
    simp [Prim.tree, displayInt, Json.text])
  | .string, _ | .boundedString _, _ | .wString, _ | .boundedWString _, _ =>
    (Emits.string _).congr (fun _ => rfl) (by simp [Prim.tree, Json.text])

theorem container_emits (e : ElemType) (k : ℕ) {encode : e.Val → Output → Except String Output}
    {l : e.Val → ℕ} {tree : e.Val → Option (Json Json.Numeral)}
    (h : ∀ v, Emits (encode v) ((within k (l v) (tree v)).map Json.text)) (values : List e.Val) :
    Emits (Output.container e values encode)
      ((within k ((values.map l).foldr max 0) (e.treeOf tree values)).map Json.text) := by
  have ha := array_emits values fun v _ => h v
  rw [mapM_within] at ha
  rcases he : e.isLongDouble with _ | _
  · refine ha.congr (fun _ => by simp [Output.container, he]) ?_
    unfold within ElemType.treeOf
    split_ifs <;> simp_all
  · have hw : within k ((values.map l).foldr max 0) (e.treeOf tree values) = none := by
      simp [within, ElemType.treeOf, he]
    rw [hw]
    intro out
    rw [Output.container, if_pos he]
    exact ⟨_, rfl⟩

mutual

theorem Fields.encode_emits : ∀ (fs : Fields) (v : fs.Val) (index depth : ℕ),
    Emits (fs.encode v index depth) ((within (64 - depth) (fs.levels v) (fs.tree v)).map
      fun ms => lead index ms ++ Json.membersText ms)
  | .nil, v, index, depth => Emits.ok.congr (fun _ => by rw [Fields.encode]) (by
      simp [Fields.levels, Fields.tree, within, lead, Json.membersText])
  | .cons name type rest, v, index, depth => by
    have ht := type.encode_emits v.1 (depth + 1)
    have hr := rest.encode_emits v.2 (index + 1) depth
    rw [show 65 - (depth + 1) = 64 - depth by omega] at ht
    refine ((separator_emits index name []).bind ((Emits.string name).bind
      ((Emits.push ":").bind (ht.bind hr)))).congr (fun _ => by rw [Fields.encode]) ?_
    have h := within_max (64 - depth) (type.levels v.1) (rest.levels v.2) (type.tree v.1)
      (rest.tree v.2) fun x ms => (name, x) :: ms
    simp only [Option.map_eq_bind] at h
    have hm : within (64 - depth) ((Fields.cons name type rest).levels v)
        ((Fields.cons name type rest).tree v) = _ := h
    rw [hm]
    rcases within (64 - depth) (type.levels v.1) (type.tree v.1) with _ | x
    · rfl
    rcases within (64 - depth) (rest.levels v.2) (rest.tree v.2) with _ | ms
    · rfl
    simp [membersText_cons_eq, lead]

/-- What is written for a value is the text of its tree. -/
theorem FieldType.encode_emits : ∀ (f : FieldType) (v : f.Val) (depth : ℕ),
    Emits (f.encode v depth) ((within (65 - depth) (f.levels v) (f.tree v)).map Json.text)
  | .simple e, v, depth => (e.encode_emits v depth).congr (fun _ => by rw [FieldType.encode]) (by
      rw [FieldType.levels, FieldType.tree])
  | .array e _, v, depth => (container_emits e (65 - depth) (fun v => e.encode_emits v depth) v.1
      ).congr (fun _ => by rw [FieldType.encode, Output.arrayValue]) (by
      rw [FieldType.levels, FieldType.tree])
  | .sequence e, v, depth => (container_emits e (65 - depth) (fun v => e.encode_emits v depth) v
      ).congr (fun _ => by rw [FieldType.encode, Output.sequenceValue]) (by
      rw [FieldType.levels, FieldType.tree])
  | .boundedSequence e _, v, depth =>
    (container_emits e (65 - depth) (fun v => e.encode_emits v depth) v.1).congr
      (fun _ => by rw [FieldType.encode, Output.boundedSequenceValue]) (by
      rw [FieldType.levels, FieldType.tree])

theorem ElemType.encode_emits : ∀ (e : ElemType) (v : e.Val) (depth : ℕ),
    Emits (e.encode v depth) ((within (65 - depth) (e.levels v) (e.tree v)).map Json.text)
  | .prim k, v, depth => (simpleValue_emits k v).congr (fun _ => by rw [ElemType.encode]) (by
      simp [ElemType.levels, ElemType.tree, within])
  | .message _ fields, v, depth => by
    have h := fields.encode_emits v 0 depth
    refine (message_emits depth (h.congr
      (t := (within (64 - depth) (fields.levels v) (fields.tree v)).map Json.membersText)
      (fun _ => rfl) ?_)).congr (fun _ => by rw [ElemType.encode]) ?_
    · simp [lead]
    · rw [ElemType.levels, ElemType.tree]
      unfold within
      by_cases hd : depth ≤ 64
      · rw [if_pos hd, show 65 - depth = 64 - depth + 1 by omega]
        by_cases hl : fields.levels v ≤ 64 - depth <;> simp [hl]
      · rw [if_neg hd, if_neg (by omega)]
        rfl

end

end PgRos2
