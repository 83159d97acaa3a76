import PgRos2.Receive

/-!
# The grammar of topic names

A name is a slash and a segment, once or more often. The check splits the name at its slashes and
looks at the bytes of each part, and none of the bytes of a wide character is a letter, a digit or
an underscore, so it accepts the names of the grammar and no others (`topic_grammar`).
-/

namespace PgRos2

/-- A letter or underscore, and letters, digits and underscores after it. -/
def IsSegment : List Char → Prop
  | [] => False
  | c :: cs => (c.isAlpha = true ∨ c = '_') ∧ ∀ d ∈ cs, d.isAlphanum = true ∨ d = '_'

/-- One or more repetitions of a slash and a segment. -/
inductive IsName : List Char → Prop
  | one {segment : List Char} (h : IsSegment segment) : IsName ('/' :: segment)
  | cons {segment rest : List Char} (h : IsSegment segment) (hr : IsName rest) :
    IsName ('/' :: segment ++ rest)

/-! ## Bytes -/

/-- A byte the check takes at the start of a segment. -/
def startsSegment (byte : UInt8) : Bool := isAsciiAlphabetic byte || byte == '_'.toUInt8

/-- A byte the check takes later on. -/
def continuesSegment (byte : UInt8) : Bool := isAsciiAlphanumeric byte || byte == '_'.toUInt8

theorem startsSegment_ascii : ∀ n < 128,
    (startsSegment (UInt8.ofNat n) = true ↔
      (Char.ofNat n).isAlpha = true ∨ Char.ofNat n = '_') := by
  decide +kernel

theorem continuesSegment_ascii : ∀ n < 128,
    (continuesSegment (UInt8.ofNat n) = true ↔
      (Char.ofNat n).isAlphanum = true ∨ Char.ofNat n = '_') := by
  decide +kernel

theorem continuesSegment_wide {byte : UInt8} (h : 128 ≤ byte.toNat) :
    continuesSegment byte = false := by
  unfold continuesSegment isAsciiAlphanumeric isAsciiAlphabetic
  rw [Bool.eq_false_iff]
  intro hb
  simp only [Bool.or_eq_true, Bool.and_eq_true, decide_eq_true_eq, UInt8.le_iff_toNat_le,
    beq_iff_eq, ← UInt8.toNat_inj, show 'Z'.toUInt8.toNat = 90 from rfl,
    show 'z'.toUInt8.toNat = 122 from rfl, show '9'.toUInt8.toNat = 57 from rfl,
    show '_'.toUInt8.toNat = 95 from rfl] at hb
  omega

theorem startsSegment_wide {byte : UInt8} (h : 128 ≤ byte.toNat) : startsSegment byte = false := by
  have hb := continuesSegment_wide h
  unfold continuesSegment isAsciiAlphanumeric at hb
  simp only [Bool.or_eq_false_iff] at hb
  unfold startsSegment
  rw [hb.1.1, hb.2, Bool.or_false]

theorem nameChar_ascii {c : Char} (h : c.isAlphanum = true ∨ c = '_') : c.toNat < 128 := by
  rcases h with h | rfl
  · unfold Char.isAlphanum Char.isAlpha Char.isUpper Char.isLower Char.isDigit at h
    simp only [Bool.or_eq_true, Bool.and_eq_true, decide_eq_true_eq, UInt32.le_iff_toNat_le,
      ge_iff_le, show 'Z'.val.toNat = 90 from rfl, show 'z'.val.toNat = 122 from rfl,
      show '9'.val.toNat = 57 from rfl] at h
    unfold Char.toNat
    omega
  · decide

theorem nameChar_of_start {c : Char} (h : c.isAlpha = true ∨ c = '_') :
    c.isAlphanum = true ∨ c = '_' :=
  h.imp_left fun h => by rw [Char.isAlphanum, h, Bool.true_or]

theorem encode_ascii {c : Char} (h : c.toNat < 128) :
    String.utf8EncodeChar c = [UInt8.ofNat c.toNat] := by
  unfold String.utf8EncodeChar
  rw [Char.toNat] at h ⊢
  simp only [show c.val.toNat ≤ 0x7f by omega, ↓reduceIte]

theorem encode_wide {c : Char} (h : 128 ≤ c.toNat) :
    ∃ byte bytes, String.utf8EncodeChar c = byte :: bytes ∧ 128 ≤ byte.toNat := by
  unfold String.utf8EncodeChar
  rw [Char.toNat] at h
  rw [if_neg (by omega)]
  split_ifs
  · exact ⟨_, _, rfl, by rw [UInt8.toNat_ofNat']; omega⟩
  · exact ⟨_, _, rfl, by rw [UInt8.toNat_ofNat']; omega⟩
  · exact ⟨_, _, rfl, by rw [UInt8.toNat_ofNat']; omega⟩

theorem all_encode (c : Char) : (String.utf8EncodeChar c).all continuesSegment = true ↔
    c.isAlphanum = true ∨ c = '_' := by
  by_cases h : c.toNat < 128
  · have hc := continuesSegment_ascii c.toNat h
    rw [Char.ofNat_toNat] at hc
    rw [encode_ascii h, List.all_cons, List.all_nil, Bool.and_true]
    exact hc
  · obtain ⟨byte, bytes, he, hb⟩ := encode_wide (c := c) (by omega)
    rw [he, List.all_cons, continuesSegment_wide hb, Bool.false_and]
    simp only [Bool.false_eq_true, false_iff]
    exact fun hc => h (nameChar_ascii hc)

/-! ## Segments -/

theorem isSegment_cons (byte : UInt8) (bytes : List UInt8) :
    isSegment (byte :: bytes) = (startsSegment byte && bytes.all continuesSegment) :=
  rfl

/-- On the bytes of a part the check says whether its characters are a segment. -/
theorem isSegment_iff (part : List Char) :
    isSegment (part.flatMap String.utf8EncodeChar) = true ↔ IsSegment part := by
  rcases part with _ | ⟨c, cs⟩
  · simp [isSegment, IsSegment]
  · have hrest : (cs.flatMap String.utf8EncodeChar).all continuesSegment = true ↔
        ∀ d ∈ cs, d.isAlphanum = true ∨ d = '_' := by
      simp only [List.all_flatMap, List.all_eq_true (l := cs), all_encode]
    rw [List.flatMap_cons]
    by_cases h : c.toNat < 128
    · have hc := startsSegment_ascii c.toNat h
      rw [Char.ofNat_toNat] at hc
      rw [encode_ascii h, List.singleton_append, isSegment_cons, Bool.and_eq_true, hc, hrest]
      rfl
    · obtain ⟨byte, bytes, he, hb⟩ := encode_wide (c := c) (by omega)
      rw [he, List.cons_append, isSegment_cons, startsSegment_wide hb, Bool.false_and]
      simp only [Bool.false_eq_true, false_iff]
      exact fun hc => h (nameChar_ascii (nameChar_of_start hc.1))

theorem IsSegment.ascii {part : List Char} (h : IsSegment part) : ∀ c ∈ part, c.toNat < 128 := by
  rcases part with _ | ⟨c, cs⟩
  · exact h.elim
  · intro d hd
    rcases List.mem_cons.mp hd with rfl | hd
    · exact nameChar_ascii (nameChar_of_start h.1)
    · exact nameChar_ascii (h.2 d hd)

theorem IsSegment.slash_notMem {part : List Char} (h : IsSegment part) : '/' ∉ part := by
  rcases part with _ | ⟨c, cs⟩
  · exact h.elim
  · intro hm
    rcases List.mem_cons.mp hm with rfl | hm
    · exact absurd h.1 (by decide)
    · exact absurd (h.2 _ hm) (by decide)

theorem IsSegment.ne_nil {part : List Char} (h : IsSegment part) : part ≠ [] := by
  rintro rfl
  exact h

/-! ## Names -/

theorem IsName.slash {name : List Char} (h : IsName name) : ∃ relative, name = '/' :: relative := by
  rcases h with h | ⟨h, hr⟩
  · exact ⟨_, rfl⟩
  · exact ⟨_, rfl⟩

/-- The parts between the slashes of a name are its segments. -/
theorem IsName.parts {name : List Char} (h : IsName name) :
    ∀ part ∈ (name.drop 1).splitOn '/', IsSegment part := by
  induction h with
  | one h =>
    rw [List.drop_succ_cons, List.drop_zero, List.splitOn_eq_singleton h.slash_notMem]
    exact fun part hp => List.mem_singleton.mp hp ▸ h
  | cons h hr ih =>
    obtain ⟨relative, rfl⟩ := hr.slash
    rw [List.cons_append, List.drop_succ_cons, List.drop_zero,
      List.splitOn_append_cons_self_of_not_mem h.slash_notMem]
    intro part hp
    rcases List.mem_cons.mp hp with rfl | hp
    · exact h
    · exact ih part hp

theorem isName_intercalate : ∀ {parts : List (List Char)}, parts ≠ [] →
    (∀ part ∈ parts, IsSegment part) → IsName ('/' :: ['/'].intercalate parts)
  | [], h, _ => absurd rfl h
  | [part], _, h => by
    rw [List.intercalate_singleton]
    exact .one (h part (List.mem_singleton.mpr rfl))
  | part :: next :: parts, _, h => by
    have ih := isName_intercalate (List.cons_ne_nil next parts)
      fun q hq => h q (List.mem_cons_of_mem _ hq)
    rw [List.intercalate_cons_cons, List.append_assoc, List.singleton_append]
    exact .cons (h part List.mem_cons_self) ih

theorem isName_iff_parts (relative : List Char) :
    IsName ('/' :: relative) ↔ ∀ part ∈ relative.splitOn '/', IsSegment part := by
  refine ⟨fun h => h.parts, fun h => ?_⟩
  have hn := isName_intercalate (List.splitOn_ne_nil '/' relative) h
  rwa [List.intercalate_splitOn] at hn

theorem IsName.ascii {name : List Char} (h : IsName name) : ∀ c ∈ name, c.toNat < 128 := by
  induction h with
  | one h =>
    intro c hc
    rcases List.mem_cons.mp hc with rfl | hc
    · decide
    · exact h.ascii c hc
  | cons h _ ih =>
    intro c hc
    rcases List.mem_append.mp hc with hc | hc
    · rcases List.mem_cons.mp hc with rfl | hc
      · decide
      · exact h.ascii c hc
    · exact ih c hc

theorem IsName.last {name : List Char} (h : IsName name) : name.getLast? ≠ some '/' := by
  induction h with
  | one h =>
    rw [List.getLast?_cons, List.getLast?_eq_some_getLast h.ne_nil, Option.getD_some]
    intro hl
    exact h.slash_notMem (Option.some.inj hl ▸ List.getLast_mem h.ne_nil)
  | cons _ hr ih =>
    obtain ⟨relative, rfl⟩ := hr.slash
    rwa [List.getLast?_append_cons]

theorem any_not_isSegment (parts : List (List Char)) :
    (parts.any fun part => !isSegment (part.flatMap String.utf8EncodeChar)) = true ↔
      ¬∀ part ∈ parts, IsSegment part := by
  simp only [List.any_eq_true, Bool.not_eq_true', Bool.eq_false_iff, ne_eq, isSegment_iff]
  push Not
  rfl

theorem validateTopic_iff (s : String) : validateTopic s = .ok () ↔ IsName s.toList := by
  unfold validateTopic
  split
  · rename_i relative hs
    rw [hs, isName_iff_parts]
    split_ifs with h <;> rw [any_not_isSegment] at h
    · exact ⟨nofun, fun hp => absurd hp h⟩
    · exact ⟨fun _ => not_not.mp h, fun _ => rfl⟩
  · rename_i hs
    refine ⟨nofun, fun h => ?_⟩
    obtain ⟨relative, hr⟩ := h.slash
    exact absurd hr (hs relative)

theorem Receive.validateTopic_iff (s : String) :
    Receive.validateTopic s = .ok () ↔ IsName s.toList ∧ s.utf8ByteSize ≤ 63 := by
  unfold Receive.validateTopic
  by_cases hs : nameDataLen ≤ s.utf8ByteSize
  · rw [if_pos hs]
    unfold nameDataLen at hs
    exact ⟨nofun, fun h => absurd h.2 (by omega)⟩
  · rw [if_neg hs, PgRos2.validateTopic_iff]
    unfold nameDataLen at hs
    exact ⟨fun h => ⟨h, by omega⟩, fun h => h.1⟩

/-- The check accepts the names of the grammar; the check of subscriptions accepts those a
notification channel is not cut for. A name of the grammar is ASCII, has no empty segment and does
not end in a slash. -/
theorem topic_grammar (s : String) :
    (validateTopic s = .ok () ↔ IsName s.toList) ∧
    (Receive.validateTopic s = .ok () ↔ IsName s.toList ∧ s.utf8ByteSize ≤ 63) ∧
    (validateTopic s = .ok () →
      (∀ c ∈ s.toList, c.toNat < 128) ∧
      (∃ relative, s.toList = '/' :: relative ∧ [] ∉ relative.splitOn '/') ∧
      s.toList.getLast? ≠ some '/') := by
  refine ⟨validateTopic_iff s, Receive.validateTopic_iff s, fun h => ?_⟩
  have hn := (validateTopic_iff s).mp h
  obtain ⟨relative, hr⟩ := hn.slash
  refine ⟨hn.ascii, ⟨relative, hr, fun hm => ?_⟩, hn.last⟩
  rw [hr] at hn
  exact (hn.parts [] hm).ne_nil rfl

end PgRos2
