import PgRos2.Lib.Json
import Mathlib.Tactic.IntervalCases

/-!
# The compact text of a tree parses back

`parse_text`: the compact text of a tree whose numerals are those of the grammar parses to that
tree. Each production is met in front of any rest that cannot extend it, which after a value in
compact text is nothing or one of `,`, `]`, `}`.
-/

namespace Lib.Json

/-! ## Characters -/

/-- What may follow a value in compact text. -/
def Delimited (rest : List Char) : Prop := ∀ c, rest.head? = some c → c = ',' ∨ c = ']' ∨ c = '}'

theorem delimited_nil : Delimited [] := by simp [Delimited]

theorem delimited_cons {c : Char} {rest : List Char} (h : c = ',' ∨ c = ']' ∨ c = '}') :
    Delimited (c :: rest) := by
  intro c' hc
  simp only [List.head?_cons, Option.some.injEq] at hc
  exact hc ▸ h

theorem digits_append {ds rest : List Char} (hds : ∀ c ∈ ds, c.isDigit)
    (hr : ∀ c, rest.head? = some c → c.isDigit = false) : digits (ds ++ rest) = (ds, rest) := by
  have hrest : rest.takeWhile Char.isDigit = [] ∧ rest.dropWhile Char.isDigit = rest := by
    rcases rest with _ | ⟨c, rest⟩
    · simp
    · simp [hr c rfl]
  simp only [digits, Prod.mk.injEq]
  rw [List.takeWhile_append_of_pos hds, List.dropWhile_append_of_pos hds, hrest.1, hrest.2]
  simp

/-! ## Numerals -/

namespace Numeral

/-- A character that ends a run of digits, fraction and exponent alike. -/
def Ends (rest : List Char) : Prop :=
  ∀ c, rest.head? = some c → c.isDigit = false ∧ c ≠ '.' ∧ c ≠ 'e' ∧ c ≠ 'E'

theorem ends_of_delimited {rest : List Char} (h : Delimited rest) : Ends rest := by
  intro c hc
  rcases h c hc with rfl | rfl | rfl <;> decide

theorem scanInt_append {ds rest : List Char} (h : IsInt ds)
    (hr : ∀ c, rest.head? = some c → c.isDigit = false) :
    scanInt (ds ++ rest) = some (ds, rest) := by
  obtain ⟨hds, hne, hz⟩ := h
  obtain ⟨c, ds, rfl⟩ := List.exists_cons_of_ne_nil hne
  by_cases hc : c = '0'
  · subst hc
    have hds' := hz rfl
    rw [hds']
    rfl
  · have hd := digits_append hds hr
    simp only [List.cons_append] at hd ⊢
    unfold scanInt
    split
    · simp_all
    · rw [hd]

theorem scanFrac_append {frac : Option (List Char)} {rest : List Char}
    (h : ∀ ds, frac = some ds → (∀ c ∈ ds, c.isDigit) ∧ ds ≠ [])
    (hr : ∀ c, rest.head? = some c → c.isDigit = false ∧ c ≠ '.') :
    scanFrac (fracText frac ++ rest) = some (frac, rest) := by
  rcases frac with _ | ds
  · simp only [fracText, List.nil_append]
    unfold scanFrac
    split
    · exact absurd rfl (hr '.' rfl).2
    · rfl
  · obtain ⟨hds, hne⟩ := h ds rfl
    obtain ⟨c, ds', rfl⟩ := List.exists_cons_of_ne_nil hne
    simp only [fracText, List.cons_append, scanFrac]
    rw [← List.cons_append, digits_append hds fun c hc => (hr c hc).1]

theorem scanSign_append (sign : Option Bool) (cs : List Char)
    (h : ∀ c, cs.head? = some c → c.isDigit) :
    scanSign (signText sign ++ cs) = (sign, cs) := by
  rcases sign with _ | _ | _
  · simp only [signText, List.nil_append]
    unfold scanSign
    split
    · exact absurd (h '-' rfl) (by decide)
    · exact absurd (h '+' rfl) (by decide)
    · rfl
  · rfl
  · rfl

theorem scanExpDigits_append {e : Exponent} {rest : List Char}
    (hds : ∀ c ∈ e.digits, c.isDigit) (hne : e.digits ≠ [])
    (hr : ∀ c, rest.head? = some c → c.isDigit = false) :
    scanExpDigits e.upper (signText e.sign ++ (e.digits ++ rest)) = some (some e, rest) := by
  obtain ⟨upper, sign, ds⟩ := e
  obtain ⟨c, ds', rfl⟩ := List.exists_cons_of_ne_nil hne
  have hs := scanSign_append sign (c :: ds' ++ rest) (by
    intro c' hc'
    simp only [List.cons_append, List.head?_cons, Option.some.injEq] at hc'
    exact hc' ▸ hds c (by simp))
  simp only [scanExpDigits, hs]
  rw [digits_append hds hr]

theorem scanExp_append {exp : Option Exponent} {rest : List Char}
    (h : ∀ e, exp = some e → (∀ c ∈ e.digits, c.isDigit) ∧ e.digits ≠ []) (hr : Ends rest) :
    scanExp (expText exp ++ rest) = some (exp, rest) := by
  rcases exp with _ | e
  · simp only [expText, List.nil_append]
    unfold scanExp
    split
    · exact absurd rfl (hr 'e' rfl).2.2.1
    · exact absurd rfl (hr 'E' rfl).2.2.2
    · rfl
  · obtain ⟨hds, hne⟩ := h e rfl
    have hscan := scanExpDigits_append hds hne fun c hc => (hr c hc).1
    simp only [expText, List.cons_append, List.append_assoc]
    rcases hu : e.upper with _ | _ <;> rw [hu] at hscan <;> exact hscan

theorem head_exp {exp : Option Exponent} {rest : List Char} (hr : Ends rest) :
    ∀ c, (expText exp ++ rest).head? = some c →
      c.isDigit = false ∧ c ≠ '.' := by
  intro c hc
  rcases exp with _ | e
  · exact ⟨(hr c hc).1, (hr c hc).2.1⟩
  · simp only [expText, List.cons_append, List.head?_cons, Option.some.injEq] at hc
    subst hc
    split <;> decide

theorem head_frac {frac : Option (List Char)} {rest : List Char}
    (hr : ∀ c, rest.head? = some c → c.isDigit = false) :
    ∀ c, (fracText frac ++ rest).head? = some c →
      c.isDigit = false := by
  intro c hc
  rcases frac with _ | ds
  · exact hr c hc
  · simp only [fracText, List.cons_append, List.head?_cons, Option.some.injEq] at hc
    subst hc
    decide

theorem scanUnsigned_append {n : Numeral} (h : n.Valid) {rest : List Char} (hr : Ends rest) :
    scanUnsigned n.negative (n.int ++ (fracText n.frac ++ (expText n.exp ++ rest)))
      = some (n, rest) := by
  unfold scanUnsigned
  rw [scanInt_append h.int (head_frac fun c hc => (head_exp hr c hc).1)]
  simp only [Option.bind_eq_bind, Option.bind_some]
  rw [scanFrac_append h.frac (head_exp hr)]
  simp only [Option.bind_some]
  rw [scanExp_append h.exp hr]
  rfl

/-- A numeral of the grammar is scanned in full in front of what cannot extend it. -/
theorem scanNumeral_append {n : Numeral} (h : n.Valid) {rest : List Char} (hr : Ends rest) :
    scanNumeral (n.text ++ rest) = some (n, rest) := by
  have hu := scanUnsigned_append h hr
  simp only [text, List.append_assoc]
  rcases hn : n.negative with _ | _
  · simp only [Bool.false_eq_true, ↓reduceIte, List.nil_append]
    rw [hn] at hu
    unfold scanNumeral
    split
    · rename_i cs hcs
      obtain ⟨c, ds, hi⟩ := List.exists_cons_of_ne_nil h.int.2.1
      have hd : c.isDigit := h.int.1 c (by simp [hi])
      rw [hi, List.cons_append, List.cons.injEq] at hcs
      rw [hcs.1] at hd
      exact absurd hd (by decide)
    · exact hu
  · rw [hn] at hu
    exact hu

/-- A numeral starts with its sign or with a digit. -/
theorem head_text {n : Numeral} (h : n.Valid) :
    ∃ c cs, n.text = c :: cs ∧ (c = '-' ∨ c.isDigit = true) := by
  obtain ⟨c, ds, hi⟩ := List.exists_cons_of_ne_nil h.int.2.1
  have hd : c.isDigit := h.int.1 c (by simp [hi])
  unfold text
  rw [hi]
  rcases n.negative with _ | _
  · exact ⟨c, _, rfl, .inr hd⟩
  · exact ⟨'-', _, rfl, .inl rfl⟩

theorem digitChar_eq_zero : ∀ d < 10, Nat.digitChar d = '0' → d = 0 := by decide

theorem head_toDigits {n : ℕ} (hn : 0 < n) : (Nat.toDigits 10 n).head? ≠ some '0' := by
  induction n using Nat.base_induction 10 (by decide) with
  | single m hm =>
    rw [Nat.toDigits_of_lt_base hm]
    intro h
    simp only [List.head?_cons, Option.some.injEq] at h
    have := digitChar_eq_zero m hm h
    omega
  | digit m k hk hm ih =>
    rw [← Nat.toDigits_append_toDigits (by decide) hm hk, List.head?_append]
    have := ih hm
    rcases h : (Nat.toDigits 10 m).head? with _ | c
    · exact absurd (List.head?_eq_none_iff.mp h) Nat.toDigits_ne_nil
    · simpa [h] using this

theorem isInt_toDigits (n : ℕ) : IsInt (Nat.toDigits 10 n) := by
  refine ⟨fun c hc => Nat.isDigit_of_mem_toDigits (by decide) (by decide) hc,
    Nat.toDigits_ne_nil, fun h => ?_⟩
  rcases Nat.eq_zero_or_pos n with rfl | hn
  · rfl
  · exact absurd h (head_toDigits hn)

theorem valid_ofInt (i : ℤ) : (ofInt i).Valid :=
  ⟨isInt_toDigits _, fun _ h => by simp [ofInt] at h, fun _ h => by simp [ofInt] at h⟩

end Numeral

/-! ## Strings -/

theorem hexVal_hexDigit : ∀ d < 16, hexVal (hexDigit d) = some d := by decide

theorem hex4_control {n : ℕ} (h : n < 32) :
    hex4 '0' '0' (hexDigit (n / 16)) (hexDigit (n % 16)) = some n := by
  have h0 : hexVal '0' = some 0 := by decide
  simp only [hex4, h0, hexVal_hexDigit (n / 16) (by omega), hexVal_hexDigit (n % 16) (by omega),
    Option.bind_eq_bind, Option.bind_some, Option.pure_def, Option.some.injEq]
  omega

theorem eq_ofNat_of_toNat {c : Char} {n : ℕ} (h : c.toNat = n) : c = Char.ofNat n := by
  rw [← h, Char.ofNat_toNat]

theorem scanString_escape (c : Char) (cs : List Char) :
    scanString (escape c ++ cs) = (scanString cs).map fun p => (c :: p.1, p.2) := by
  unfold escape
  split_ifs with h1 h2 h3 h4 h5 h6 h7 h8
  · subst h1
    simp [scanString, unescape, Option.map_eq_bind]
  · subst h2
    simp [scanString, unescape, Option.map_eq_bind]
  · rw [eq_ofNat_of_toNat h3]
    simp [scanString, unescape, Option.map_eq_bind]
  · rw [eq_ofNat_of_toNat h4]
    simp [scanString, unescape, Option.map_eq_bind]
  · rw [eq_ofNat_of_toNat h5]
    simp [scanString, unescape, Option.map_eq_bind]
  · rw [eq_ofNat_of_toNat h6]
    simp [scanString, unescape, Option.map_eq_bind]
  · rw [eq_ofNat_of_toNat h7]
    simp [scanString, unescape, Option.map_eq_bind]
  · have hlo : ¬(55296 ≤ c.toNat ∧ c.toNat < 56320) := by omega
    have hhi : ¬(56320 ≤ c.toNat ∧ c.toNat < 57344) := by omega
    simp only [List.cons_append, List.nil_append, scanString, hex4_control h8,
      Option.bind_eq_bind, Option.bind_some, hlo, hhi, if_false, Char.ofNat_toNat]
    rw [Option.map_eq_bind]
    rfl
  · simp only [List.cons_append, List.nil_append]
    conv_lhs => rw [scanString.eq_def]
    split
    · simp_all
    · simp_all
    · simp_all
    · simp_all
    · rename_i heq
      simp only [List.cons.injEq] at heq
      obtain ⟨rfl, rfl⟩ := heq
      rw [if_neg (by simp [h2, h8]), Option.map_eq_bind]
      rfl

theorem scanString_quote (cs rest : List Char) :
    scanString (cs.flatMap escape ++ '"' :: rest) = some (cs, rest) := by
  induction cs with
  | nil => simp [scanString]
  | cons c cs ih =>
    rw [List.flatMap_cons, List.append_assoc, scanString_escape, ih]
    rfl

/-! ## Values -/

theorem skipWs_cons {c : Char} (cs : List Char)
    (h : ¬(c = ' ' ∨ c = '\t' ∨ c = '\n' ∨ c = '\r')) : skipWs (c :: cs) = c :: cs := by
  rw [skipWs, if_neg h]

/-- A value that does not start with a letter, a quote or a bracket is a numeral. -/
theorem value_numeral {c : Char} (cs : List Char) (n : ℕ) (h : c = '-' ∨ c.isDigit = true) :
    value (n + 1) (c :: cs) = (scanNumeral (c :: cs)).map fun p => (number p.1, p.2) := by
  have hne : c ≠ 'n' ∧ c ≠ 't' ∧ c ≠ 'f' ∧ c ≠ '"' ∧ c ≠ '[' ∧ c ≠ '{' := by
    refine ⟨?_, ?_, ?_, ?_, ?_, ?_⟩ <;> rintro rfl <;> revert h <;> decide
  obtain ⟨h1, h2, h3, h4, h5, h6⟩ := hne
  rw [value.eq_def]
  split <;> simp_all
  rw [Option.map_eq_bind]
  rfl

mutual

/-- Every numeral of the tree is one of the grammar. -/
def Valid : Json Numeral → Prop
  | number n => n.Valid
  | array xs => ValidElements xs
  | object ms => ValidMembers ms
  | _ => True

def ValidElements : List (Json Numeral) → Prop
  | [] => True
  | x :: xs => Valid x ∧ ValidElements xs

def ValidMembers : List (String × Json Numeral) → Prop
  | [] => True
  | (_, x) :: ms => Valid x ∧ ValidMembers ms

end

/-- A value starts with a character that is neither whitespace nor a closing bracket. -/
theorem head_text {j : Json Numeral} (h : Valid j) : ∃ c cs, text j = c :: cs
    ∧ ¬(c = ' ' ∨ c = '\t' ∨ c = '\n' ∨ c = '\r') ∧ c ≠ ']' ∧ c ≠ '}' := by
  match j, h with
  | null, _ => exact ⟨_, _, rfl, by decide⟩
  | bool true, _ => exact ⟨_, _, rfl, by decide⟩
  | bool false, _ => exact ⟨_, _, rfl, by decide⟩
  | number n, h =>
    obtain ⟨c, cs, hc, hd⟩ := Numeral.head_text (Valid.eq_1 n ▸ h)
    refine ⟨c, cs, by rw [text, hc], ?_⟩
    rcases hd with rfl | hd
    · decide
    · refine ⟨?_, ?_, ?_⟩
      · rintro (rfl | rfl | rfl | rfl) <;> exact absurd hd (by decide)
      · rintro rfl
        exact absurd hd (by decide)
      · rintro rfl
        exact absurd hd (by decide)
  | string s, _ => exact ⟨_, _, by rw [text, quote], by decide⟩
  | array xs, _ => exact ⟨_, _, by rw [text], by decide⟩
  | object ms, _ => exact ⟨_, _, by rw [text], by decide⟩

theorem skipWs_text {j : Json Numeral} (h : Valid j) (rest : List Char) :
    skipWs (text j ++ rest) = text j ++ rest := by
  obtain ⟨c, cs, hc, hw, -⟩ := head_text h
  rw [hc, List.cons_append]
  exact skipWs_cons _ hw

theorem elementsText_cons (x : Json Numeral) (xs : List (Json Numeral)) (hx : Valid x) :
    ∃ c cs, elementsText (x :: xs) = c :: cs
      ∧ ¬(c = ' ' ∨ c = '\t' ∨ c = '\n' ∨ c = '\r') ∧ c ≠ ']' := by
  obtain ⟨c, cs, hc, hw, hb, -⟩ := head_text hx
  rcases xs with _ | ⟨y, xs⟩
  · exact ⟨c, cs, by rw [elementsText, hc], hw, hb⟩
  · exact ⟨c, _, by rw [elementsText, hc, List.cons_append], hw, hb⟩

theorem membersText_cons (m : String × Json Numeral) (ms : List (String × Json Numeral)) :
    ∃ cs, membersText (m :: ms) = '"' :: cs := by
  rcases ms with _ | ⟨m', ms⟩
  · exact ⟨_, by rw [membersText, quote, List.cons_append]⟩
  · exact ⟨_, by rw [membersText, quote, List.cons_append]⟩

mutual

/-- The text of a value is read as that value, and no further. -/
theorem value_text : ∀ (j : Json Numeral) (n : ℕ) (rest : List Char), Valid j →
    (text j).length ≤ n → Delimited rest → value n (text j ++ rest) = some (j, rest)
  | null, 0, _, _, hn, _ => by simp [text] at hn
  | null, _ + 1, _, _, _, _ => rfl
  | bool true, 0, _, _, hn, _ => by simp [text] at hn
  | bool true, _ + 1, _, _, _, _ => rfl
  | bool false, 0, _, _, hn, _ => by simp [text] at hn
  | bool false, _ + 1, _, _, _, _ => rfl
  | number m, n, rest, h, hn, hr => by
    obtain ⟨c, cs, hc, hd⟩ := Numeral.head_text (Valid.eq_1 m ▸ h)
    have hs := Numeral.scanNumeral_append (Valid.eq_1 m ▸ h) (Numeral.ends_of_delimited hr)
    rw [text, hc] at hn
    obtain ⟨n, rfl⟩ : ∃ k, n = k + 1 := ⟨n - 1, by simp only [List.length_cons] at hn; omega⟩
    rw [text, hc, List.cons_append] at *
    rw [value_numeral _ _ hd, hs]
    rfl
  | string s, 0, _, _, hn, _ => by simp [text, quote] at hn
  | string s, n + 1, rest, _, _, _ => by
    rw [text, quote, List.cons_append, List.append_assoc, value]
    simp only [List.cons_append, List.nil_append]
    rw [scanString_quote]
    simp
  | array [], 0, _, _, hn, _ => by simp [text] at hn
  | array [], n + 1, rest, _, _, _ => by
    rw [text, elementsText]
    simp [value, skipWs]
  | array (x :: xs), 0, _, _, hn, _ => by simp [text] at hn
  | array (x :: xs), n + 1, rest, h, hn, _ => by
    rw [Valid, ValidElements] at h
    rw [text] at hn
    simp only [List.length_cons, List.length_append, List.length_nil] at hn
    have he := elements_text (x :: xs) n rest (by simp) (by rw [ValidElements]; exact h) (by omega)
    obtain ⟨c, cs, hc, hw, hb⟩ := elementsText_cons x xs h.1
    rw [text, List.cons_append, List.append_assoc, value]
    simp only [List.cons_append, List.nil_append]
    rw [hc, List.cons_append] at he ⊢
    rw [skipWs_cons _ hw]
    split
    · simp_all
    · simp_all
  | object [], 0, _, _, hn, _ => by simp [text] at hn
  | object [], n + 1, rest, _, _, _ => by
    rw [text, membersText]
    simp [value, skipWs]
  | object (m :: ms), 0, _, _, hn, _ => by simp [text] at hn
  | object (m :: ms), n + 1, rest, h, hn, _ => by
    rw [Valid] at h
    rw [text] at hn
    simp only [List.length_cons, List.length_append, List.length_nil] at hn
    have he := members_text (m :: ms) n rest (by simp) h (by omega)
    obtain ⟨cs, hc⟩ := membersText_cons m ms
    rw [text, List.cons_append, List.append_assoc, value]
    simp only [List.cons_append, List.nil_append]
    rw [hc, List.cons_append] at he ⊢
    rw [skipWs_cons _ (by decide)]
    simp [he]

theorem elements_text : ∀ (xs : List (Json Numeral)) (n : ℕ) (rest : List Char), xs ≠ [] →
    ValidElements xs → (elementsText xs).length + 1 ≤ n →
      elements n (elementsText xs ++ ']' :: rest) = some (xs, rest)
  | [], _, _, hne, _, _ => absurd rfl hne
  | _ :: _, 0, _, _, _, hn => by simp at hn
  | [x], n + 1, rest, _, h, hn => by
    rw [ValidElements] at h
    rw [elementsText] at hn ⊢
    have hv := value_text x n (']' :: rest) h.1 (by omega) (delimited_cons (.inr (.inl rfl)))
    rw [elements, skipWs_text h.1, hv]
    simp [skipWs]
  | x :: y :: xs, n + 1, rest, _, h, hn => by
    rw [ValidElements] at h
    rw [elementsText] at hn ⊢
    simp only [List.length_append, List.length_cons] at hn
    have hv := value_text x n (',' :: (elementsText (y :: xs) ++ ']' :: rest)) h.1 (by omega)
      (delimited_cons (.inl rfl))
    have he := elements_text (y :: xs) n rest (by simp) h.2 (by omega)
    rw [elements, List.append_assoc, skipWs_text h.1, List.cons_append, hv]
    simp [skipWs, he]

theorem members_text : ∀ (ms : List (String × Json Numeral)) (n : ℕ) (rest : List Char), ms ≠ [] →
    ValidMembers ms → (membersText ms).length + 1 ≤ n →
      members n (membersText ms ++ '}' :: rest) = some (ms, rest)
  | [], _, _, hne, _, _ => absurd rfl hne
  | _ :: _, 0, _, _, _, hn => by simp at hn
  | [(k, x)], n + 1, rest, _, h, hn => by
    rw [ValidMembers] at h
    rw [membersText] at hn ⊢
    simp only [List.length_append, List.length_cons] at hn
    have hv := value_text x n ('}' :: rest) h.1 (by omega) (delimited_cons (.inr (.inr rfl)))
    rw [quote]
    simp only [List.cons_append, List.append_assoc, List.nil_append]
    rw [members, skipWs_cons _ (by decide)]
    simp only [scanString_quote, Option.bind_eq_bind, Option.bind_some]
    rw [skipWs_cons _ (by decide)]
    simp [skipWs_text h.1, hv, skipWs]
  | (k, x) :: m :: ms, n + 1, rest, _, h, hn => by
    rw [ValidMembers] at h
    rw [membersText] at hn ⊢
    simp only [List.length_append, List.length_cons] at hn
    have hv := value_text x n (',' :: (membersText (m :: ms) ++ '}' :: rest)) h.1 (by omega)
      (delimited_cons (.inl rfl))
    have he := members_text (m :: ms) n rest (by simp) h.2 (by omega)
    rw [quote]
    simp only [List.cons_append, List.append_assoc, List.nil_append]
    rw [members, skipWs_cons _ (by decide)]
    simp only [scanString_quote, Option.bind_eq_bind, Option.bind_some]
    rw [skipWs_cons _ (by decide)]
    simp [skipWs_text h.1, hv, skipWs, he]

end

/-- The compact text of a tree parses to that tree. -/
theorem parse_text {j : Json Numeral} (h : Valid j) : parse (String.ofList (text j)) = some j := by
  have hv := value_text j ((text j).length + 1) [] h (by omega) delimited_nil
  rw [List.append_nil] at hv
  obtain ⟨c, cs, hc, hw, -⟩ := head_text h
  have hs : skipWs (text j) = text j := by rw [hc]; exact skipWs_cons _ hw
  simp [parse, hs, hv, skipWs]

end Lib.Json
