import PgRos2.Lib.JsonParse

/-!
# A JSON text is one line

Compact text has no whitespace of its own and escapes what is below the space in a string, so no
character of it is a control character of ASCII.
-/

namespace Lib

namespace Json

/-- No character is below the space. -/
def Plain (cs : List Char) : Prop := ∀ c ∈ cs, 32 ≤ c.toNat

@[simp]
theorem plain_nil : Plain [] := List.forall_mem_nil _

@[simp]
theorem plain_cons {c : Char} {cs : List Char} : Plain (c :: cs) ↔ 32 ≤ c.toNat ∧ Plain cs :=
  List.forall_mem_cons

@[simp]
theorem plain_append {cs ds : List Char} : Plain (cs ++ ds) ↔ Plain cs ∧ Plain ds :=
  List.forall_mem_append

theorem plain_hexDigit : ∀ n < 16, 32 ≤ (hexDigit n).toNat := by decide

theorem plain_pair {c : Char} (h : 32 ≤ c.toNat) : Plain ['\\', c] := by simp [h]

theorem plain_escape (c : Char) : Plain (escape c) := by
  unfold escape
  split_ifs with hquote hslash h8 h9 h10 h12 h13 hlow
  all_goals try exact plain_pair (by decide)
  · have hhigh := plain_hexDigit (c.toNat / 16) (by omega)
    have hrest := plain_hexDigit (c.toNat % 16) (Nat.mod_lt _ (by decide))
    simp [hhigh, hrest]
  · simpa using hlow

theorem plain_quote (s : String) : Plain (quote s) := by
  have hbody : Plain (s.toList.flatMap escape) := by
    intro c hc
    obtain ⟨d, -, hd⟩ := List.mem_flatMap.mp hc
    exact plain_escape d c hd
  simp [quote, hbody]

theorem plain_digits {ds : List Char} (h : ∀ c ∈ ds, c.isDigit) : Plain ds := by
  intro c hc
  have hd := h c hc
  rw [Char.isDigit, Bool.and_eq_true, decide_eq_true_eq, decide_eq_true_eq] at hd
  exact le_trans (by decide : 32 ≤ 48) hd.1

theorem Numeral.plain_text {n : Numeral} (h : n.Valid) : Plain n.text := by
  have hsign : Plain (if n.negative then ['-'] else []) := by split_ifs <;> simp
  have hfrac : Plain (fracText n.frac) := by
    rcases hf : n.frac with _ | ds
    · exact plain_nil
    · exact plain_cons.mpr ⟨by decide, plain_digits (h.frac ds hf).1⟩
  have hexp : Plain (expText n.exp) := by
    rcases he : n.exp with _ | e
    · exact plain_nil
    · have hs : Plain (signText e.sign) := by
        rcases e.sign with _ | _ | _ <;> simp [signText]
      refine plain_cons.mpr ⟨by split_ifs <;> decide, plain_append.mpr ⟨hs, ?_⟩⟩
      exact plain_digits (h.exp e he).1
  exact plain_append.mpr
    ⟨plain_append.mpr ⟨plain_append.mpr ⟨hsign, plain_digits h.int.1⟩, hfrac⟩, hexp⟩

mutual

theorem plain_text : ∀ {j : Json Numeral}, Valid j → Plain (text j)
  | .null, _ | .bool true, _ | .bool false, _ => by simp [text]
  | .number n, h => Numeral.plain_text h
  | .string s, _ => plain_quote s
  | .array xs, h => by
    have hxs := plain_elementsText h
    simp [text, hxs]
  | .object ms, h => by
    have hms := plain_membersText h
    simp [text, hms]

theorem plain_elementsText : ∀ {xs : List (Json Numeral)}, ValidElements xs →
    Plain (elementsText xs)
  | [], _ => plain_nil
  | [x], h => plain_text h.1
  | x :: y :: xs, h => by
    have hx := plain_text h.1
    have hxs := plain_elementsText h.2
    simp [elementsText, hx, hxs]

theorem plain_membersText : ∀ {ms : List (String × Json Numeral)}, ValidMembers ms →
    Plain (membersText ms)
  | [], _ => plain_nil
  | [(k, x)], h => by
    have hx := plain_text h.1
    simp [membersText, plain_quote, hx]
  | (k, x) :: m :: ms, h => by
    have hx := plain_text h.1
    have hms := plain_membersText h.2
    simp [membersText, plain_quote, hx, hms]

end

end Json

end Lib
