import PgRos2.Overlay
import PgRos2.Lib.JsonParse
import Mathlib.Data.String.Basic

/-!
# What a parsed value holds

Reading a JSON tree gives a value with no repeated member (`ofJson_distinct`): insertion keeps the
members of a map sorted. A member of the text is found under its name as long as no later member
has it too (`lookup_ofMembers`), and an integer of 64 bits reads as itself (`ofNumeral_ofInt`).
-/

namespace PgRos2

open Lib

namespace Value

theorem lookup_insert (k : String) (v : Value) (name : String) :
    ∀ ms : List (String × Value),
      (insert k v ms).lookup name = if name = k then some v else ms.lookup name
  | [] => by
    rw [insert, List.lookup_cons]
    rcases h : name == k with _ | _ <;> simp_all
  | (k', v') :: ms => by
    rw [insert]
    split_ifs with h₁ h₂ h₃ <;> simp only [List.lookup_cons, lookup_insert k v name ms]
    all_goals rcases h : name == k' with _ | _ <;> rcases h' : name == k with _ | _ <;> simp_all

theorem mem_insert {k : String} {v : Value} {member : String × Value} :
    ∀ {ms : List (String × Value)}, member ∈ insert k v ms → member = (k, v) ∨ member ∈ ms
  | [], h => by simpa [insert] using h
  | (k', v') :: ms, h => by
    rw [insert] at h
    split_ifs at h
    · simp only [List.mem_cons] at h ⊢
      tauto
    · simpa using h
    · rcases List.mem_cons.mp h with rfl | h
      · simp
      · rcases mem_insert h with rfl | h
        · simp
        · simp [h]

/-- The members of a map stand in the order of their names. -/
def Sorted (ms : List (String × Value)) : Prop := ms.Pairwise fun m m' => m.1 < m'.1

theorem sorted_insert (k : String) (v : Value) : ∀ {ms : List (String × Value)}, Sorted ms →
    Sorted (insert k v ms)
  | [], _ => by simp [insert, Sorted]
  | (k', v') :: ms, h => by
    have hc := List.pairwise_cons.mp h
    rw [insert]
    split_ifs with h₁ h₂
    · subst h₁
      exact List.pairwise_cons.mpr hc
    · refine List.pairwise_cons.mpr ⟨fun m hm => ?_, h⟩
      rcases List.mem_cons.mp hm with rfl | hm
      · exact h₂
      · exact lt_trans h₂ (hc.1 m hm)
    · refine List.pairwise_cons.mpr ⟨fun m hm => ?_, sorted_insert k v hc.2⟩
      rcases mem_insert hm with rfl | hm
      · exact lt_of_le_of_ne (not_lt.mp h₂) (Ne.symm h₁)
      · exact hc.1 m hm

theorem nodup_of_sorted {ms : List (String × Value)} (h : Sorted ms) : (ms.map Prod.fst).Nodup := by
  rw [List.Nodup, List.pairwise_map]
  exact h.imp fun hlt => ne_of_lt hlt

theorem distinctMembers_insert {k : String} {v : Value} (hv : Value.Distinct v) :
    ∀ {ms : List (String × Value)}, DistinctMembers ms → DistinctMembers (insert k v ms)
  | [], _ => ⟨hv, trivial⟩
  | (k', v') :: ms, h => by
    rw [insert]
    split_ifs
    · exact ⟨hv, h.2⟩
    · exact ⟨hv, h⟩
    · exact ⟨h.1, distinctMembers_insert hv h.2⟩

section Parse

variable [SerdeJson]

mutual

theorem ofJson_distinct : ∀ (j : Json Json.Numeral) (v : Value), ofJson j = some v →
    Value.Distinct v
  | .null, v, h | .bool _, v, h | .string _, v, h => by
    simp only [ofJson, Option.some.injEq] at h
    subst h
    trivial
  | .number n, v, h => by
    simp only [ofJson, Option.map_eq_some_iff] at h
    obtain ⟨m, -, rfl⟩ := h
    trivial
  | .array xs, v, h => by
    simp only [ofJson, Option.map_eq_some_iff] at h
    obtain ⟨vs, hvs, rfl⟩ := h
    exact ofElements_distinct xs vs hvs
  | .object ms, v, h => by
    simp only [ofJson, Option.map_eq_some_iff] at h
    obtain ⟨object, ho, rfl⟩ := h
    have hd := ofMembers_distinct ms [] object ho List.Pairwise.nil trivial
    exact ⟨nodup_of_sorted hd.1, hd.2⟩

theorem ofElements_distinct : ∀ (xs : List (Json Json.Numeral)) (vs : List Value),
    ofElements xs = some vs → DistinctElements vs
  | [], vs, h => by
    simp only [ofElements, Option.some.injEq] at h
    subst h
    trivial
  | x :: xs, vs, h => by
    simp only [ofElements, Option.bind_eq_bind, Option.bind_eq_some_iff, Option.pure_def,
      Option.some.injEq] at h
    obtain ⟨v, hv, vs', hvs, rfl⟩ := h
    exact ⟨ofJson_distinct x v hv, ofElements_distinct xs vs' hvs⟩

theorem ofMembers_distinct : ∀ (ms : List (String × Json Json.Numeral))
    (acc object : List (String × Value)), ofMembers ms acc = some object → Sorted acc →
    DistinctMembers acc → Sorted object ∧ DistinctMembers object
  | [], acc, object, h, hs, hd => by
    simp only [ofMembers, Option.some.injEq] at h
    subst h
    exact ⟨hs, hd⟩
  | (k, x) :: ms, acc, object, h, hs, hd => by
    simp only [ofMembers, Option.bind_eq_bind, Option.bind_eq_some_iff] at h
    obtain ⟨v, hv, h⟩ := h
    exact ofMembers_distinct ms (insert k v acc) object h (sorted_insert k v hs)
      (distinctMembers_insert (ofJson_distinct x v hv) hd)

end

theorem mem_ofMembers {member : String × Value} : ∀ {ms : List (String × Json Json.Numeral)}
    {acc object : List (String × Value)}, ofMembers ms acc = some object → member ∈ object →
    member.1 ∈ ms.map Prod.fst ∨ member ∈ acc
  | [], acc, object, h, hm => by
    simp only [ofMembers, Option.some.injEq] at h
    subst h
    exact .inr hm
  | (k, x) :: ms, acc, object, h, hm => by
    simp only [ofMembers, Option.bind_eq_bind, Option.bind_eq_some_iff] at h
    obtain ⟨v, -, h⟩ := h
    rcases mem_ofMembers h hm with hm | hm
    · exact .inl (List.mem_cons_of_mem _ hm)
    · rcases mem_insert hm with rfl | hm
      · exact .inl List.mem_cons_self
      · exact .inr hm

theorem lookup_ofMembers_of_not_mem {name : String} :
    ∀ {ms : List (String × Json Json.Numeral)} {acc object : List (String × Value)},
      ofMembers ms acc = some object → name ∉ ms.map Prod.fst → object.lookup name = acc.lookup name
  | [], acc, object, h, _ => by
    simp only [ofMembers, Option.some.injEq] at h
    rw [h]
  | (k, x) :: ms, acc, object, h, hn => by
    simp only [ofMembers, Option.bind_eq_bind, Option.bind_eq_some_iff] at h
    obtain ⟨v, -, h⟩ := h
    rw [List.map_cons, List.mem_cons, not_or] at hn
    rw [lookup_ofMembers_of_not_mem h hn.2, lookup_insert, if_neg hn.1]

/-- The members of an object without a repeated name are found under their names. -/
theorem lookup_ofMembers {m : String × Json Json.Numeral} :
    ∀ {ms : List (String × Json Json.Numeral)} {acc object : List (String × Value)},
      ofMembers ms acc = some object → (ms.map Prod.fst).Nodup → m ∈ ms →
      object.lookup m.1 = ofJson m.2
  | (k, x) :: ms, acc, object, h, hn, hm => by
    simp only [ofMembers, Option.bind_eq_bind, Option.bind_eq_some_iff] at h
    obtain ⟨v, hv, h⟩ := h
    rw [List.map_cons, List.nodup_cons] at hn
    rcases List.mem_cons.mp hm with rfl | hm
    · rw [lookup_ofMembers_of_not_mem h hn.1, lookup_insert, if_pos rfl, hv]
    · exact lookup_ofMembers h hn.2 hm

theorem ofMembers_isSome : ∀ {ms : List (String × Json Json.Numeral)}
    (acc : List (String × Value)), (∀ m ∈ ms, ∃ v, ofJson m.2 = some v) →
    ∃ object, ofMembers ms acc = some object
  | [], acc, _ => ⟨acc, rfl⟩
  | (k, x) :: ms, acc, h => by
    obtain ⟨v, hv⟩ := h (k, x) List.mem_cons_self
    obtain ⟨object, ho⟩ := ofMembers_isSome (insert k v acc)
      fun m hm => h m (List.mem_cons_of_mem _ hm)
    exact ⟨object, by simp [ofMembers, hv, ho]⟩

theorem exists_of_ofMembers {m : String × Json Json.Numeral} :
    ∀ {ms : List (String × Json Json.Numeral)} {acc object : List (String × Value)},
      ofMembers ms acc = some object → m ∈ ms → ∃ v, ofJson m.2 = some v
  | (k, x) :: ms, acc, object, h, hm => by
    simp only [ofMembers, Option.bind_eq_bind, Option.bind_eq_some_iff] at h
    obtain ⟨v, hv, h⟩ := h
    rcases List.mem_cons.mp hm with rfl | hm
    · exact ⟨v, hv⟩
    · exact exists_of_ofMembers h hm

theorem ofNumeral_ofInt {i : ℤ} (h₀ : -2 ^ 63 ≤ i) (h₁ : i < 2 ^ 64) :
    ∃ n, Number.ofNumeral (.ofInt i) = some n ∧ Value.integer (.number n) = some i := by
  have hm : (Json.Numeral.ofInt i).mantissa = i.natAbs := by
    simp [Json.Numeral.mantissa, Json.Numeral.ofInt, Nat.ofDigitChars_toDigits]
  unfold Number.ofNumeral
  rw [hm, if_pos ⟨rfl, rfl⟩]
  by_cases hn : i < 0
  · refine ⟨.negInt (Int64.ofInt (-i.natAbs)), ?_, ?_⟩
    · simp only [Json.Numeral.ofInt, hn, decide_true, if_true]
      rw [if_pos ⟨by omega, by omega⟩]
    · simp only [Value.integer]
      rw [Int64.toInt_ofInt_of_le (by omega) (by omega)]
      congr 1
      omega
  · refine ⟨.posInt (UInt64.ofNat i.natAbs), ?_, ?_⟩
    · simp only [Json.Numeral.ofInt, hn, decide_false]
      rw [if_neg (by simp), if_pos (by omega)]
    · simp only [Value.integer, UInt64.toNat_ofNat']
      congr 1
      omega

end Parse

end Value

end PgRos2
