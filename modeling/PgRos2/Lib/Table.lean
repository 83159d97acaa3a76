import Mathlib.Data.List.AList

/-!
# Keyed tables

A table with a primary key is an association list without repeated keys. An update rewrites the
values and keeps the keys, a retain drops rows by key and value, and each is known by what it does
to a lookup (`lookup_mapVals`, `lookup_retain`, `lookup_eraseAll`).
-/

namespace Lib

/-- Rows of type `α` under a primary key of type `κ`. -/
abbrev Table (κ : Type*) (α : Type*) := AList (fun _ : κ => α)

namespace Table

variable {κ α : Type*}

/-- Rewrite every row, by its key. -/
def mapVals (f : κ → α → α) (t : Table κ α) : Table κ α where
  entries := t.entries.map fun e => ⟨e.1, f e.1 e.2⟩
  nodupKeys := by
    have h : (t.entries.map fun e : (_ : κ) × α => (⟨e.1, f e.1 e.2⟩ : (_ : κ) × α)).keys
        = t.entries.keys := by
      simp [List.keys, Function.comp_def]
    rw [List.NodupKeys, h]
    exact t.nodupKeys

/-- Keep the rows `p` holds of. -/
def retain (p : κ → α → Bool) (t : Table κ α) : Table κ α where
  entries := t.entries.filter fun e => p e.1 e.2
  nodupKeys := t.nodupKeys.sublist List.filter_sublist

variable [DecidableEq κ]

/-- Rewrite the row under `k`, if there is one. -/
def update (k : κ) (f : α → α) (t : Table κ α) : Table κ α :=
  t.mapVals fun k' a => if k' = k then f a else a

/-- Delete the rows under `ks`, one key after the other. -/
def eraseAll (ks : List κ) (t : Table κ α) : Table κ α :=
  ks.foldl (fun t k => t.erase k) t

theorem dlookup_cons_of_ne {k k' : κ} (a : α) (l : List ((_ : κ) × α)) (h : k' ≠ k) :
    ((⟨k', a⟩ : (_ : κ) × α) :: l).dlookup k = l.dlookup k :=
  List.dlookup_cons_ne l (⟨k', a⟩ : (_ : κ) × α) h.symm

theorem dlookup_map (f : κ → α → α) (k : κ) :
    ∀ l : List ((_ : κ) × α), (l.map fun e => (⟨e.1, f e.1 e.2⟩ : (_ : κ) × α)).dlookup k
      = (l.dlookup k).map (f k)
  | [] => rfl
  | ⟨k', a⟩ :: l => by
    by_cases h : k' = k
    · subst h
      simp
    · rw [List.map_cons, dlookup_cons_of_ne _ _ h, dlookup_cons_of_ne _ _ h]
      exact dlookup_map f k l

@[simp]
theorem lookup_mapVals (f : κ → α → α) (k : κ) (t : Table κ α) :
    (t.mapVals f).lookup k = (t.lookup k).map (f k) :=
  dlookup_map f k t.entries

@[simp]
theorem lookup_update (k k' : κ) (f : α → α) (t : Table κ α) :
    (t.update k f).lookup k' = if k' = k then (t.lookup k').map f else t.lookup k' := by
  rw [update, lookup_mapVals]
  split
  · rfl
  · simp

theorem dlookup_filter (p : κ → α → Bool) (k : κ) :
    ∀ l : List ((_ : κ) × α), l.NodupKeys →
      (l.filter fun e => p e.1 e.2).dlookup k = (l.dlookup k).filter (p k)
  | [], _ => rfl
  | ⟨k', a⟩ :: l, h => by
    have hl : l.NodupKeys := (List.nodupKeys_cons.mp h).2
    have ih := dlookup_filter p k l hl
    by_cases hk : k' = k
    · subst hk
      have hno : l.dlookup k' = none := List.dlookup_eq_none.mpr (List.nodupKeys_cons.mp h).1
      by_cases hp : p k' a = true
      · simp [hp, Option.filter]
      · simp [hp, ih, hno, Option.filter]
    · rw [dlookup_cons_of_ne _ _ hk, ← ih, List.filter_cons]
      split
      · exact dlookup_cons_of_ne _ _ hk
      · rfl

@[simp]
theorem lookup_retain (p : κ → α → Bool) (k : κ) (t : Table κ α) :
    (t.retain p).lookup k = (t.lookup k).filter (p k) :=
  dlookup_filter p k t.entries t.nodupKeys

theorem lookup_eraseAll : ∀ (ks : List κ) (k : κ) (t : Table κ α),
    (t.eraseAll ks).lookup k = if k ∈ ks then none else t.lookup k
  | [], k, t => by simp [eraseAll]
  | k' :: ks, k, t => by
    have ih := lookup_eraseAll ks k (t.erase k')
    rw [eraseAll, List.foldl_cons, ← eraseAll, ih]
    by_cases hk : k = k'
    · subst hk
      simp
    · simp [hk, AList.lookup_erase_ne hk]

theorem lookup_insert (k k' : κ) (a : α) (t : Table κ α) :
    (t.insert k a).lookup k' = if k' = k then some a else t.lookup k' := by
  split
  · subst k'
    exact AList.lookup_insert t
  · exact AList.lookup_insert_ne ‹_›

theorem mem_iff_lookup {k : κ} {t : Table κ α} : k ∈ t ↔ ∃ a, t.lookup k = some a := by
  rw [← AList.lookup_isSome, Option.isSome_iff_exists]

theorem lookup_eq_some_iff {k : κ} {a : α} {t : Table κ α} :
    t.lookup k = some a ↔ (⟨k, a⟩ : (_ : κ) × α) ∈ t.entries :=
  AList.mem_lookup_iff

theorem entries_eq_nil_iff {t : Table κ α} : t.entries = [] ↔ ∀ k, t.lookup k = none := by
  constructor
  · intro h k
    simp [AList.lookup, h]
  · intro h
    rcases he : t.entries with _ | ⟨⟨k, a⟩, l⟩
    · rfl
    · have hk : t.lookup k = some a := lookup_eq_some_iff.mpr (by simp [he])
      rw [h k] at hk
      cases hk

end Table

end Lib
