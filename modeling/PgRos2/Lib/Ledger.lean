import Mathlib.Data.List.Nodup
import Mathlib.Logic.Function.Basic

/-!
# Where numbered items are

Items are numbered as they are issued, and a ledger keeps the numbers held at each place in the
order they came there. It is `Settled` when every number issued is at exactly one place, once.
Issuing and moving keep it settled. Losing what a place holds does where it holds nothing.
-/

namespace Lib

/-- The items issued, in the order of their numbers, and the numbers each place holds. -/
structure Ledger (π α : Type*) where
  items : List α
  held : π → List ℕ

namespace Ledger

variable {π α : Type*}

def empty : Ledger π α := ⟨[], fun _ => []⟩

def issued (l : Ledger π α) : ℕ := l.items.length

/-- The number was given to the item. -/
def Numbers (l : Ledger π α) (n : ℕ) (a : α) : Prop := l.items[n]? = some a

/-- Every number issued, and no other, is at exactly one place, once. -/
structure Settled (l : Ledger π α) : Prop where
  placed : ∀ n < l.issued, ∃! p, n ∈ l.held p
  once : ∀ p, (l.held p).Nodup
  known : ∀ p, ∀ n ∈ l.held p, n < l.issued

theorem settled_empty : (empty : Ledger π α).Settled where
  placed n hn := by cases hn
  once _ := List.nodup_nil
  known _ n hn := by cases hn

/-- A number is at one place only. -/
theorem Settled.unique {l : Ledger π α} (h : l.Settled) {p q : π} {n : ℕ} (hp : n ∈ l.held p)
    (hq : n ∈ l.held q) : p = q :=
  (h.placed n (h.known p n hp)).unique hp hq

section Move

variable {l : Ledger π α} {p q : π}

/-- What `p` and `q` hold together is at one of them, once, when it is rearranged between them. -/
theorem Settled.pair {l' : Ledger π α} (h : l.Settled) (hpq : p ≠ q)
    (hperm : (l'.held p ++ l'.held q).Perm (l.held p ++ l.held q)) :
    (l'.held p).Nodup ∧ (l'.held q).Nodup ∧ ∀ n ∈ l'.held p, n ∉ l'.held q := by
  have hnodup : (l.held p ++ l.held q).Nodup :=
    List.nodup_append.mpr ⟨h.once p, h.once q, fun a ha b hb hab => hpq (h.unique ha (hab ▸ hb))⟩
  obtain ⟨hp, hq, hdisj⟩ := List.nodup_append.mp (hperm.nodup_iff.mpr hnodup)
  exact ⟨hp, hq, fun n hn hn' => hdisj n hn n hn' rfl⟩

/-- Numbers rearranged between two places stay settled. -/
theorem Settled.move {l' : Ledger π α} (h : l.Settled) (hpq : p ≠ q) (hi : l'.issued = l.issued)
    (hrest : ∀ r, r ≠ p → r ≠ q → l'.held r = l.held r)
    (hperm : (l'.held p ++ l'.held q).Perm (l.held p ++ l.held q)) : l'.Settled := by
  obtain ⟨honce, honce', hdisj⟩ := h.pair hpq hperm
  have hmem : ∀ n, n ∈ l'.held p ∨ n ∈ l'.held q ↔ n ∈ l.held p ∨ n ∈ l.held q := by
    intro n
    rw [← List.mem_append, ← List.mem_append, hperm.mem_iff]
  refine ⟨fun n hn => ?_, fun r => ?_, fun r n hn => ?_⟩
  · obtain ⟨r, hr, -⟩ := h.placed n (hi ▸ hn)
    have hunique : ∀ s, n ∈ l.held s → s = r := fun s hs => h.unique hs hr
    by_cases hn' : n ∈ l'.held p ∨ n ∈ l'.held q
    · have hother : ∀ s, n ∈ l'.held s → s = p ∨ s = q := by
        intro s hs
        by_contra hne
        rw [not_or] at hne
        rw [hrest s hne.1 hne.2] at hs
        rcases (hmem n).mp hn' with hm | hm
        · exact hne.1 (h.unique hs hm)
        · exact hne.2 (h.unique hs hm)
      rcases hn' with hm | hm
      · refine ⟨p, hm, fun s hs => (hother s hs).resolve_right ?_⟩
        rintro rfl
        exact hdisj n hm hs
      · refine ⟨q, hm, fun s hs => (hother s hs).resolve_left ?_⟩
        rintro rfl
        exact hdisj n hs hm
    · have hold := mt (hmem n).mpr hn'
      rw [not_or] at hn' hold
      have hmem' : ∀ s, n ∈ l'.held s ↔ n ∈ l.held s := by
        intro s
        by_cases hp : s = p
        · rw [hp, iff_false_left hn'.1]
          exact hold.1
        by_cases hq : s = q
        · rw [hq, iff_false_left hn'.2]
          exact hold.2
        rw [hrest s hp hq]
      exact ⟨r, (hmem' r).mpr hr, fun s hs => hunique s ((hmem' s).mp hs)⟩
  · by_cases hp : r = p
    · exact hp ▸ honce
    by_cases hq : r = q
    · exact hq ▸ honce'
    rw [hrest r hp hq]
    exact h.once r
  · have hknown : n ∈ l.held p ∨ n ∈ l.held q → n < l.issued :=
      fun hm => hm.elim (h.known p n) (h.known q n)
    rw [hi]
    by_cases hp : r = p
    · exact hknown ((hmem n).mp (.inl (hp ▸ hn)))
    by_cases hq : r = q
    · exact hknown ((hmem n).mp (.inr (hq ▸ hn)))
    rw [hrest r hp hq] at hn
    exact h.known r n hn

end Move

variable [DecidableEq π]

/-- Give the next number to an item, at a place. -/
def issue (l : Ledger π α) (p : π) (a : α) : Ledger π α :=
  ⟨l.items ++ [a], Function.update l.held p (l.held p ++ [l.issued])⟩

/-- Move the number that came to `p` first to the end of `q`. -/
def moveFirst (l : Ledger π α) (p q : π) : Ledger π α :=
  match l.held p with
  | [] => l
  | n :: ns => { l with held := Function.update (Function.update l.held p ns) q (l.held q ++ [n]) }

/-- Move all of `p` to the end of `q`. -/
def moveAll (l : Ledger π α) (p q : π) : Ledger π α :=
  { l with held := Function.update (Function.update l.held p []) q (l.held q ++ l.held p) }

/-- Forget what `p` holds. -/
def lose (l : Ledger π α) (p : π) : Ledger π α :=
  { l with held := Function.update l.held p [] }

section Held

variable (l : Ledger π α) {p q : π}

@[simp]
theorem issued_issue (a : α) : (l.issue p a).issued = l.issued + 1 := by
  simp [issued, issue]

@[simp]
theorem numbers_issue {n : ℕ} {a b : α} :
    (l.issue p a).Numbers n b ↔ l.Numbers n b ∨ n = l.issued ∧ b = a := by
  simp only [Numbers, issue, issued, List.getElem?_append, List.getElem?_singleton]
  split_ifs with h h' <;> grind

theorem items_moveFirst : (l.moveFirst p q).items = l.items := by
  unfold moveFirst
  cases l.held p <;> rfl

@[simp]
theorem numbers_moveFirst : (l.moveFirst p q).Numbers = l.Numbers := by
  unfold Numbers
  rw [items_moveFirst]

@[simp]
theorem held_issue (a : α) (r : π) :
    (l.issue p a).held r = if r = p then l.held p ++ [l.issued] else l.held r :=
  Function.update_apply ..

@[simp]
theorem issued_moveFirst : (l.moveFirst p q).issued = l.issued := by
  rw [issued, items_moveFirst, issued]

theorem held_moveFirst {n : ℕ} {ns : List ℕ} (hp : l.held p = n :: ns) (r : π) :
    (l.moveFirst p q).held r
      = if r = q then l.held q ++ [n] else if r = p then ns else l.held r := by
  simp [moveFirst, hp, Function.update_apply]

@[simp]
theorem numbers_moveAll : (l.moveAll p q).Numbers = l.Numbers := rfl

@[simp]
theorem issued_moveAll : (l.moveAll p q).issued = l.issued := rfl

@[simp]
theorem held_moveAll (r : π) : (l.moveAll p q).held r
    = if r = q then l.held q ++ l.held p else if r = p then [] else l.held r := by
  simp [moveAll, Function.update_apply]

/-- Nothing is lost from a place that holds nothing. -/
theorem lose_eq_self (hp : l.held p = []) : l.lose p = l := by
  rw [lose, ← hp, Function.update_eq_self]

end Held

section Settled

variable {l : Ledger π α} {p q : π}

theorem Settled.issue (h : l.Settled) (p : π) (a : α) : (l.issue p a).Settled where
  placed n hn := by
    rw [issued_issue] at hn
    rcases Nat.lt_succ_iff_lt_or_eq.mp hn with hlt | rfl
    · obtain ⟨r, hr, hu⟩ := h.placed n hlt
      have hmem : ∀ s, n ∈ (l.issue p a).held s ↔ n ∈ l.held s := by
        intro s
        by_cases hs : s = p
        · simp [hs, Nat.ne_of_lt hlt]
        · simp [hs]
      exact ⟨r, (hmem r).mpr hr, fun s hs => hu s ((hmem s).mp hs)⟩
    · refine ⟨p, by simp, fun s hs => ?_⟩
      by_contra hsp
      have hs : l.issued ∈ l.held s := by simpa [hsp] using hs
      exact absurd (h.known s _ hs) (Nat.lt_irrefl _)
  once r := by
    rw [held_issue]
    split_ifs
    · rw [List.nodup_append_comm, List.singleton_append, List.nodup_cons]
      exact ⟨fun hm => absurd (h.known p _ hm) (Nat.lt_irrefl _), h.once p⟩
    · exact h.once r
  known r n hn := by
    rw [held_issue] at hn
    rw [issued_issue]
    split_ifs at hn
    · rcases List.mem_append.mp hn with hn | hn
      · exact Nat.lt_succ_of_lt (h.known p n hn)
      · exact List.mem_singleton.mp hn ▸ Nat.lt_succ_self _
    · exact Nat.lt_succ_of_lt (h.known r n hn)

theorem Settled.moveFirst (h : l.Settled) (hpq : p ≠ q) : (l.moveFirst p q).Settled := by
  rcases hp : l.held p with _ | ⟨n, ns⟩
  · rwa [Ledger.moveFirst, hp]
  · refine h.move hpq l.issued_moveFirst (fun r hr hr' => ?_) ?_
    · rw [held_moveFirst l hp, if_neg hr', if_neg hr]
    · rw [held_moveFirst l hp, held_moveFirst l hp, if_neg hpq, if_pos rfl, if_pos rfl, hp,
        ← List.append_assoc]
      exact List.perm_append_singleton n (ns ++ l.held q)

theorem Settled.moveAll (h : l.Settled) (hpq : p ≠ q) : (l.moveAll p q).Settled := by
  refine h.move hpq l.issued_moveAll (fun r hr hr' => ?_) ?_
  · rw [held_moveAll, if_neg hr', if_neg hr]
  · rw [held_moveAll, held_moveAll, if_neg hpq, if_pos rfl, if_pos rfl, List.nil_append]
    exact List.perm_append_comm

end Settled

section Items

variable {β γ : Type*} {R : β → γ → Prop} {xs : List β} {ys : List γ}

theorem forall₂_concat {x : β} {y : γ} (h : List.Forall₂ R xs ys) (hxy : R x y) :
    List.Forall₂ R (xs ++ [x]) (ys ++ [y]) :=
  List.rel_append h (.cons hxy .nil)

theorem exists_of_forall₂ (h : List.Forall₂ R xs ys) {y : γ} (hy : y ∈ ys) :
    ∃ x ∈ xs, R x y := by
  induction h with
  | nil => cases hy
  | @cons x y' xs ys hxy _ ih =>
    rcases List.mem_cons.mp hy with rfl | hy
    · exact ⟨x, List.mem_cons_self, hxy⟩
    · obtain ⟨x', hx', hr⟩ := ih hy
      exact ⟨x', List.mem_cons_of_mem x hx', hr⟩

/-- Items that tell their numbers are all different where the numbers are. -/
theorem nodup_of_forall₂ (hR : ∀ a b y, R a y → R b y → a = b) (h : List.Forall₂ R xs ys)
    (hxs : xs.Nodup) : ys.Nodup := by
  induction h with
  | nil => exact List.nodup_nil
  | @cons x y xs ys hxy h ih =>
    obtain ⟨hx, hxs⟩ := List.nodup_cons.mp hxs
    refine List.nodup_cons.mpr ⟨fun hy => ?_, ih hxs⟩
    obtain ⟨x', hx', hr⟩ := exists_of_forall₂ h hy
    exact hx (hR x x' y hxy hr ▸ hx')

end Items

end Ledger

end Lib
