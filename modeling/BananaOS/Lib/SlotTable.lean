import Mathlib

/-!
# Tables of references

A table of `n` slots, each empty or referring to an object.  `count n t a` is the number of slots
that refer to `a`: filling an empty slot adds one reference to one object (`count_fill`), emptying a
slot takes one away (`count_clear`).
-/

namespace SlotTable

open Function

variable {α : Type*} [DecidableEq α] {n i : ℕ} {t : ℕ → Option α} {a b : α}

def count (n : ℕ) (t : ℕ → Option α) (a : α) : ℕ := {i ∈ Finset.range n | t i = some a}.card

theorem count_pos : 0 < count n t a ↔ ∃ i < n, t i = some a := by
  unfold count
  rw [Finset.card_pos]
  constructor
  · rintro ⟨i, hi⟩
    rw [Finset.mem_filter, Finset.mem_range] at hi
    exact ⟨i, hi⟩
  · rintro ⟨i, hi⟩
    exact ⟨i, Finset.mem_filter.mpr ⟨Finset.mem_range.mpr hi.1, hi.2⟩⟩

theorem count_fill (hi : i < n) (h : t i = none) (a b : α) :
    count n (update t i (some a)) b = count n t b + if b = a then 1 else 0 := by
  have hmem : i ∉ {j ∈ Finset.range n | t j = some b} := by
    rw [Finset.mem_filter, h]
    exact fun hj => nomatch hj.2
  unfold count
  split_ifs with hb
  · subst hb
    rw [← Finset.card_insert_of_notMem hmem]
    congr 1
    ext j
    rw [Finset.mem_filter, Finset.mem_insert, Finset.mem_filter, Finset.mem_range]
    by_cases hj : j = i
    · subst hj
      rw [update_self]
      exact iff_of_true ⟨hi, rfl⟩ (.inl rfl)
    · rw [update_of_ne hj]
      exact ⟨.inr, fun h => h.resolve_left hj⟩
  · rw [Nat.add_zero]
    congr 1
    ext j
    rw [Finset.mem_filter, Finset.mem_filter]
    by_cases hj : j = i
    · subst hj
      rw [update_self, h]
      exact iff_of_false (fun hb' => hb (Option.some.inj hb'.2).symm) fun hb' => nomatch hb'.2
    · rw [update_of_ne hj]

theorem count_clear (hi : i < n) (h : t i = some a) (b : α) :
    count n t b = count n (update t i none) b + if b = a then 1 else 0 := by
  have hback : update (update t i none) i (some a) = t := by
    rw [update_idem, ← h, update_eq_self]
  rw [← count_fill hi (update_self ..), hback]

def firstFree (used : ℕ → Bool) (m n : ℕ) : Option ℕ :=
  (List.range' m (n - m)).find? fun i => !used i

theorem firstFree_eq_some {used : ℕ → Bool} {m : ℕ} (h : firstFree used m n = some i) :
    m ≤ i ∧ i < n ∧ used i = false := by
  have hmem := List.mem_range'_1.mp (List.mem_of_find?_eq_some h)
  have hfree := List.find?_some h
  exact ⟨hmem.1, by omega, by simpa using hfree⟩

theorem firstFree_ne_none {used : ℕ → Bool} {m : ℕ} (hm : m ≤ i) (hi : i < n)
    (hfree : used i = false) : firstFree used m n ≠ none := by
  intro h
  have hmem : i ∈ List.range' m (n - m) := List.mem_range'_1.mpr ⟨hm, by omega⟩
  exact List.find?_eq_none.mp h i hmem (by rw [hfree]; rfl)

end SlotTable
