import Mathlib

/-!
# Bitmaps stored in words

A bitmap over the naturals is kept the way kernels keep it: as an array of words of `w` bits, bit
`p` being bit `p % w` of word `p / w`.  The word width is a parameter, so that the same lemmas serve
a page bitmap of 64-bit words and an on-disk bitmap of bytes.
-/

abbrev WordBitmap (w : ℕ) := ℕ → BitVec w

namespace WordBitmap

open Function

variable {w : ℕ}

def get (m : WordBitmap w) (p : ℕ) : Bool :=
  (m (p / w)).getLsbD (p % w)

def setAt (m : WordBitmap w) (g i : ℕ) : WordBitmap w :=
  update m g (m g ||| (1#w <<< i))

def clearAt (m : WordBitmap w) (g i : ℕ) : WordBitmap w :=
  update m g (m g &&& ~~~(1#w <<< i))

def set (m : WordBitmap w) (p : ℕ) : WordBitmap w :=
  m.setAt (p / w) (p % w)

def clear (m : WordBitmap w) (p : ℕ) : WordBitmap w :=
  m.clearAt (p / w) (p % w)

variable {g i p n : ℕ} {m : WordBitmap w}

theorem mul_add_div (hi : i < w) : (g * w + i) / w = g := by
  rw [Nat.mul_comm, Nat.mul_add_div (by omega), Nat.div_eq_of_lt hi, Nat.add_zero]

theorem mul_add_mod (hi : i < w) : (g * w + i) % w = i := by
  rw [Nat.mul_comm, Nat.mul_add_mod, Nat.mod_eq_of_lt hi]

theorem setAt_eq_set (m : WordBitmap w) (hi : i < w) : m.setAt g i = m.set (g * w + i) := by
  rw [set, mul_add_div hi, mul_add_mod hi]

theorem get_mul_add (m : WordBitmap w) (hi : i < w) : m.get (g * w + i) = (m g).getLsbD i := by
  rw [get, mul_add_div hi, mul_add_mod hi]

theorem getLsbD_one_shiftLeft {j : ℕ} (hi : i < w) (hj : j < w) :
    (1#w <<< i).getLsbD j = decide (j = i) := by
  rw [BitVec.getLsbD_shiftLeft, BitVec.getLsbD_one]
  rcases Nat.lt_trichotomy j i with h | h | h
  · simp [h, Nat.ne_of_lt h]
  · subst h
    simp [hj]
    omega
  · have h1 : ¬ j < i := by omega
    have h2 : j ≠ i := by omega
    have h3 : ¬ (j - i = 0) := by omega
    simp [h1, h2, h3]

theorem div_eq_and_mod_eq {q : ℕ} (hd : q / w = p / w) (hm : q % w = p % w) : q = p := by
  rw [← Nat.div_add_mod q w, ← Nat.div_add_mod p w, hd, hm]

theorem get_set (hw : 0 < w) (m : WordBitmap w) (p q : ℕ) :
    (m.set p).get q = (decide (q = p) || m.get q) := by
  unfold get set setAt
  by_cases hd : q / w = p / w
  · rw [hd, update_self, BitVec.getLsbD_or,
      getLsbD_one_shiftLeft (Nat.mod_lt _ hw) (Nat.mod_lt _ hw)]
    by_cases hm : q % w = p % w
    · simp [div_eq_and_mod_eq hd hm]
    · have hne : q ≠ p := fun h => hm (by rw [h])
      simp [hm, hne]
  · have hne : q ≠ p := fun h => hd (by rw [h])
    rw [update_of_ne hd]
    simp [hne]

theorem get_clear (hw : 0 < w) (m : WordBitmap w) (p q : ℕ) :
    (m.clear p).get q = (!decide (q = p) && m.get q) := by
  unfold get clear clearAt
  by_cases hd : q / w = p / w
  · rw [hd, update_self, BitVec.getLsbD_and, BitVec.getLsbD_not,
      getLsbD_one_shiftLeft (Nat.mod_lt _ hw) (Nat.mod_lt _ hw)]
    by_cases hm : q % w = p % w
    · simp [div_eq_and_mod_eq hd hm]
    · have hne : q ≠ p := fun h => hm (by rw [h])
      simp [hm, hne, Nat.mod_lt q hw]
  · have hne : q ≠ p := fun h => hd (by rw [h])
    rw [update_of_ne hd]
    simp [hne]

theorem clear_set (h : m.get p = false) : (m.set p).clear p = m := by
  funext g
  simp only [clear, clearAt, set, setAt, update_idem, update_self]
  by_cases hg : g = p / w
  · subst hg
    rw [update_self]
    refine BitVec.eq_of_getLsbD_eq fun i hi => ?_
    rw [BitVec.getLsbD_and, BitVec.getLsbD_or, BitVec.getLsbD_not,
      getLsbD_one_shiftLeft (Nat.mod_lt p (by omega)) hi]
    by_cases hm : i = p % w
    · have hclear : (m (p / w)).getLsbD i = false := by rw [hm]; exact h
      rw [hclear]
      simp [hm]
    · simp [hm, hi]
  · rw [update_of_ne hg]

/-! ## Searching -/

def firstClear (m : WordBitmap w) : ℕ → ℕ → Option ℕ
  | 0, _ => none
  | n + 1, i => if m.get i then firstClear m n (i + 1) else some i

theorem firstClear_some : ∀ {n i p : ℕ}, m.firstClear n i = some p →
      i ≤ p ∧ p < i + n ∧ m.get p = false ∧ ∀ q, i ≤ q → q < p → m.get q = true := by
  intro n
  induction n with
  | zero => exact fun h => nomatch h
  | succ n ih =>
    intro i p h
    unfold firstClear at h
    by_cases hi : m.get i = true
    · rw [if_pos hi] at h
      obtain ⟨h1, h2, h3, h4⟩ := ih h
      refine ⟨by omega, by omega, h3, fun q hq hqp => ?_⟩
      rcases Nat.eq_or_lt_of_le hq with rfl | hlt
      · exact hi
      · exact h4 q hlt hqp
    · rw [if_neg hi] at h
      have hp := Option.some.inj h
      subst hp
      exact ⟨le_refl _, by omega, by simpa using hi, fun q h1 h2 => absurd h1 (by omega)⟩

theorem firstClear_none :
    ∀ {n i : ℕ}, m.firstClear n i = none → ∀ q, i ≤ q → q < i + n → m.get q = true := by
  intro n
  induction n with
  | zero => exact fun _ q h1 h2 => absurd h1 (by omega)
  | succ n ih =>
    intro i h q h1 h2
    unfold firstClear at h
    by_cases hi : m.get i = true
    · rw [if_pos hi] at h
      rcases Nat.eq_or_lt_of_le h1 with rfl | hlt
      · exact hi
      · exact ih h q hlt (by omega)
    · rw [if_neg hi] at h
      cases h

/-! ## Counting -/

def support (m : WordBitmap w) (n : ℕ) : Finset ℕ :=
  (Finset.range n).filter fun p => m.get p = true

def popcount (m : WordBitmap w) (n : ℕ) : ℕ :=
  (m.support n).card

theorem mem_support : p ∈ m.support n ↔ p < n ∧ m.get p = true := by
  simp [support]

theorem support_set (hw : 0 < w) (m : WordBitmap w) (hp : p < n) :
    (m.set p).support n = insert p (m.support n) := by
  ext q
  simp only [mem_support, Finset.mem_insert, get_set hw, Bool.or_eq_true, decide_eq_true_eq]
  constructor
  · rintro ⟨hq, h | h⟩
    · exact Or.inl h
    · exact Or.inr ⟨hq, h⟩
  · rintro (rfl | ⟨hq, h⟩)
    · exact ⟨hp, Or.inl rfl⟩
    · exact ⟨hq, Or.inr h⟩

theorem support_clear (hw : 0 < w) (m : WordBitmap w) (n p : ℕ) :
    (m.clear p).support n = (m.support n).erase p := by
  ext q
  simp only [mem_support, Finset.mem_erase, get_clear hw, Bool.and_eq_true, Bool.not_eq_true',
    decide_eq_false_iff_not]
  tauto

theorem popcount_set (hw : 0 < w) (m : WordBitmap w) (hp : p < n)
    (hclear : m.get p = false) : (m.set p).popcount n = m.popcount n + 1 := by
  unfold popcount
  rw [support_set hw m hp, Finset.card_insert_of_notMem]
  simp [mem_support, hclear]

theorem popcount_clear (hw : 0 < w) (m : WordBitmap w) (hp : p < n)
    (hset : m.get p = true) : (m.clear p).popcount n + 1 = m.popcount n := by
  unfold popcount
  rw [support_clear hw]
  exact Finset.card_erase_add_one (mem_support.mpr ⟨hp, hset⟩)

theorem popcount_le (m : WordBitmap w) (n : ℕ) : m.popcount n ≤ n := by
  calc m.popcount n ≤ (Finset.range n).card := Finset.card_le_card (Finset.filter_subset _ _)
    _ = n := Finset.card_range n

/-! ## The lowest set bit -/

def ctz (x : BitVec w) : ℕ :=
  (List.range w).findIdx fun i => x.getLsbD i

theorem ctz_lt {x : BitVec w} (h : x ≠ 0#w) : ctz x < w := by
  have hex : ∃ i, i < w ∧ x.getLsbD i = true := by
    by_contra hno
    refine h (BitVec.eq_of_getLsbD_eq fun i hi => ?_)
    rw [BitVec.getLsbD_zero]
    by_contra hb
    exact hno ⟨i, hi, by simpa using hb⟩
  obtain ⟨i, hi, hb⟩ := hex
  have hlt : (List.range w).findIdx (fun i => x.getLsbD i) < (List.range w).length :=
    List.findIdx_lt_length_of_exists ⟨i, List.mem_range.mpr hi, hb⟩
  simpa [ctz] using hlt

theorem getLsbD_ctz {x : BitVec w} (h : x ≠ 0#w) : x.getLsbD (ctz x) = true := by
  have hlt : (List.range w).findIdx (fun i => x.getLsbD i) < (List.range w).length := by
    simpa [ctz] using ctz_lt h
  have hget := List.findIdx_getElem (w := hlt)
  rwa [List.getElem_range] at hget

end WordBitmap
