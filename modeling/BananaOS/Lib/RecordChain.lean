import Mathlib

/-!
# Chains of records

A block of bytes is often cut into records of different length, each of which says how long it is.
Such a block has no index: to find a record one walks from one to the next, and a record is there
exactly if the walk comes by.
-/

namespace RecordChain

/-- The records from `a` on end exactly at `b`; they start at the offsets in the list. -/
inductive Chain (k : ℕ) (len : ℕ → ℕ) (b : ℕ) : ℕ → List ℕ → Prop where
  | nil : Chain k len b b []
  | cons {a : ℕ} {l : List ℕ} (hlen : k ≤ len a) (hrest : Chain k len b (a + len a) l) :
      Chain k len b a (a :: l)

variable {k a b c o p : ℕ} {len len' : ℕ → ℕ} {l l₁ l₂ : List ℕ}

namespace Chain

theorem le (h : Chain k len b a l) : a ≤ b := by
  induction h with
  | nil => exact le_rfl
  | cons _ _ ih => omega

theorem append (h : Chain k len b a l₁) (h' : Chain k len c b l₂) : Chain k len c a (l₁ ++ l₂) := by
  induction h with
  | nil => exact h'
  | cons hlen _ ih => exact .cons hlen ih

theorem of_append (h : Chain k len b a (l₁ ++ o :: l₂)) :
    Chain k len o a l₁ ∧ k ≤ len o ∧ Chain k len b (o + len o) l₂ := by
  induction l₁ generalizing a with
  | nil =>
    cases h with
    | cons hlen hrest => exact ⟨.nil, hlen, hrest⟩
  | cons x l₁ ih =>
    cases h with
    | cons hlen hrest =>
      obtain ⟨hbefore, hafter⟩ := ih hrest
      exact ⟨.cons hlen hbefore, hafter⟩

theorem mem (h : Chain k len b a l) (ho : o ∈ l) : a ≤ o ∧ k ≤ len o ∧ o + len o ≤ b := by
  obtain ⟨l₁, l₂, rfl⟩ := List.append_of_mem ho
  obtain ⟨hbefore, hlen, hafter⟩ := h.of_append
  exact ⟨hbefore.le, hlen, hafter.le⟩

theorem pairwise_lt (h : Chain k len b a l) (hk : 0 < k) : l.Pairwise (· < ·) := by
  induction h with
  | nil => exact List.Pairwise.nil
  | @cons a l hlen hrest ih =>
    refine List.pairwise_cons.mpr ⟨fun o ho => ?_, ih⟩
    have hle := (hrest.mem ho).1
    omega

theorem congr (h : Chain k len b a l) (hlen : ∀ x ∈ l, len' x = len x) : Chain k len' b a l := by
  induction h with
  | nil => exact .nil
  | @cons a l hk _ ih =>
    have ha := hlen a List.mem_cons_self
    refine .cons (by rwa [ha]) ?_
    rw [ha]
    exact ih fun x hx => hlen x (List.mem_cons_of_mem a hx)

theorem cons_iff : Chain k len b a (o :: l) ↔ o = a ∧ k ≤ len a ∧ Chain k len b (a + len a) l := by
  constructor
  · rintro (_ | ⟨hlen, hrest⟩)
    exact ⟨rfl, hlen, hrest⟩
  · rintro ⟨rfl, hlen, hrest⟩
    exact .cons hlen hrest

theorem nil_iff : Chain k len b a [] ↔ a = b :=
  ⟨fun h => by cases h; rfl, fun h => h ▸ .nil⟩

instance decidable (k : ℕ) (len : ℕ → ℕ) (b : ℕ) : ∀ a l, Decidable (Chain k len b a l)
  | _, [] => decidable_of_iff' _ nil_iff
  | a, _ :: l =>
    have := decidable k len b (a + len a) l
    decidable_of_iff' _ cons_iff

end Chain

/-! ## Listing the records -/

def offsets (len : ℕ → ℕ) (b : ℕ) : ℕ → ℕ → List ℕ
  | 0, _ => []
  | n + 1, a => if a < b then a :: offsets len b n (a + len a) else []

theorem Chain.offsets_eq (h : Chain k len b a l) (hk : 0 < k) {n : ℕ} (hn : b - a ≤ n) :
    offsets len b n a = l := by
  induction h generalizing n with
  | nil =>
    cases n with
    | zero => rfl
    | succ n => rw [offsets, if_neg (lt_irrefl b)]
  | @cons a l hlen hrest ih =>
    have hle := hrest.le
    cases n with
    | zero => omega
    | succ n => rw [offsets, if_pos (by omega), ih (by omega)]

/-! ## Looking for a record -/

/-- The loop that looks for a record: the first one from `a` on that passes the test, and the one
before it.  If `strict` is set, a record that does not end in the block ends the walk. -/
def walk (k : ℕ) (len : ℕ → ℕ) (strict : Bool) (b : ℕ) (test : ℕ → Bool) :
    ℕ → ℕ → Option ℕ → Option (ℕ × Option ℕ)
  | 0, _, _ => none
  | n + 1, a, prev =>
    if a + k ≤ b then
      if len a = 0 ∨ (strict = true ∧ b < a + len a) then none
      else if test a then some (a, prev)
      else walk k len strict b test n (a + len a) (some a)
    else none

def firstHit (test : ℕ → Bool) : Option ℕ → List ℕ → Option (ℕ × Option ℕ)
  | _, [] => none
  | prev, o :: l => if test o then some (o, prev) else firstHit test (some o) l

theorem Chain.walk_eq (h : Chain k len b a l) (hk : 0 < k) (strict : Bool) (test : ℕ → Bool)
    (prev : Option ℕ) {n : ℕ} (hn : b - a ≤ n) :
    walk k len strict b test n a prev = firstHit test prev l := by
  induction h generalizing n prev with
  | nil =>
    cases n with
    | zero => rfl
    | succ n => rw [walk, if_neg (by omega), firstHit]
  | @cons a l hlen hrest ih =>
    have hle := hrest.le
    cases n with
    | zero => omega
    | succ n =>
      rw [walk, if_pos (by omega), if_neg (by omega), firstHit, ih (some a) (by omega)]

variable {test : ℕ → Bool} {prev : Option ℕ}

theorem firstHit_map_fst (test : ℕ → Bool) (prev : Option ℕ) (l : List ℕ) :
    (firstHit test prev l).map Prod.fst = l.find? test := by
  induction l generalizing prev with
  | nil => rfl
  | cons o l ih =>
    rw [firstHit, List.find?_cons]
    cases test o with
    | true => rfl
    | false => exact ih (some o)

theorem firstHit_eq_none : firstHit test prev l = none ↔ ∀ x ∈ l, test x = false := by
  rw [← Option.map_eq_none_iff, firstHit_map_fst, List.find?_eq_none]
  simp only [Bool.not_eq_true]

theorem firstHit_eq_some {q : Option ℕ} (h : firstHit test prev l = some (o, q)) :
    ∃ l₁ l₂, l = l₁ ++ o :: l₂ ∧ test o = true ∧ (∀ x ∈ l₁, test x = false) ∧
      q = l₁.getLast?.or prev := by
  induction l generalizing prev with
  | nil => cases h
  | cons x l ih =>
    rw [firstHit] at h
    by_cases hx : test x = true
    · rw [if_pos hx] at h
      cases h
      exact ⟨[], l, rfl, hx, fun _ h => absurd h List.not_mem_nil, rfl⟩
    · rw [if_neg hx] at h
      obtain ⟨l₁, l₂, rfl, ho, hbefore, rfl⟩ := ih h
      refine ⟨x :: l₁, l₂, rfl, ho, fun y hy => ?_, ?_⟩
      · rcases List.mem_cons.mp hy with rfl | hy
        · exact Bool.eq_false_iff.mpr hx
        · exact hbefore y hy
      · cases l₁ with
        | nil => rfl
        | cons y l₁ => simp [List.getLast?_cons]

end RecordChain
