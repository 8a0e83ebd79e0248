import Mathlib

/-!
# A queue in a ring of slots

A fixed array of `cap` slots, the index of the first entry, the index behind the last one, and the
number of entries.  The three numbers are not independent, and every operation has to keep them in
step; the structure carries that as fields, so that a ring whose tail is off cannot be built.
-/

namespace RingQueue

open Function

structure Ring (α : Type) (cap : ℕ) where
  slots : ℕ → α
  head : ℕ
  tail : ℕ
  count : ℕ
  head_lt : head < cap
  tail_eq : tail = (head + count) % cap
  count_le : count ≤ cap

variable {α : Type} {cap : ℕ}

/-- The entries at the `n` places from `i` on, in a ring that starts at `head`. -/
def window (cap : ℕ) (slots : ℕ → α) (head i n : ℕ) : List α :=
  (List.range' i n).map fun j => slots ((head + j) % cap)

variable {head i n : ℕ} {r : Ring α cap}

theorem mem_window {slots : ℕ → α} {a : α} :
    a ∈ window cap slots head i n ↔ ∃ j, i ≤ j ∧ j < i + n ∧ slots ((head + j) % cap) = a := by
  unfold window
  rw [List.mem_map]
  constructor
  · rintro ⟨j, hj, rfl⟩
    rw [List.mem_range'_1] at hj
    exact ⟨j, hj.1, hj.2, rfl⟩
  · rintro ⟨j, h1, h2, rfl⟩
    exact ⟨j, List.mem_range'_1.mpr ⟨h1, h2⟩, rfl⟩

theorem window_append (slots : ℕ → α) (head i n k : ℕ) :
    window cap slots head i (n + k) =
      window cap slots head i n ++ window cap slots head (i + n) k := by
  unfold window
  rw [← List.map_append, List.range'_append_1]

theorem window_split (slots : ℕ → α) (head : ℕ) {k : ℕ} (h : k ≤ n) :
    window cap slots head 0 n = window cap slots head 0 k ++ window cap slots head k (n - k) := by
  have happ : window cap slots head 0 (k + (n - k)) =
      window cap slots head 0 k ++ window cap slots head (0 + k) (n - k) :=
    window_append slots head 0 k (n - k)
  rwa [Nat.add_sub_cancel' h, Nat.zero_add] at happ

theorem window_succ (slots : ℕ → α) (head i n : ℕ) :
    window cap slots head i (n + 1) =
      slots ((head + i) % cap) :: window cap slots head (i + 1) n := by
  unfold window
  rw [List.range'_succ, List.map_cons]

theorem window_congr {slots slots' : ℕ → α}
    (h : ∀ j, i ≤ j → j < i + n → slots ((head + j) % cap) = slots' ((head + j) % cap)) :
    window cap slots head i n = window cap slots' head i n := by
  refine List.map_congr_left fun j hj => ?_
  rw [List.mem_range'_1] at hj
  exact h j hj.1 hj.2

theorem window_shift {slots slots' : ℕ → α} {head' i' : ℕ}
    (h : ∀ j < n, slots ((head + (i + j)) % cap) = slots' ((head' + (i' + j)) % cap)) :
    window cap slots head i n = window cap slots' head' i' n := by
  unfold window
  rw [List.range'_eq_map_range, List.range'_eq_map_range, List.map_map, List.map_map]
  exact List.map_congr_left fun j hj => h j (List.mem_range.mp hj)

def Ring.toList (r : Ring α cap) : List α := window cap r.slots r.head 0 r.count

@[simp] theorem Ring.length_toList (r : Ring α cap) : r.toList.length = r.count := by
  simp [Ring.toList, window]

def Ring.empty (slots : ℕ → α) (h : 0 < cap) : Ring α cap where
  slots := slots
  head := 0
  tail := 0
  count := 0
  head_lt := h
  tail_eq := (Nat.zero_mod cap).symm
  count_le := Nat.zero_le cap

theorem slot_inj {h j : ℕ} (hi : i < cap) (hj : j < cap) (he : (h + i) % cap = (h + j) % cap) :
    i = j := by
  have hmod : i % cap = j % cap := Nat.ModEq.add_left_cancel' h he
  rwa [Nat.mod_eq_of_lt hi, Nat.mod_eq_of_lt hj] at hmod

/-! ## Appending -/

def Ring.enqueue (r : Ring α cap) (a : α) : Ring α cap :=
  if h : cap ≤ r.count then r
  else
    { slots := update r.slots r.tail a
      head := r.head
      tail := (r.tail + 1) % cap
      count := r.count + 1
      head_lt := r.head_lt
      tail_eq := by
        rw [r.tail_eq, Nat.mod_add_mod]
        rfl
      count_le := by omega }

theorem Ring.toList_enqueue (h : r.count < cap) (a : α) :
    (r.enqueue a).toList = r.toList ++ [a] := by
  have hne : ¬ cap ≤ r.count := by omega
  unfold Ring.toList Ring.enqueue
  rw [dif_neg hne]
  show window cap (update r.slots r.tail a) r.head 0 (r.count + 1) = _
  rw [window_append, window_succ, Nat.zero_add, r.tail_eq, update_self]
  refine congrArg (· ++ [a]) (window_congr fun i _ hi => ?_)
  -- the old entries are in other slots
  exact update_of_ne (fun he => absurd (slot_inj (by omega) h he) (by omega)) _ _

theorem Ring.enqueue_fields (h : r.count < cap) (a : α) :
    (r.enqueue a).slots = update r.slots r.tail a ∧ (r.enqueue a).head = r.head ∧
      (r.enqueue a).count = r.count + 1 := by
  unfold Ring.enqueue
  rw [dif_neg (Nat.not_le.mpr h)]
  exact ⟨rfl, rfl, rfl⟩

/-! ## Taking the head -/

def Ring.dequeue (r : Ring α cap) : Option α × Ring α cap :=
  if h : r.count = 0 then (none, r)
  else
    (some (r.slots r.head),
      { slots := r.slots
        head := (r.head + 1) % cap
        tail := r.tail
        count := r.count - 1
        head_lt := Nat.mod_lt _ (Nat.lt_of_le_of_lt (Nat.zero_le _) r.head_lt)
        tail_eq := by
          rw [r.tail_eq, Nat.mod_add_mod]
          congr 1
          omega
        count_le := by
          have := r.count_le
          omega })

theorem Ring.dequeue_of_pos (h : 0 < r.count) :
    ∃ a r', r.dequeue = (some a, r') ∧ r.toList = a :: r'.toList := by
  have hne : ¬ r.count = 0 := by omega
  refine ⟨r.slots r.head, _, dif_neg hne, ?_⟩
  show window cap r.slots r.head 0 r.count =
    r.slots r.head :: window cap r.slots ((r.head + 1) % cap) 0 (r.count - 1)
  obtain ⟨n, hn⟩ := Nat.exists_eq_add_of_lt h
  rw [show r.count = n + 1 by omega, window_succ, Nat.add_zero, Nat.mod_eq_of_lt r.head_lt,
    Nat.add_sub_cancel]
  refine congrArg (List.cons _) (window_shift fun j _ => congrArg r.slots ?_)
  rw [Nat.mod_add_mod]
  congr 1
  omega

theorem Ring.dequeue_eq (r : Ring α cap) :
    r.dequeue.1 = r.toList.head? ∧ r.dequeue.2.toList = r.toList.tail := by
  rcases Nat.eq_zero_or_pos r.count with h0 | hpos
  · have hnil : r.toList = [] := List.length_eq_zero_iff.mp (r.length_toList.trans h0)
    rw [Ring.dequeue, dif_pos h0, hnil]
    exact ⟨rfl, rfl⟩
  · obtain ⟨a, r', hd, hlist⟩ := Ring.dequeue_of_pos hpos
    rw [hd, hlist]
    exact ⟨rfl, rfl⟩

theorem Ring.dequeue_fields (h : 0 < r.count) :
    r.dequeue.2.slots = r.slots ∧ r.dequeue.2.head = (r.head + 1) % cap ∧
      r.dequeue.2.count = r.count - 1 := by
  unfold Ring.dequeue
  rw [dif_neg h.ne']
  exact ⟨rfl, rfl, rfl⟩

theorem Ring.slots_dequeue (r : Ring α cap) : r.dequeue.2.slots = r.slots := by
  unfold Ring.dequeue
  split
  · rfl
  · rfl

/-! ## Several entries -/

def Ring.enqueueAll (r : Ring α cap) (l : List α) : Ring α cap := l.foldl Ring.enqueue r

theorem Ring.toList_enqueueAll {l : List α} (h : r.count + l.length ≤ cap) :
    (r.enqueueAll l).toList = r.toList ++ l := by
  induction l generalizing r with
  | nil => exact (List.append_nil _).symm
  | cons a l ih =>
    rw [List.length_cons] at h
    have hroom : r.count < cap := by omega
    have hcount : (r.enqueue a).count = r.count + 1 := (Ring.enqueue_fields hroom a).2.2
    calc ((r.enqueue a).enqueueAll l).toList
        = (r.enqueue a).toList ++ l := ih (by omega)
      _ = r.toList ++ a :: l := by rw [Ring.toList_enqueue hroom, List.append_assoc]; rfl

def Ring.dequeueMany : ℕ → Ring α cap → List α × Ring α cap
  | 0, r => ([], r)
  | n + 1, r =>
    match r.dequeue with
    | (none, r') => ([], r')
    | (some a, r') =>
      let rest := Ring.dequeueMany n r'
      (a :: rest.1, rest.2)

theorem Ring.dequeueMany_eq (n : ℕ) (r : Ring α cap) :
    (r.dequeueMany n).1 = r.toList.take n ∧ (r.dequeueMany n).2.toList = r.toList.drop n := by
  induction n generalizing r with
  | zero => exact ⟨rfl, rfl⟩
  | succ n ih =>
    rcases Nat.eq_zero_or_pos r.count with h0 | hpos
    · have hnil : r.toList = [] := List.length_eq_zero_iff.mp (r.length_toList.trans h0)
      have hnone : r.dequeueMany (n + 1) = ([], r) := by
        rw [Ring.dequeueMany, Ring.dequeue, dif_pos h0]
      rw [hnone, hnil]
      exact ⟨rfl, rfl⟩
    · obtain ⟨a, r', hd, hlist⟩ := Ring.dequeue_of_pos hpos
      have hsome : r.dequeueMany (n + 1) = (a :: (r'.dequeueMany n).1, (r'.dequeueMany n).2) := by
        rw [Ring.dequeueMany, hd]
      rw [hsome, hlist, List.take_succ_cons, List.drop_succ_cons]
      exact ⟨congrArg (List.cons a) (ih r').1, (ih r').2⟩

/-! ## Removing an entry -/

def shiftUp (cap head : ℕ) : ℕ → ℕ → (ℕ → α) → (ℕ → α)
  | 0, _, slots => slots
  | n + 1, j, slots =>
    shiftUp cap head n (j + 1)
      (update slots ((head + j) % cap) (slots ((head + j + 1) % cap)))

theorem shiftUp_apply : ∀ (n j : ℕ) (slots : ℕ → α), j + n < cap → ∀ k < cap,
      shiftUp cap head n j slots ((head + k) % cap) =
        if j ≤ k ∧ k < j + n then slots ((head + k + 1) % cap) else slots ((head + k) % cap) := by
  intro n
  induction n with
  | zero =>
    intro j slots _ k _
    rw [if_neg (by omega)]
    rfl
  | succ n ih =>
    intro j slots hcap k hk
    unfold shiftUp
    rw [ih (j + 1) _ (by omega) k hk]
    -- the slot just written is read only at `k = j`
    have hread : ∀ m, m < cap → m ≠ j →
        update slots ((head + j) % cap) (slots ((head + j + 1) % cap)) ((head + m) % cap) =
          slots ((head + m) % cap) := fun m hm hne =>
      update_of_ne (fun he => hne (slot_inj hm (by omega) he)) _ _
    by_cases hjk : k = j
    · subst hjk
      rw [if_neg (by omega), if_pos (by omega), update_self]
    · by_cases hin : j + 1 ≤ k ∧ k < j + 1 + n
      · rw [if_pos hin, if_pos (by omega)]
        exact hread (k + 1) (by omega) (by omega)
      · rw [if_neg hin, if_neg (by omega)]
        exact hread k hk hjk

section Remove

variable [DecidableEq α]

def Ring.scan (r : Ring α cap) (a : α) : ℕ → ℕ → Option ℕ
  | 0, _ => none
  | n + 1, i => if r.slots ((r.head + i) % cap) = a then some i else r.scan a n (i + 1)

def Ring.remove (r : Ring α cap) (a : α) : Bool × Ring α cap :=
  match r.scan a r.count 0 with
  | none => (false, r)
  | some i =>
    if h : 0 < r.count then
      (true,
        { slots := shiftUp cap r.head (r.count - 1 - i) i r.slots
          head := r.head
          tail := (r.tail + (cap - 1)) % cap
          count := r.count - 1
          head_lt := r.head_lt
          tail_eq := by
            have hcap : 0 < cap := Nat.lt_of_le_of_lt (Nat.zero_le _) r.head_lt
            rw [r.tail_eq, Nat.mod_add_mod]
            rw [show r.head + r.count + (cap - 1) = r.head + (r.count - 1) + cap by omega]
            rw [Nat.add_mod_right]
          count_le := by
            have := r.count_le
            omega })
    else (false, r)

theorem Ring.scan_none {a : α} :
    ∀ n i, r.scan a n i = none → ∀ k, i ≤ k → k < i + n → r.slots ((r.head + k) % cap) ≠ a := by
  intro n
  induction n with
  | zero =>
    intro i _ k hik hk
    omega
  | succ n ih =>
    intro i h k hik hk
    unfold Ring.scan at h
    by_cases he : r.slots ((r.head + i) % cap) = a
    · rw [if_pos he] at h
      cases h
    · rw [if_neg he] at h
      rcases Nat.lt_or_eq_of_le hik with hlt | rfl
      · exact ih (i + 1) h k hlt (by omega)
      · exact he

theorem Ring.scan_some {a : α} : ∀ n i k, r.scan a n i = some k →
      k < i + n ∧ r.slots ((r.head + k) % cap) = a ∧ ∀ j, i ≤ j → j < k → r.slots ((r.head + j) % cap) ≠ a := by
  intro n
  induction n with
  | zero =>
    intro i k h
    cases h
  | succ n ih =>
    intro i k h
    unfold Ring.scan at h
    by_cases he : r.slots ((r.head + i) % cap) = a
    · rw [if_pos he] at h
      cases h
      exact ⟨by omega, he, fun j h1 h2 => absurd h1 (by omega)⟩
    · rw [if_neg he] at h
      obtain ⟨hlt, hk, hbefore⟩ := ih (i + 1) k h
      refine ⟨by omega, hk, fun j h1 h2 => ?_⟩
      rcases Nat.lt_or_eq_of_le h1 with h3 | rfl
      · exact hbefore j h3 h2
      · exact he

theorem Ring.toList_remove (r : Ring α cap) (a : α) :
    (r.remove a).2.toList = r.toList.erase a := by
  unfold Ring.remove
  rcases hs : r.scan a r.count 0 with _ | i
  · have hnot : a ∉ r.toList := fun hm => by
      obtain ⟨k, -, hk, he⟩ := mem_window.mp hm
      exact Ring.scan_none r.count 0 hs k (Nat.zero_le k) hk he
    exact (List.erase_of_not_mem hnot).symm
  · obtain ⟨hi, he, hbefore⟩ := Ring.scan_some r.count 0 i hs
    have hle := r.count_le
    obtain ⟨n, hn⟩ := Nat.exists_eq_add_of_lt (show i < r.count by omega)
    simp only [dif_pos (show 0 < r.count by omega)]
    show window cap (shiftUp cap r.head (r.count - 1 - i) i r.slots) r.head 0 (r.count - 1) =
      (window cap r.slots r.head 0 r.count).erase a
    rw [show r.count - 1 = i + n by omega, show i + n - i = n by omega,
      show r.count = i + (n + 1) by omega, window_append, window_append, window_succ, Nat.zero_add,
      he, List.erase_append_right _ fun hm => ?_, List.erase_cons_head]
    · refine congrArg₂ (· ++ ·) (window_congr fun j _ hj => ?_) (window_shift fun j hj => ?_)
      · rw [shiftUp_apply n i r.slots (by omega) j (by omega), if_neg (by omega)]
      · rw [shiftUp_apply n i r.slots (by omega) (i + j) (by omega), if_pos (by omega)]
        congr 2
        omega
    · obtain ⟨j, -, hj, hja⟩ := mem_window.mp hm
      exact hbefore j (Nat.zero_le j) (by omega) hja

theorem Ring.remove_eq_true (r : Ring α cap) (a : α) : (r.remove a).1 = true ↔ a ∈ r.toList := by
  unfold Ring.remove
  rcases hs : r.scan a r.count 0 with _ | i
  · refine iff_of_false Bool.false_ne_true fun hm => ?_
    obtain ⟨k, -, hk, he⟩ := mem_window.mp hm
    exact Ring.scan_none r.count 0 hs k (Nat.zero_le k) hk he
  · obtain ⟨hi, he, -⟩ := Ring.scan_some r.count 0 i hs
    simp only [dif_pos (show 0 < r.count by omega)]
    exact iff_of_true trivial (mem_window.mpr ⟨i, Nat.zero_le i, hi, he⟩)

end Remove

/-! ## Blocks of entries

A ring is also read and written in blocks.  A block that crosses the end of the array is in two
pieces, one up to the end and one from the start. -/

section Blocks

variable {slots src : ℕ → α} {head tail n k : ℕ}

theorem slot_eq (hh : head < cap) (hk : k < cap) :
    (head + k) % cap = if head + k < cap then head + k else head + k - cap := by
  split_ifs with h
  · exact Nat.mod_eq_of_lt h
  · rw [Nat.mod_eq_sub_mod (by omega), Nat.mod_eq_of_lt (by omega)]

def readBlock (cap : ℕ) (slots : ℕ → α) (head n : ℕ) : List α :=
  let first := min (cap - head) n
  (List.range first).map (fun j => slots (head + j)) ++ (List.range (n - first)).map slots

@[simp] theorem length_readBlock : (readBlock cap slots head n).length = n := by
  simp only [readBlock, List.length_append, List.length_map, List.length_range]
  omega

theorem readBlock_eq_window (hh : head < cap) (hn : n ≤ cap) :
    readBlock cap slots head n = window cap slots head 0 n := by
  rw [window_split slots head (Nat.min_le_right (cap - head) n)]
  simp only [readBlock, window, List.range'_eq_map_range, List.map_map]
  refine congrArg₂ (· ++ ·) (List.map_congr_left fun j hj => ?_) (List.map_congr_left fun j hj => ?_)
  · rw [List.mem_range] at hj
    simp only [Function.comp_apply, Nat.zero_add]
    rw [Nat.mod_eq_of_lt (by omega)]
  · rw [List.mem_range] at hj
    simp only [Function.comp_apply]
    rw [slot_eq hh (by omega), if_neg (by omega)]
    congr 1
    omega

def fill (slots : ℕ → α) (o n : ℕ) (src : ℕ → α) : ℕ → α :=
  fun j => if o ≤ j ∧ j < o + n then src (j - o) else slots j

def writeBlock (cap : ℕ) (slots : ℕ → α) (tail : ℕ) (src : ℕ → α) (n : ℕ) : ℕ → α :=
  let first := min (cap - tail) n
  fill (fill slots tail first src) 0 (n - first) fun j => src (first + j)

theorem writeBlock_apply (ht : tail < cap) (hn : n ≤ cap) (hk : k < cap) :
    writeBlock cap slots tail src n ((tail + k) % cap) =
      if k < n then src k else slots ((tail + k) % cap) := by
  rw [slot_eq ht hk]
  simp only [writeBlock, fill]
  split_ifs <;> first
    | rfl
    | (congr 1; omega)
    | omega

theorem window_writeBlock {count : ℕ} (hh : head < cap) (ht : tail = (head + count) % cap)
    (hn : count + n ≤ cap) :
    window cap (writeBlock cap slots tail src n) head 0 (count + n) =
      window cap slots head 0 count ++ (List.range n).map src := by
  have hcap : 0 < cap := by omega
  have htail : tail < cap := ht ▸ Nat.mod_lt _ hcap
  rw [window_append, Nat.zero_add]
  refine congrArg₂ (· ++ ·) (window_congr fun j _ hj => ?_) ?_
  · -- An old entry is `cap - count + j` places behind the tail.
    have hplace : (head + j) % cap = (tail + (cap - count + j)) % cap := by
      rw [ht, Nat.mod_add_mod]
      rw [show head + count + (cap - count + j) = head + j + cap by omega, Nat.add_mod_right]
    rw [hplace, writeBlock_apply htail (by omega) (by omega), if_neg (by omega)]
  · simp only [window, List.range'_eq_map_range, List.map_map]
    refine List.map_congr_left fun j hj => ?_
    rw [List.mem_range] at hj
    have hplace : (head + (count + j)) % cap = (tail + j) % cap := by
      rw [ht, Nat.mod_add_mod, Nat.add_assoc]
    simp only [Function.comp_apply]
    rw [hplace, writeBlock_apply htail (by omega) (by omega), if_pos hj]

end Blocks

end RingQueue
