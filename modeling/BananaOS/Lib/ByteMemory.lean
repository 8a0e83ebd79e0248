import Mathlib

/-!
# A byte-addressed memory

Memory with 64-bit addresses, as a process sees it: bytes, and little-endian 64-bit words at any
address.  A range is given by its first address and its length and wraps around, so an address lies
in it when its distance from the first address is less than the length; no ordering of addresses is
involved.
-/

namespace ByteMemory

abbrev Addr := BitVec 64

abbrev Mem := Addr → BitVec 8

def InRange (a : Addr) (n : ℕ) (x : Addr) : Prop := (x - a).toNat < n

instance (a : Addr) (n : ℕ) (x : Addr) : Decidable (InRange a n x) :=
  inferInstanceAs (Decidable (_ < _))

/-- The ranges of `n` bytes from `a` and of `k` bytes from `b` have no byte in common. -/
def Sep (a : Addr) (n : ℕ) (b : Addr) (k : ℕ) : Prop := ∀ x, InRange a n x → ¬ InRange b k x

def byteAt (w : BitVec 64) (k : ℕ) : BitVec 8 := w.extractLsb' (8 * k) 8

def word (m : Mem) (a : Addr) : BitVec 64 :=
  m (a + 7#64) ++ (m (a + 6#64) ++ (m (a + 5#64) ++ (m (a + 4#64) ++ (m (a + 3#64) ++
    (m (a + 2#64) ++ (m (a + 1#64) ++ m (a + 0#64)))))))

def store (m : Mem) (a : Addr) (ws : List (BitVec 64)) : Mem := fun x =>
  if InRange a (8 * ws.length) x then byteAt (ws.getD ((x - a).toNat / 8) 0) ((x - a).toNat % 8)
  else m x

variable {m m' : Mem} {a b x : Addr} {n k : ℕ}

/-! ## Ranges -/

theorem sub_add_toNat (a : Addr) (h : k < 2 ^ 64) : (a + BitVec.ofNat 64 k - a).toNat = k := by
  rw [BitVec.add_comm, BitVec.add_sub_cancel, BitVec.toNat_ofNat]
  exact Nat.mod_eq_of_lt h

theorem inRange_add (a : Addr) (h : k < n) (hn : n ≤ 2 ^ 64) : InRange a n (a + BitVec.ofNat 64 k) := by
  unfold InRange
  rwa [sub_add_toNat a (h.trans_le hn)]

theorem sep_iff (hn : 0 < n) (hk : 0 < k) : Sep a n b k ↔ ¬ InRange b k a ∧ ¬ InRange a n b := by
  constructor
  · intro h
    refine ⟨h a ?_, fun hb => h b hb ?_⟩
    · unfold InRange
      rwa [BitVec.sub_self]
    · unfold InRange
      rwa [BitVec.sub_self]
  · rintro ⟨hb, ha⟩ x hxa hxb
    unfold InRange at *
    -- the distances of `x` from the two beginnings differ by the distance of the beginnings
    bv_omega

/-! ## Words -/

theorem word_of_bytes {w : BitVec 64}
    (h : ∀ k < 8, m (a + BitVec.ofNat 64 k) = byteAt w k) : word m a = w := by
  unfold word
  rw [h 0 (by decide), h 1 (by decide), h 2 (by decide), h 3 (by decide), h 4 (by decide),
    h 5 (by decide), h 6 (by decide), h 7 (by decide)]
  refine BitVec.eq_of_getLsbD_eq fun i hi => ?_
  unfold byteAt
  simp only [BitVec.getLsbD_append, BitVec.getLsbD_extractLsb']
  split_ifs
  all_goals
    rw [decide_eq_true (by omega), Bool.true_and]
    congr 1
    omega

theorem word_congr (h : ∀ k < 8, m (a + BitVec.ofNat 64 k) = m' (a + BitVec.ofNat 64 k)) :
    word m a = word m' a := by
  unfold word
  rw [h 0 (by decide), h 1 (by decide), h 2 (by decide), h 3 (by decide), h 4 (by decide),
    h 5 (by decide), h 6 (by decide), h 7 (by decide)]

/-! ## Stores -/

theorem store_of_not_mem {ws : List (BitVec 64)} (h : ¬ InRange a (8 * ws.length) x) :
    store m a ws x = m x := if_neg h

theorem word_store_of_lt (m : Mem) (a : Addr) {ws : List (BitVec 64)} (hk : k < ws.length)
    (hlen : 8 * ws.length ≤ 2 ^ 64) :
    word (store m a ws) (a + BitVec.ofNat 64 (8 * k)) = ws.getD k 0 := by
  refine word_of_bytes fun j hj => ?_
  have hsum : a + BitVec.ofNat 64 (8 * k) + BitVec.ofNat 64 j = a + BitVec.ofNat 64 (8 * k + j) := by
    rw [BitVec.add_assoc, ← BitVec.ofNat_add]
  have hlt : 8 * k + j < 8 * ws.length := by omega
  have hsub : (a + BitVec.ofNat 64 (8 * k + j) - a).toNat = 8 * k + j :=
    sub_add_toNat a (hlt.trans_le hlen)
  rw [hsum]
  unfold store
  rw [if_pos (inRange_add a hlt hlen), hsub, show (8 * k + j) / 8 = k by omega,
    show (8 * k + j) % 8 = j by omega]

end ByteMemory
