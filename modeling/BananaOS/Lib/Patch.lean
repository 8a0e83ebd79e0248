import BananaOS.Lib.Bytes

/-!
# Patches

A patch puts some bytes at a place in a byte memory.  A list of patches is applied from left to
right, so of two that meet the later one wins.  Where all patches that meet a byte agree on it the
order does not matter (`applyAll_of_agree`), and that is how a memory that was written piece by
piece is read: one names a patch, and shows that no other patch meets it.
-/

structure Patch where
  off : ℕ
  len : ℕ
  data : Bytes

namespace Patch

open Bytes

variable {w : Patch} {ws ws' : List Patch} {p : Bytes} {j : ℕ} {v : Byte}

def Covers (w : Patch) (j : ℕ) : Prop := w.off ≤ j ∧ j < w.off + w.len

def applyAll (ws : List Patch) (p : Bytes) : Bytes :=
  ws.foldl (fun q w => copyIn q w.off w.len w.data) p

theorem applyAll_cons : applyAll (w :: ws) p = applyAll ws (copyIn p w.off w.len w.data) := rfl

theorem applyAll_append : applyAll (ws ++ ws') p = applyAll ws' (applyAll ws p) := List.foldl_append

theorem applyAll_singleton : applyAll [w] p = copyIn p w.off w.len w.data := rfl

theorem copyIn_of_not_covers (h : ¬ w.Covers j) : copyIn p w.off w.len w.data j = p j := if_neg h

theorem copyIn_of_covers (h : w.Covers j) :
    copyIn p w.off w.len w.data j = w.data (j - w.off) := if_pos h

theorem applyAll_out (h : ∀ w ∈ ws, ¬ w.Covers j) : applyAll ws p j = p j := by
  induction ws generalizing p with
  | nil => rfl
  | cons w ws ih =>
    rw [applyAll_cons, ih fun w' hw' => h w' (List.mem_cons_of_mem _ hw')]
    exact copyIn_of_not_covers (h w List.mem_cons_self)

theorem applyAll_of_agree (hw : w ∈ ws) (hcov : w.Covers j)
    (h : ∀ w' ∈ ws, w'.Covers j → w'.data (j - w'.off) = v) : applyAll ws p j = v := by
  -- The last patch that meets the byte decides.
  induction ws using List.reverseRecOn with
  | nil => exact absurd hw List.not_mem_nil
  | append_singleton ws w' ih =>
    rw [applyAll_append, applyAll_singleton]
    by_cases hlast : w'.Covers j
    · rw [copyIn_of_covers hlast]
      exact h w' (List.mem_append_right _ List.mem_cons_self) hlast
    · rw [copyIn_of_not_covers hlast]
      have hw : w ∈ ws := by
        rcases List.mem_append.mp hw with hw | hw
        · exact hw
        · rw [List.mem_singleton] at hw
          exact absurd (hw ▸ hcov) hlast
      exact ih hw fun w'' hw'' => h w'' (List.mem_append_left _ hw'')

theorem applyAll_map_congr {κ : Type*} {f f' : κ → Patch} (ks : List κ) {q : Bytes}
    (hoff : ∀ k, (f' k).off = (f k).off) (hlen : ∀ k, (f' k).len = (f k).len)
    (hdata : ∀ k ∈ ks, (f k).Covers j → (f' k).data (j - (f k).off) = (f k).data (j - (f k).off))
    (hpq : q j = p j) : applyAll (ks.map f') q j = applyAll (ks.map f) p j := by
  induction ks generalizing p q with
  | nil => exact hpq
  | cons k ks ih =>
    rw [List.map_cons, List.map_cons, applyAll_cons, applyAll_cons]
    refine ih (fun k' hk' => hdata k' (List.mem_cons_of_mem _ hk')) ?_
    have hiff : (f' k).Covers j ↔ (f k).Covers j := by
      simp only [Covers, hoff, hlen]
    by_cases hcov : (f k).Covers j
    · rw [copyIn_of_covers hcov, copyIn_of_covers (hiff.mpr hcov), hoff]
      exact hdata k List.mem_cons_self hcov
    · rw [copyIn_of_not_covers hcov, copyIn_of_not_covers (mt hiff.mp hcov), hpq]

end Patch
