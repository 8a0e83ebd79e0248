import BananaOS.Elf.UserStack

/-!
# Tab completion

`shell_tab_complete` goes through the table of commands once.  The first name that begins with the
prefix is copied to the output, and each later one cuts the output down to what the two share.  So
the output is at every moment the longest common prefix of the names that matched so far, which is
a greatest lower bound for `<+:` and therefore does not depend on the order of the table.
-/

namespace BananaOS.Shell

open Elf (CString)

/-! ## What two words share -/

section Common

variable {α : Type*}

/-- `p` is a common prefix of the words, and every other one is a prefix of it. -/
def LongestCommonPrefix (words : List (List α)) (p : List α) : Prop :=
  (∀ w ∈ words, p <+: w) ∧ ∀ q, (∀ w ∈ words, q <+: w) → q <+: p

theorem LongestCommonPrefix.singleton (w : List α) : LongestCommonPrefix [w] w := by
  simp [LongestCommonPrefix]

variable [DecidableEq α]

/-- How far two words agree: both inner loops of `shell_tab_complete`. -/
def commonLen : List α → List α → ℕ
  | a :: s, b :: t => if a = b then commonLen s t + 1 else 0
  | _, _ => 0

theorem prefix_take_commonLen_iff (q s t : List α) :
    q <+: s.take (commonLen s t) ↔ q <+: s ∧ q <+: t := by
  induction s generalizing q t with
  | nil => simp +contextual [commonLen]
  | cons a s ih =>
    cases q with
    | nil => simp
    | cons c q =>
      cases t with
      | nil => simp [commonLen]
      | cons b t =>
        by_cases hab : a = b
        · simp only [commonLen, hab, if_true, List.take_succ_cons, List.cons_prefix_cons, ih]
          tauto
        · simp only [commonLen, hab, if_false, List.take_zero, List.prefix_nil,
            List.cons_prefix_cons]
          grind

theorem commonLen_le (s t : List α) : commonLen s t ≤ s.length := by
  fun_induction commonLen s t with grind

theorem commonLen_eq_length_iff (s t : List α) : commonLen s t = s.length ↔ s <+: t := by
  have hcut := prefix_take_commonLen_iff s s t
  constructor
  · intro h
    rw [h, List.take_length] at hcut
    exact (hcut.mp List.prefix_rfl).2
  · intro h
    have hle := (hcut.mpr ⟨List.prefix_rfl, h⟩).length_le
    rw [List.length_take] at hle
    exact le_antisymm (commonLen_le s t) (hle.trans (min_le_left _ _))

/-- One more word cuts the common prefix down to what the two share. -/
theorem LongestCommonPrefix.snoc {words : List (List α)} {p : List α}
    (h : LongestCommonPrefix words p) (w : List α) :
    LongestCommonPrefix (words ++ [w]) (p.take (commonLen p w)) := by
  have hcut := (prefix_take_commonLen_iff (p.take (commonLen p w)) p w).mp List.prefix_rfl
  refine ⟨fun v hv => ?_, fun q hq => ?_⟩
  · rcases List.mem_append.mp hv with hv | hv
    · exact hcut.1.trans (h.1 v hv)
    · rw [List.mem_singleton.mp hv]
      exact hcut.2
  · have hp : q <+: p := h.2 q fun v hv => hq v (List.mem_append_left _ hv)
    exact (prefix_take_commonLen_iff q p w).mpr ⟨hp, hq w (by simp)⟩

end Common

/-! ## The loop over the table -/

/-- One command: the number of matches so far and the text in the output buffer. -/
def tabStep (pre : CString) (max : ℤ) (r : ℕ × CString) (name : CString) : ℕ × CString :=
  if commonLen pre name ≠ pre.length then r
  else if r.1 = 0 then (r.1 + 1, name.take (max - 1).toNat)
  else (r.1 + 1, r.2.take (commonLen r.2 name))

/-- `shell_tab_complete`, with the names of `cmd_table`; a null pointer is `none`, and the second
result is what `out` holds afterwards. -/
def shellTabComplete (table : List CString) (pre out : Option CString) (max : ℤ) :
    ℕ × Option CString :=
  match pre, out with
  | some p, some _ =>
    if max ≤ 0 then (0, out)
    else
      let r := table.foldl (tabStep p max) (0, [])
      (r.1, some r.2)
  | _, _ => (0, out)

/-- The commands that begin with the prefix. -/
def candidates (pre : CString) (table : List CString) : List CString :=
  table.filter (pre <+: ·)

/-- What the loop keeps, after the names `done`. -/
structure TabInv (pre : CString) (done : List CString) (r : ℕ × CString) : Prop where
  count : r.1 = (candidates pre done).length
  text : 1 ≤ r.1 → LongestCommonPrefix (candidates pre done) r.2

variable {pre name : CString} {max : ℤ} {done table : List CString} {r : ℕ × CString}

theorem TabInv.step (h : TabInv pre done r) (hname : name.length < max) :
    TabInv pre (done ++ [name]) (tabStep pre max r name) := by
  unfold tabStep
  by_cases hpre : pre <+: name
  · have hadd : candidates pre (done ++ [name]) = candidates pre done ++ [name] := by
      simp [candidates, hpre]
    have hcount : r.1 + 1 = (candidates pre (done ++ [name])).length := by
      rw [hadd, List.length_append, h.count, List.length_singleton]
    rw [if_neg (not_not.mpr ((commonLen_eq_length_iff _ _).mpr hpre))]
    split_ifs with hfirst
    · refine ⟨hcount, fun _ => ?_⟩
      -- the buffer has room for the whole name
      have hnone : candidates pre done = [] :=
        List.eq_nil_of_length_eq_zero (h.count.symm.trans hfirst)
      rw [hadd, hnone, List.take_of_length_le (by omega)]
      exact .singleton name
    · refine ⟨hcount, fun _ => ?_⟩
      rw [hadd]
      exact (h.text (Nat.one_le_iff_ne_zero.mpr hfirst)).snoc name
  · have hsame : candidates pre (done ++ [name]) = candidates pre done := by
      simp [candidates, hpre]
    rw [if_pos (mt (commonLen_eq_length_iff _ _).mp hpre)]
    exact ⟨hsame ▸ h.count, hsame ▸ h.text⟩

theorem TabInv.run (h : TabInv pre done r) (htable : ∀ name ∈ table, (name.length : ℤ) < max) :
    TabInv pre (done ++ table) (table.foldl (tabStep pre max) r) := by
  induction table generalizing done r with
  | nil => simpa using h
  | cons name table ih =>
    have hstep := h.step (htable name List.mem_cons_self)
    have hrun := ih hstep fun w hw => htable w (List.mem_cons_of_mem name hw)
    rwa [List.append_assoc, List.singleton_append] at hrun

/-- **Tab completion.**  The number of commands that begin with the prefix, and the longest text
that all of them begin with. -/
theorem shellTabComplete_spec (table : List CString) (pre old : CString) (max : ℤ)
    (hmax : ∀ name ∈ table, (name.length : ℤ) < max) :
    (shellTabComplete table (some pre) (some old) max).1 = (candidates pre table).length ∧
      (1 ≤ (shellTabComplete table (some pre) (some old) max).1 →
        ∃ out, (shellTabComplete table (some pre) (some old) max).2 = some out ∧
          LongestCommonPrefix (candidates pre table) out) := by
  rw [shellTabComplete]
  by_cases hpos : max ≤ 0
  · -- a table with a name in it asks for a larger buffer
    have hnil : table = [] := by
      refine List.eq_nil_iff_forall_not_mem.mpr fun name hname => ?_
      have := hmax name hname
      omega
    simp [hpos, hnil, candidates]
  · have hinit : TabInv pre [] (0, []) := ⟨rfl, fun h => absurd h (by decide)⟩
    have hrun := hinit.run hmax
    rw [if_neg hpos]
    exact ⟨hrun.count, fun h => ⟨_, rfl, hrun.text h⟩⟩

/-- `help`, `mem` and `hello`, completed from `h`. -/
theorem shellTabComplete_spec_help :
    LongestCommonPrefix
      (candidates [0x68]
        [[0x68, 0x65, 0x6C, 0x70], [0x6D, 0x65, 0x6D], [0x68, 0x65, 0x6C, 0x6C, 0x6F]])
      [0x68, 0x65, 0x6C] := by
  obtain ⟨out, hout, hlongest⟩ := (shellTabComplete_spec
    [[0x68, 0x65, 0x6C, 0x70], [0x6D, 0x65, 0x6D], [0x68, 0x65, 0x6C, 0x6C, 0x6F]]
    [0x68] [] 64 (by decide)).2 (by decide)
  rwa [← Option.some.inj hout] at hlongest

end BananaOS.Shell
