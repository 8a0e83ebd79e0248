import BananaOS.Elf.Execve

/-!
# The environment that `execve` hands on

The strings of the caller go over seven defaults, each in the place of the one with its key.  The key
is compared through a buffer of 32 bytes, so a longer one counts as its first 31 bytes: it takes the
place of a string with that shorter key, and it never finds an earlier string with its own.
-/

namespace BananaOS.Elf

open Bytes

def envKey (e : CString) : CString := e.takeWhile (· ≠ 0x3D)

/-- A string `KEY=value`. -/
def EnvEntry (e : CString) : Prop := ∃ key value, 0x3D ∉ key ∧ e = key ++ 0x3D :: value

/-- `menv` is the map of `defaults`, overridden by `es`: under each key there is the last string with
it, and no other. -/
def Overridden (defaults es menv : List CString) : Prop :=
  ∀ key, menv.filter (envKey · = key) =
    ((defaults ++ es).filter (envKey · = key)).getLast?.toList

/-- Of the strings for `key`, latest first: the latest one that has it, or is cut off to it, fits in
the buffer, or none before has it. -/
def FitsAt (key : CString) : List CString → Prop
  | [] => True
  | e :: es =>
    if envKey e = key ∨ envKeyOf e 32 = key then
      (envKey e).length ≤ 31 ∨ ∀ e' ∈ es, envKey e' ≠ key
    else FitsAt key es

/-! ## One string -/

theorem envKey_append {key : CString} (h : 0x3D ∉ key) (value : CString) :
    envKey (key ++ 0x3D :: value) = key := by
  rw [envKey, List.takeWhile_append_of_pos, List.takeWhile_cons_of_neg (by decide), List.append_nil]
  intro c hc
  exact decide_eq_true fun h0 => h (h0 ▸ hc)

theorem EnvEntry.of_prefix {e key : CString} (h : 0x3D ∉ key) (hp : key ++ [0x3D] <+: e) :
    EnvEntry e ∧ envKey e = key := by
  obtain ⟨value, rfl⟩ := hp
  rw [List.append_assoc]
  exact ⟨⟨key, value, h, rfl⟩, envKey_append h value⟩

theorem envKeyMatch_iff {e key : CString} (he : EnvEntry e) (h : 0x3D ∉ key) :
    envKeyMatch e key = true ↔ envKey e = key := by
  rw [envKeyMatch, beq_iff_eq]
  constructor
  · exact fun htake => (EnvEntry.of_prefix h (htake ▸ List.take_prefix _ _)).2
  · rintro rfl
    obtain ⟨key, value, hkey, rfl⟩ := he
    rw [envKey_append hkey, List.take_length_add_append]
    rfl

theorem envKeyOf_eq {e : CString} (h : (envKey e).length ≤ 31) : envKeyOf e 32 = envKey e :=
  List.take_of_length_le h

theorem length_envKeyOf (e : CString) : (envKeyOf e 32).length ≤ 31 := List.length_take_le _ _

theorem not_mem_envKeyOf (e : CString) : 0x3D ∉ envKeyOf e 32 := fun h =>
  absurd (List.mem_takeWhile_imp (List.mem_of_mem_take h)) (by decide)

structure EnvInv (menv : List CString) : Prop where
  entry : ∀ e ∈ menv, EnvEntry e
  unique : ∀ key : CString, key.length ≤ 31 → (menv.filter (envKey · = key)).length ≤ 1

/-- What a string does to those with `key`, but for the order. -/
def overwrite (key : CString) (l : List CString) (e : CString) : List CString :=
  (if envKeyOf e 32 = key then [] else l) ++ [e].filter (envKey · = key)

theorem overwrite_perm (key e : CString) {l l' : List CString} (h : l.Perm l') :
    (overwrite key l e).Perm (overwrite key l' e) := by
  rw [overwrite, overwrite]
  split_ifs
  · exact .refl _
  · exact h.append_right _

theorem mergeOne_cons (a : CString) (menv : List CString) (e : CString) :
    mergeOne (a :: menv) e =
      if envKeyMatch a (envKeyOf e 32) then e :: menv else a :: mergeOne menv e := by
  rw [mergeOne, List.findIdx?_cons]
  split_ifs
  · rfl
  · rw [mergeOne]
    cases menv.findIdx? (envKeyMatch · (envKeyOf e 32)) <;> rfl

theorem filter_mergeOne {menv : List CString} (e : CString) (h : EnvInv menv) (key : CString) :
    ((mergeOne menv e).filter (envKey · = key)).Perm
      (overwrite key (menv.filter (envKey · = key)) e) := by
  induction menv with
  | nil =>
    rw [overwrite, List.filter_nil, ite_self]
    exact .refl _
  | cons a menv ih =>
    have hmatch := envKeyMatch_iff (h.entry a List.mem_cons_self) (not_mem_envKeyOf e)
    have hone := h.unique _ (length_envKeyOf e)
    rw [mergeOne_cons]
    by_cases ha : envKey a = envKeyOf e 32
    · -- no other string has the key
      rw [if_pos (hmatch.mpr ha), overwrite, ← List.singleton_append, List.filter_append]
      refine (List.perm_append_comm).trans (.of_eq (congrArg (· ++ _) ?_))
      split_ifs with hk
      · rw [List.filter_cons_of_pos (by simp [ha]), hk, List.length_cons] at hone
        exact List.length_eq_zero_iff.mp (by omega)
      · rw [List.filter_cons_of_neg (by simpa [ha] using hk)]
    · have htail : EnvInv menv := ⟨fun b hb => h.entry b (List.mem_cons_of_mem a hb), fun k hk =>
        le_trans ((List.sublist_cons_self a menv).filter _).length_le (h.unique k hk)⟩
      rw [if_neg (mt hmatch.mp ha), ← List.singleton_append, List.filter_append,
        ← List.singleton_append (l := menv), List.filter_append]
      refine ((ih htail).append_left _).trans (.of_eq ?_)
      rw [overwrite, overwrite]
      split_ifs with hk
      · rw [List.filter_cons_of_neg (by simpa [← hk] using ha), List.filter_nil]
        rfl
      · rw [List.append_assoc]

theorem EnvInv.mergeOne {menv : List CString} {e : CString} (h : EnvInv menv) (he : EnvEntry e) :
    EnvInv (mergeOne menv e) := by
  refine ⟨fun a ha => ?_, fun key hkey => ?_⟩
  · rcases mem_mergeOne ha with ha | rfl
    · exact h.entry a ha
    · exact he
  · rw [(filter_mergeOne e h key).length_eq, overwrite]
    by_cases hcut : envKeyOf e 32 = key
    · rw [if_pos hcut, List.nil_append]
      exact List.length_filter_le _ [e]
    · have hne : envKey e ≠ key := fun hk => hcut ((envKeyOf_eq (hk ▸ hkey)).trans hk)
      rw [if_neg hcut, List.filter_cons_of_neg (by simpa using hne), List.filter_nil,
        List.append_nil]
      exact h.unique key hkey

theorem filter_mergeEnv (key : CString) : ∀ {es menv l : List CString}, EnvInv menv →
    (menv.filter (envKey · = key)).Perm l → (∀ e ∈ es, EnvEntry e) →
      menv.length + es.length ≤ execMaxEnv - 1 →
      ((mergeEnv menv es).filter (envKey · = key)).Perm (es.foldl (overwrite key) l) := by
  intro es
  induction es with
  | nil => exact fun _ hp _ _ => hp
  | cons e es ih =>
    intro menv l h hp hes hlen
    rw [List.length_cons] at hlen
    rw [mergeEnv, if_pos (by omega), List.foldl_cons]
    refine ih (h.mergeOne (hes e List.mem_cons_self))
      ((filter_mergeOne e h key).trans (overwrite_perm key e hp))
      (fun a ha => hes a (List.mem_cons_of_mem e ha)) ?_
    have hle := length_mergeOne_le menv e
    omega

/-! ## Under one key -/

section

variable {key : CString} {l : List CString}

/-- A key that is too long for the buffer is never found. -/
theorem foldl_overwrite_of_long (hkey : 31 < key.length) (es : List CString) :
    es.foldl (overwrite key) l = l ++ es.filter (envKey · = key) := by
  induction es using List.reverseRecOn with
  | nil => rw [List.foldl_nil, List.filter_nil, List.append_nil]
  | append_singleton es e ih =>
    have hcut : envKeyOf e 32 ≠ key := fun h => absurd (length_envKeyOf e) (by rw [h]; omega)
    rw [List.foldl_concat, overwrite, if_neg hcut, ih, List.filter_append, List.append_assoc]

theorem foldl_overwrite_iff (hone : l.length ≤ 1) (hlong : 31 ≤ key.length → l = [])
    (es : List CString) :
    es.foldl (overwrite key) l = (l ++ es.filter (envKey · = key)).getLast?.toList ↔
      FitsAt key es.reverse := by
  have hnone : 31 ≤ key.length → ∀ es : List CString,
      l ++ es.filter (envKey · = key) = [] ↔ ∀ e ∈ es, envKey e ≠ key := by
    intro hk es
    rw [hlong hk, List.nil_append, List.filter_eq_nil_iff]
    simp only [decide_eq_true_eq, ne_eq]
  induction es using List.reverseRecOn with
  | nil =>
    refine iff_of_true ?_ trivial
    match l, hone with
    | [], _ => rfl
    | [d], _ => rfl
  | append_singleton es e ih =>
    rw [List.foldl_concat, overwrite, List.filter_append, ← List.append_assoc, List.reverse_append,
      List.reverse_singleton, List.singleton_append, FitsAt]
    simp only [List.mem_reverse]
    by_cases hkey : envKey e = key
    · rw [List.filter_cons_of_pos (by simpa using hkey), List.filter_nil, List.getLast?_concat,
        if_pos (c := _ ∨ _) (.inl hkey)]
      by_cases hfit : (envKey e).length ≤ 31
      · rw [if_pos ((envKeyOf_eq hfit).trans hkey)]
        exact iff_of_true rfl (.inl hfit)
      · -- it does not find itself
        have hlen : 31 < key.length := hkey ▸ not_le.mp hfit
        have hcut : envKeyOf e 32 ≠ key := fun h => absurd (length_envKeyOf e) (by rw [h]; omega)
        rw [if_neg hcut, foldl_overwrite_of_long hlen, or_iff_right hfit, ← hnone hlen.le es]
        exact List.append_left_eq_self
    · rw [List.filter_cons_of_neg (by simpa using hkey), List.filter_nil, List.append_nil,
        List.append_nil]
      by_cases hcut : envKeyOf e 32 = key
      · -- a longer key takes the place of this one
        have hfit : ¬ (envKey e).length ≤ 31 := fun h => hkey ((envKeyOf_eq h).symm.trans hcut)
        have hlen : 31 ≤ key.length := by
          rw [← hcut, envKeyOf, List.length_take]
          exact le_min (le_refl 31) (not_le.mp hfit).le
        rw [if_pos hcut, if_pos (c := _ ∨ _) (.inr hcut), or_iff_right hfit, ← hnone hlen es,
          eq_comm, Option.toList_eq_nil_iff, List.getLast?_eq_none_iff]
      · rw [if_neg hcut, if_neg (c := _ ∨ _) (not_or.mpr ⟨hkey, hcut⟩)]
        exact ih

end

/-! ## The call -/

def defaultKeys : List CString :=
  ["PATH", "HOME", "TERM", "SHELL", "USER", "LOGNAME", "PWD"].map str

theorem defaultEnv_keys (task : Caller) :
    List.Forall₂ (fun e key => EnvEntry e ∧ envKey e = key) (defaultEnv task) defaultKeys := by
  have hcat : str "USER" ++ [0x3D] = str "USER=" ∧ str "LOGNAME" ++ [0x3D] = str "LOGNAME=" ∧
      str "PWD" ++ [0x3D] = str "PWD=" := by decide +kernel
  refine .cons ?_ (.cons ?_ (.cons ?_ (.cons ?_ (.cons ?_ (.cons ?_ (.cons ?_ .nil))))))
  · exact EnvEntry.of_prefix (by decide +kernel) (by decide +kernel)
  · exact EnvEntry.of_prefix (by decide +kernel) (by decide +kernel)
  · exact EnvEntry.of_prefix (by decide +kernel) (by decide +kernel)
  · exact EnvEntry.of_prefix (by decide +kernel) (by decide +kernel)
  · exact EnvEntry.of_prefix (by decide +kernel) (hcat.1 ▸ List.prefix_append _ _)
  · exact EnvEntry.of_prefix (by decide +kernel) (hcat.2.1 ▸ List.prefix_append _ _)
  · exact EnvEntry.of_prefix (by decide +kernel) (hcat.2.2 ▸ List.prefix_append _ _)

theorem defaultEnv_inv (task : Caller) :
    EnvInv (defaultEnv task) ∧ ∀ d ∈ defaultEnv task, (envKey d).length < 31 := by
  have hkeys : defaultKeys.Nodup ∧ ∀ key ∈ defaultKeys, key.length < 31 := by decide +kernel
  obtain ⟨hentry, hmap⟩ := (List.forall₂_and_left _ _).mp (defaultEnv_keys task)
  rw [← List.forall₂_map_left_iff (R := (· = ·)), List.forall₂_eq_eq_eq] at hmap
  refine ⟨⟨hentry, fun key _ => ?_⟩, fun d hd => hkeys.2 _ (hmap ▸ List.mem_map_of_mem hd)⟩
  have hone := List.nodup_iff_count_le_one.mp (hmap ▸ hkeys.1) key
  rw [List.count, List.countP_map, List.countP_eq_length_filter] at hone
  simpa only [Function.comp_def, beq_eq_decide] using hone

end BananaOS.Elf
