import BananaOS.Elf.UserStack

/-!
# What `execve` passes on

The arguments of a program go through two copies.  `exec_read_strvec` takes the vector and the
strings out of the caller's memory, a page for each string; `elf_build_user_stack` puts them on the
new stack.  The second copy is exact (`elfBuildUserStack_layout`).  The first one has two bounds, and
neither is reported: it stops after 15 strings, and it cuts a string off after 4095 bytes.  So what
arrives is `(argv.take 15).map (·.take 4095)` (`execReadStrvec_eq`), and a program gets its arguments
exactly if that is the vector itself.
-/

namespace BananaOS.Elf

open Bytes FailState
open Vm (PhysMem OwnRange userByte vmTranslate vmCopyFromUser)

def execMaxArgs : ℕ := 16
def execMaxEnv : ℕ := 24

/-! ## The call -/

def copyFrom (m : PhysMem) (root va n : ℕ) : Option Bytes :=
  let r := vmCopyFromUser m (some root) zero va n
  if r.1 < 0 then none else some r.2

/-- The loop of `exec_strncpy_from_user`, with `n` rounds to go. -/
def strncpyLoop (m : PhysMem) (root src : ℕ) : ℕ → ℕ → Option CString
  | 0, _ => some []
  | n + 1, i =>
    match copyFrom m root ((src + i) % 2 ^ 64) 1 with
    | none => none
    | some c => if c 0 = 0 then some [] else (strncpyLoop m root src n (i + 1)).map (c 0 :: ·)

/-- `exec_strncpy_from_user`: a string without an end gets one at its last byte. -/
def execStrncpyFromUser (m : PhysMem) (root src max : ℕ) : Option CString :=
  (strncpyLoop m root src max 0).map (List.take (max - 1))

/-- The loop of `exec_read_strvec`, with `n` rounds to go.  The result goes with the number of calls
of `vm_alloc_page`, of which `pm` says whether they get a page. -/
def strvecLoop (m : PhysMem) (root : ℕ) (pm : ℕ → Bool) (vec : ℕ) :
    ℕ → ℕ → ℕ → Option (List CString × ℕ)
  | 0, _, calls => some ([], calls)
  | n + 1, i, calls =>
    match copyFrom m root ((vec + i * 8) % 2 ^ 64) 8 with
    | none => none
    | some p =>
      if rd64 p 0 = 0 then some ([], calls)
      else if pm calls = false then none
      else
        match execStrncpyFromUser m root (rd64 p 0) pageSize with
        | none => none
        | some s => (strvecLoop m root pm vec n (i + 1) (calls + 1)).map fun r => (s :: r.1, r.2)

def execReadStrvec (m : PhysMem) (root : ℕ) (pm : ℕ → Bool) (vec calls : ℕ) :
    Option (List CString × ℕ) :=
  strvecLoop m root pm vec (execMaxArgs - 1) 0 calls

def str (s : String) : CString := s.toList.map fun c => BitVec.ofNat 8 c.toNat

/-- `env_key_of`: what stands before `=`. -/
def envKeyOf (e : CString) (max : ℕ) : CString := (e.takeWhile (· ≠ 0x3D)).take (max - 1)

def envKeyMatch (e key : CString) : Bool := e.take (key.length + 1) == key ++ [0x3D]

/-- One string of the caller goes into the environment: in the place of the first one with its key,
or to the end. -/
def mergeOne (menv : List CString) (e : CString) : List CString :=
  match menv.findIdx? (envKeyMatch · (envKeyOf e 32)) with
  | some j => menv.set j e
  | none => menv ++ [e]

def mergeEnv : List CString → List CString → List CString
  | menv, [] => menv
  | menv, e :: es => if menv.length < execMaxEnv - 1 then mergeEnv (mergeOne menv e) es else menv

structure Caller where
  /-- The page of its top table. -/
  root : ℕ
  uid : BitVec 32
  gid : BitVec 32
  euid : BitVec 32
  cwd : CString

def defaultEnv (task : Caller) : List CString :=
  let uname := if task.euid = 0 then str "root" else str "banana"
  let cwd := if task.cwd = [] then str "/" else task.cwd
  [str "PATH=/usr/local/sbin:/usr/local/bin:/usr/sbin:/usr/bin:/sbin:/bin", str "HOME=/home/banana",
    str "TERM=xterm", str "SHELL=/bin/bash", str "USER=" ++ uname, str "LOGNAME=" ++ uname,
    str "PWD=" ++ cwd]

structure Image where
  ctx : ElfContext
  rsp : ℕ
  mem : PhysMem

/-- `sys_execve`: an error, with which the caller goes on as it is, or the new program.  `load` is
`elf_load`, with the memory that it leaves. -/
def sysExecve (m : PhysMem) (pm : ℕ → Bool) (load : CString → Option (ElfContext × PhysMem)) (t : ℕ)
    (task : Caller) (path argv envp : ℕ) : Except ℤ Image :=
  match execStrncpyFromUser m task.root path 63 with
  | none => .error (-14)
  | some pathbuf =>
    match execReadStrvec m task.root pm argv 0 with
    | none => .error (-14)
    | some (kargv, calls) =>
      match execReadStrvec m task.root pm envp calls with
      | none => .error (-14)
      | some (kenvp, _) =>
        match load pathbuf with
        | none => .error (-2)
        | some (ctx, m') =>
          match elfBuildUserStack ctx kargv.length kargv (mergeEnv (defaultEnv task) kenvp)
            task.uid task.gid t m' with
          | (none, _) => .error (-12)
          | (some rsp, m') => .ok ⟨ctx, rsp, m'⟩

/-! ## The vector in the memory of the caller -/

def Readable (m : PhysMem) (root va n : ℕ) : Prop :=
  ∀ k < n, vmTranslate m root ((va + k) % 2 ^ 64) ≠ 0

def from64 (m : PhysMem) (root va : ℕ) : Bytes := fun k => userByte m root ((va + k) % 2 ^ 64)

/-- There is a vector of strings at `vec`: pointers, and a null pointer behind them. -/
structure UserVec (m : PhysMem) (root vec : ℕ) (ptrs : List ℕ) (strs : List CString) : Prop where
  readable : Readable m root vec (8 * (ptrs.length + 1))
  pointers : ∀ i p, ptrs[i]? = some p → p ≠ 0 ∧ rd64 (from64 m root vec) (8 * i) = p
  null : rd64 (from64 m root vec) (8 * ptrs.length) = 0
  strings : List.Forall₂ (fun p s => Readable m root p (s.length + 1) ∧ CStr (from64 m root p) 0 s)
    ptrs strs

/-- What `exec_read_strvec` makes of a vector. -/
def cutOff (strs : List CString) : List CString :=
  (strs.take (execMaxArgs - 1)).map (List.take (pageSize - 1))

variable {va n src : ℕ} {s : CString} {strs : List CString}

section

variable {m : PhysMem} {root : ℕ} {pm : ℕ → Bool}

theorem copyFrom_eq (h : Readable m root va n) :
    copyFrom m root va n = some fun k => if k < n then from64 m root va k else 0 := by
  rw [copyFrom, Vm.vmCopyFromUser_mapped zero h]
  rfl

theorem Readable.at {i k : ℕ} (h : Readable m root va n) (hik : i + k ≤ n) :
    Readable m root ((va + i) % 2 ^ 64) k := by
  intro j hj
  have hsum : ((va + i) % 2 ^ 64 + j) % 2 ^ 64 = (va + (i + j)) % 2 ^ 64 := by omega
  rw [hsum]
  exact h (i + j) (by omega)

theorem from64_add (m : PhysMem) (root va i j : ℕ) :
    from64 m root ((va + i) % 2 ^ 64) j = from64 m root va (i + j) := by
  have hsum : ((va + i) % 2 ^ 64 + j) % 2 ^ 64 = (va + (i + j)) % 2 ^ 64 := by omega
  rw [from64, from64, hsum]

theorem strncpyLoop_eq (hread : Readable m root src (s.length + 1))
    (hs : CStr (from64 m root src) 0 s) : ∀ {n i : ℕ}, i ≤ s.length →
      strncpyLoop m root src n i = some ((s.drop i).take n) := by
  intro n
  induction n with
  | zero => exact fun _ => rfl
  | succ n ih =>
    intro i hi
    have hcopy := copyFrom_eq (hread.at (show i + 1 ≤ s.length + 1 by omega))
    rw [strncpyLoop, hcopy]
    simp only [Nat.one_pos, if_true]
    rw [from64_add, Nat.add_zero]
    rcases Nat.lt_or_ge i s.length with hlt | hge
    · obtain ⟨hc, hne⟩ := hs.1 i _ (List.getElem?_eq_getElem hlt)
      rw [Nat.zero_add] at hc
      rw [hc, if_neg hne, ih (by omega), Option.map_some, List.drop_eq_getElem_cons hlt,
        List.take_succ_cons]
    · -- the terminator
      obtain rfl : i = s.length := by omega
      have hc := hs.2
      rw [Nat.zero_add] at hc
      rw [hc, if_pos rfl, List.drop_length, List.take_nil]

theorem execStrncpyFromUser_eq {max : ℕ}
    (hread : Readable m root src (s.length + 1)) (hs : CStr (from64 m root src) 0 s) :
    execStrncpyFromUser m root src max = some (s.take (max - 1)) := by
  rw [execStrncpyFromUser, strncpyLoop_eq hread hs (Nat.zero_le _), Option.map_some, List.drop_zero,
    List.take_take, min_eq_left (Nat.sub_le max 1)]

theorem strvecLoop_eq {vec : ℕ} {ptrs : List ℕ}
    (h : UserVec m root vec ptrs strs) : ∀ {n i calls : ℕ} {r : List CString × ℕ},
      i ≤ strs.length → strvecLoop m root pm vec n i calls = some r →
      r.1 = ((strs.drop i).take n).map (List.take (pageSize - 1)) := by
  have hlen := h.strings.length_eq
  intro n
  induction n with
  | zero =>
    rintro i calls r - hr
    cases hr
    rfl
  | succ n ih =>
    intro i calls r hi hr
    have hcopy := copyFrom_eq (h.readable.at (show i * 8 + 8 ≤ 8 * (ptrs.length + 1) by omega))
    have hptr : rd64 (fun k => if k < 8 then from64 m root ((vec + i * 8) % 2 ^ 64) k else 0) 0 =
        rd64 (from64 m root vec) (8 * i) := rd64_congr fun k hk => by
      rw [if_pos (by omega), from64_add]
      congr 1
      omega
    rw [strvecLoop, hcopy] at hr
    dsimp only at hr
    rw [hptr] at hr
    rcases Nat.lt_or_ge i strs.length with hlt | hge
    · have hget := List.getElem?_eq_getElem (show i < ptrs.length by omega)
      obtain ⟨hne, hp⟩ := h.pointers i _ hget
      obtain ⟨hread, hstr⟩ := (List.forall₂_iff_get.mp h.strings).2 i (by omega) hlt
      rw [hp, if_neg hne] at hr
      split_ifs at hr with hpm
      rw [show ptrs[i] = ptrs.get ⟨i, by omega⟩ from rfl,
        execStrncpyFromUser_eq hread hstr] at hr
      dsimp only at hr
      obtain ⟨r', hr', rfl⟩ := Option.map_eq_some_iff.mp hr
      rw [List.drop_eq_getElem_cons hlt, List.take_succ_cons, List.map_cons, ih (by omega) hr']
      rfl
    · -- the null pointer
      obtain rfl : i = strs.length := by omega
      rw [← hlen, h.null, if_pos rfl] at hr
      cases hr
      rw [List.drop_length]
      rfl

theorem execReadStrvec_eq {vec calls : ℕ} {ptrs : List ℕ}
    (h : UserVec m root vec ptrs strs) {r : List CString × ℕ}
    (hr : execReadStrvec m root pm vec calls = some r) : r.1 = cutOff strs := by
  have := strvecLoop_eq h (Nat.zero_le _) hr
  rwa [List.drop_zero] at this

theorem cutOff_eq_iff (strs : List CString) :
    cutOff strs = strs ↔ strs.length ≤ 15 ∧ ∀ s ∈ strs, s.length ≤ 4095 := by
  constructor
  · intro h
    have hlen : (cutOff strs).length = strs.length := by rw [h]
    have hcount : strs.length ≤ 15 := by
      rw [cutOff, List.length_map, List.length_take] at hlen
      exact le_trans (le_of_eq hlen.symm) (min_le_left _ _)
    refine ⟨hcount, fun s hs => ?_⟩
    rw [← h, cutOff, List.mem_map] at hs
    obtain ⟨s', -, rfl⟩ := hs
    exact List.length_take_le _ _
  · rintro ⟨hcount, hs⟩
    have htake : strs.take (execMaxArgs - 1) = strs := List.take_of_length_le hcount
    rw [cutOff, htake]
    conv_rhs => rw [← List.map_id strs]
    exact List.map_congr_left fun s hmem => List.take_of_length_le (hs s hmem)

end

/-! ## What the new program reads -/

/-- The new program finds these arguments: their number at the stack pointer, and their addresses
above it. -/
def Image.Reads (img : Image) (strs : List CString) : Prop :=
  rd64 (userByte img.mem img.ctx.root) img.rsp = strs.length ∧
    ∀ i s, strs[i]? = some s → CStr (userByte img.mem img.ctx.root)
      (rd64 (userByte img.mem img.ctx.root) (img.rsp + 8 * (i + 1))) s

theorem CStr.unique {f : Bytes} {a : ℕ} {s' : CString} (h : CStr f a s) (h' : CStr f a s') :
    s = s' := by
  -- neither can be shorter, since it would end inside the other
  have hle : ∀ {s s' : CString}, CStr f a s → CStr f a s' → s.length ≤ s'.length := by
    intro s s' h h'
    by_contra hlt
    obtain ⟨hc, hne⟩ := h.1 s'.length _ (List.getElem?_eq_getElem (not_le.mp hlt))
    exact hne (hc.symm.trans h'.2)
  refine List.ext_getElem (le_antisymm (hle h h') (hle h' h)) fun k hk hk' => ?_
  exact ((h.1 k _ (List.getElem?_eq_getElem hk)).1.symm.trans
    (h'.1 k _ (List.getElem?_eq_getElem hk')).1)

theorem Image.Reads.unique {img : Image} {strs' : List CString} (h : img.Reads strs)
    (h' : img.Reads strs') : strs = strs' := by
  have hlen : strs.length = strs'.length := h.1.symm.trans h'.1
  refine List.ext_getElem hlen fun k hk hk' => ?_
  exact (h.2 k _ (List.getElem?_eq_getElem hk)).unique (h'.2 k _ (List.getElem?_eq_getElem hk'))

theorem Layout.reads {img : Image} {argv envp : List CString} {argvUv envpUv : List ℕ}
    {aux : List (ℕ × ℕ)} {platform rand : ℕ}
    (h : Layout (userByte img.mem img.ctx.root) img.rsp argv envp img.ctx argvUv envpUv aux platform
      rand) : img.Reads argv := by
  have hlen := h.args.length_eq
  refine ⟨h.words 0 _ rfl, fun i s hs => ?_⟩
  have hi := (List.getElem?_eq_some_iff.mp hs).1
  have hget := List.getElem?_eq_getElem (show i < argvUv.length by omega)
  have hword := h.words (i + 1) _ (by
    rw [List.getElem?_cons_succ, List.getElem?_append_left (by omega)]
    exact hget)
  rw [hword]
  have hstr := (List.forall₂_iff_get.mp h.args).2 i (by omega) hi
  rw [← (List.getElem?_eq_some_iff.mp hs).2]
  exact hstr

/-! ## The environment -/

theorem mem_mergeOne {menv : List CString} {x e : CString} (h : x ∈ mergeOne menv e) :
    x ∈ menv ∨ x = e := by
  rw [mergeOne] at h
  split at h
  · exact List.mem_or_eq_of_mem_set h
  · exact (List.mem_append.mp h).imp_right List.mem_singleton.mp

theorem length_mergeOne_le (menv : List CString) (e : CString) :
    (mergeOne menv e).length ≤ menv.length + 1 := by
  rw [mergeOne]
  split
  · rw [List.length_set]
    exact Nat.le_succ _
  · rw [List.length_append, List.length_singleton]

theorem mem_mergeEnv {e : CString} : ∀ {es menv : List CString}, e ∈ mergeEnv menv es →
    e ∈ menv ∨ e ∈ es := by
  intro es
  induction es with
  | nil => exact fun h => .inl h
  | cons x es ih =>
    intro menv h
    rw [mergeEnv] at h
    split_ifs at h with hlt
    · rcases ih h with h | h
      · exact (mem_mergeOne h).imp_right fun h => List.mem_cons.mpr (.inl h)
      · exact .inr (List.mem_cons_of_mem x h)
    · exact .inl h

theorem length_mergeEnv : ∀ {es menv : List CString}, menv.length ≤ execMaxEnv - 1 →
    (mergeEnv menv es).length ≤ execMaxEnv - 1 := by
  intro es
  induction es with
  | nil => exact fun h => h
  | cons x es ih =>
    intro menv h
    rw [mergeEnv]
    split_ifs with hlt
    · exact ih ((length_mergeOne_le menv x).trans hlt)
    · exact h

theorem stringBytes_le {ss : List CString} (h : ∀ s ∈ ss, s.length ≤ n) :
    stringBytes ss ≤ ss.length * (n + 1) := by
  have := List.sum_le_card_nsmul (ss.map fun s => s.length + 1) (n + 1) (by
    intro x hx
    obtain ⟨s, hs, rfl⟩ := List.mem_map.mp hx
    exact Nat.succ_le_succ (h s hs))
  rwa [List.length_map, smul_eq_mul] at this

def PageString (s : CString) : Prop := (0 : Byte) ∉ s ∧ s.length ≤ pageSize - 1

instance (s : CString) : Decidable (PageString s) := inferInstanceAs (Decidable (_ ∧ _))

section

variable {m : PhysMem} {root : ℕ} {pm : ℕ → Bool}

theorem not_mem_strncpyLoop : ∀ {n i : ℕ} {s : CString},
    strncpyLoop m root src n i = some s → (0 : Byte) ∉ s := by
  intro n
  induction n with
  | zero =>
    rintro i s h
    cases h
    exact List.not_mem_nil
  | succ n ih =>
    intro i s h
    rw [strncpyLoop] at h
    split at h
    · cases h
    · split_ifs at h with hc
      · cases h
        exact List.not_mem_nil
      · obtain ⟨s', hs', rfl⟩ := Option.map_eq_some_iff.mp h
        exact fun hmem => (List.mem_cons.mp hmem).elim (fun h0 => hc h0.symm) (ih hs')

theorem pageString_of_copy
    (h : execStrncpyFromUser m root src pageSize = some s) : PageString s := by
  obtain ⟨s', hs', rfl⟩ := Option.map_eq_some_iff.mp h
  exact ⟨fun hmem => not_mem_strncpyLoop hs' (List.mem_of_mem_take hmem), List.length_take_le _ _⟩

theorem strvecLoop_ok {vec : ℕ} : ∀ {n i calls : ℕ} {r : List CString × ℕ},
    strvecLoop m root pm vec n i calls = some r → r.1.length ≤ n ∧ ∀ s ∈ r.1, PageString s := by
  intro n
  induction n with
  | zero =>
    rintro i calls r h
    cases h
    exact ⟨le_refl 0, fun s hs => absurd hs List.not_mem_nil⟩
  | succ n ih =>
    intro i calls r h
    rw [strvecLoop] at h
    split at h
    · cases h
    · split_ifs at h with hnull hpm
      · cases h
        exact ⟨Nat.zero_le _, fun s hs => absurd hs List.not_mem_nil⟩
      · split at h
        · cases h
        · rename_i s hs
          obtain ⟨r', hr', rfl⟩ := Option.map_eq_some_iff.mp h
          obtain ⟨hlen, hall⟩ := ih hr'
          refine ⟨Nat.succ_le_succ hlen, fun x hx => ?_⟩
          rcases List.mem_cons.mp hx with rfl | hx
          · exact pageString_of_copy hs
          · exact hall x hx

def Caller.Ok (task : Caller) : Prop := (0 : Byte) ∉ task.cwd ∧ task.cwd.length < 96

theorem defaultEnv_ok {task : Caller} (h : task.Ok) :
    (defaultEnv task).length = 7 ∧ ∀ e ∈ defaultEnv task, PageString e := by
  refine ⟨rfl, ?_⟩
  intro e he
  simp only [defaultEnv, List.mem_cons, List.not_mem_nil, or_false] at he
  rcases he with rfl | rfl | rfl | rfl | rfl | rfl | rfl
  · decide +kernel
  · decide +kernel
  · decide +kernel
  · decide +kernel
  · split_ifs <;> decide +kernel
  · split_ifs <;> decide +kernel
  · split_ifs with hroot
    · decide +kernel
    · have hpwd : (0 : Byte) ∉ str "PWD=" ∧ (str "PWD=").length = 4 := by decide +kernel
      have hpage : pageSize - 1 = 4095 := rfl
      have hlen := h.2
      refine ⟨fun hmem => (List.mem_append.mp hmem).elim hpwd.1 h.1, ?_⟩
      rw [List.length_append, hpwd.2]
      omega

theorem room_of_pageStrings {argv envp : List CString} (ctx : ElfContext)
    (hargc : argv.length ≤ 15) (henvc : envp.length ≤ 23) (hargv : ∀ s ∈ argv, PageString s)
    (henvp : ∀ s ∈ envp, PageString s) : stackBottom ≤ initialRsp argv envp ctx := by
  obtain ⟨hbot, htop⟩ := stackBottom_eq
  have h1 : stringBytes argv ≤ argv.length * 4096 := stringBytes_le fun s hs => (hargv s hs).2
  have h2 : stringBytes envp ≤ envp.length * 4096 := stringBytes_le fun s hs => (henvp s hs).2
  have h3 : auxCount ctx ≤ 17 := by
    rw [auxCount]
    split_ifs <;> decide
  simp only [initialRsp, randomAddr, wordCount]
  omega

/-- What has to go well before the arguments are passed on: the path, the vector and the environment
can be read, there is a page for every string, and the file can be loaded. -/
def Launches (m : PhysMem) (pm : ℕ → Bool) (load : CString → Option (ElfContext × PhysMem))
    (task : Caller) (path argv envp : ℕ) : Prop :=
  ∃ pathbuf kargv kenvp image, execStrncpyFromUser m task.root path 63 = some pathbuf ∧
    execReadStrvec m task.root pm argv 0 = some kargv ∧
    execReadStrvec m task.root pm envp kargv.2 = some kenvp ∧ load pathbuf = some image

variable {load : CString → Option (ElfContext × PhysMem)} {task : Caller} {path argv envp : ℕ}

theorem sysExecve_of_launches (htask : task.Ok)
    (hload : ∀ p ctx m', load p = some (ctx, m') →
      OwnRange m' ctx.root stackBottom userStackTop) (t : ℕ)
    (h : Launches m pm load task path argv envp) : ∃ img kargv,
      sysExecve m pm load t task path argv envp = .ok img ∧
      execReadStrvec m task.root pm argv 0 = some kargv ∧ img.Reads kargv.1 := by
  obtain ⟨pathbuf, kargv, kenvp, ⟨ctx, m'⟩, hpath, hargv, henvp, hl⟩ := h
  obtain ⟨hargc, hargs⟩ := strvecLoop_ok hargv
  obtain ⟨-, henvs⟩ := strvecLoop_ok henvp
  obtain ⟨hdlen, hdefaults⟩ := defaultEnv_ok htask
  have hmerged : ∀ e ∈ mergeEnv (defaultEnv task) kenvp.1, PageString e := fun e he =>
    (mem_mergeEnv he).elim (hdefaults e) (henvs e)
  have hcount : (mergeEnv (defaultEnv task) kenvp.1).length ≤ 23 :=
    length_mergeEnv (by rw [hdlen]; decide)
  obtain ⟨rsp, m'', hrun, argvUv, envpUv, aux, platform, rand, hlayout⟩ :=
    elfBuildUserStack_layout (hload pathbuf ctx m' hl) (le_trans hargc (by decide))
      (le_trans hcount (by decide)) (fun s hs => (hargs s hs).1) (fun s hs => (hmerged s hs).1)
      (room_of_pageStrings ctx hargc hcount hargs hmerged) task.uid task.gid t
  refine ⟨⟨ctx, rsp, m''⟩, kargv, ?_, hargv, Layout.reads hlayout⟩
  rw [sysExecve, hpath]
  dsimp only
  rw [hargv]
  dsimp only
  rw [henvp]
  dsimp only
  rw [hl]
  dsimp only
  rw [hrun]

theorem launches_of_ok {img : Image} {t : ℕ}
    (h : sysExecve m pm load t task path argv envp = .ok img) :
    Launches m pm load task path argv envp := by
  rw [sysExecve] at h
  rcases hpath : execStrncpyFromUser m task.root path 63 with _ | pathbuf
  · rw [hpath] at h
    cases h
  rcases hargv : execReadStrvec m task.root pm argv 0 with _ | ⟨kargv, calls⟩
  · rw [hpath, hargv] at h
    cases h
  rcases henvp : execReadStrvec m task.root pm envp calls with _ | kenvp
  · rw [hpath, hargv] at h
    dsimp only at h
    rw [henvp] at h
    cases h
  rcases hl : load pathbuf with _ | image
  · rw [hpath, hargv] at h
    dsimp only at h
    rw [henvp] at h
    dsimp only at h
    rw [hl] at h
    cases h
  exact ⟨pathbuf, (kargv, calls), kenvp, image, hpath, hargv, henvp, hl⟩

/-- **A program gets its arguments exactly if there are at most 15 of at most 4095 bytes**, or
`execve` fails before it comes to them: for every vector in the memory of the caller. -/
theorem execve_passes_iff (htask : task.Ok)
    (hload : ∀ p ctx m', load p = some (ctx, m') →
      OwnRange m' ctx.root stackBottom userStackTop) (t : ℕ) {ptrs : List ℕ} {strs : List CString}
    (hvec : UserVec m task.root argv ptrs strs) :
    (∀ img, sysExecve m pm load t task path argv envp = .ok img → img.Reads strs) ↔
      (strs.length ≤ 15 ∧ ∀ s ∈ strs, s.length ≤ 4095) ∨
        ¬ Launches m pm load task path argv envp := by
  rw [← cutOff_eq_iff]
  by_cases hgo : Launches m pm load task path argv envp
  · obtain ⟨img, kargv, hok, hread, hreads⟩ := sysExecve_of_launches htask hload t hgo
    rw [execReadStrvec_eq hvec hread] at hreads
    constructor
    · exact fun hall => .inl (hreads.unique (hall img hok))
    · rintro (heq | hno)
      · intro img' hok'
        obtain rfl : img = img' := Except.ok.inj (hok.symm.trans hok')
        rwa [heq] at hreads
      · exact absurd hgo hno
  · exact iff_of_true (fun img hok => absurd (launches_of_ok hok) hgo) (.inr hgo)

end

/-! ## One argument too many -/

/-- The memory of a caller: a vector of 16 pointers at 0, `"a"` at `0x100`, where they all point, and
`"p"` at `0x108`; the null pointer behind the vector is the environment. -/
def callerSpace : PhysMem := fun t i =>
  if t = 5 then (if i < 16 then 0x100 else if i = 32 then 0x61 else if i = 33 then 0x70 else 0)
  else Vm.onePage t i

theorem callerSpace_translate (h : va < 4096) : vmTranslate callerSpace 1 va = 5 * 4096 + va := by
  have h3 : Vm.idx 3 va = 0 := by
    rw [Vm.idx]
    omega
  have h2 : Vm.idx 2 va = 0 := by
    rw [Vm.idx]
    omega
  have h1 : Vm.idx 1 va = 0 := by
    rw [Vm.idx]
    omega
  have h0 : Vm.idx 0 va = 0 := by
    rw [Vm.idx]
    omega
  have htable : ∀ t ∈ [1, 2, 3, 4], Vm.has (callerSpace t 0) Vm.ptePresent ∧
      ¬ Vm.has (callerSpace t 0) Vm.pteHuge ∧ Vm.frameOf (callerSpace t 0) = t + 1 := by
    decide +kernel
  obtain ⟨p1, -, f1⟩ := htable 1 (by decide)
  obtain ⟨p2, n2, f2⟩ := htable 2 (by decide)
  obtain ⟨p3, n3, f3⟩ := htable 3 (by decide)
  obtain ⟨p4, -, f4⟩ := htable 4 (by decide)
  simp only [vmTranslate, h3, h2, h1, h0, p1, f1, p2, n2, f2, p3, n3, f3, p4, f4, not_true_eq_false,
    if_false]
  omega

theorem callerSpace_readable (h : va + n ≤ 4096) : Readable callerSpace 1 va n := by
  intro k hk
  rw [Nat.mod_eq_of_lt (by omega), callerSpace_translate (by omega)]
  omega

theorem from64_callerSpace {k : ℕ} (h : va + k < 4096) : from64 callerSpace 1 va k =
    Vm.byteAt (callerSpace 5 ((va + k) / 8)) ((va + k) % 8) := by
  rw [from64, Nat.mod_eq_of_lt (by omega), userByte, callerSpace_translate h, Vm.byte]
  congr 1
  · congr 1 <;> omega
  · omega

theorem callerSpace_vec {o : ℕ} (h : o + n = 16) : UserVec callerSpace 1 (8 * o)
    (List.replicate n 0x100) (List.replicate n [0x61]) := by
  -- the words of the page, of which the vector consists
  have hwords : ∀ i ≤ 16, rd64 (fun k => Vm.byteAt (callerSpace 5 (k / 8)) (k % 8)) (8 * i) =
      if i < 16 then 0x100 else 0 := by decide +kernel
  have hword : ∀ i ≤ n, rd64 (from64 callerSpace 1 (8 * o)) (8 * i) =
      if o + i < 16 then 0x100 else 0 := by
    intro i hi
    rw [← hwords (o + i) (by omega)]
    have hshift : 8 * (o + i) = 8 * o + 8 * i := by omega
    simp only [rd64, rd32, rd16, hshift]
    repeat rw [from64_callerSpace (by omega)]
    rfl
  refine ⟨callerSpace_readable (by rw [List.length_replicate]; omega), ?_, ?_, ?_⟩
  · intro i p hp
    obtain ⟨hi, rfl⟩ := List.getElem?_eq_some_iff.mp hp
    rw [List.length_replicate] at hi
    rw [List.getElem_replicate, hword i (by omega), if_pos (by omega)]
    exact ⟨by decide, rfl⟩
  · rw [List.length_replicate, hword n (le_refl n), if_neg (by omega)]
  · refine List.forall₂_iff_get.mpr ⟨by rw [List.length_replicate, List.length_replicate], ?_⟩
    intro i hi hi'
    rw [List.get_eq_getElem, List.get_eq_getElem, List.getElem_replicate, List.getElem_replicate]
    refine ⟨callerSpace_readable (by decide), ?_, ?_⟩
    · intro k c hk
      rcases k with _ | k
      · cases hk
        rw [from64_callerSpace (by decide)]
        decide
      · cases hk
    · rw [from64_callerSpace (by decide)]
      decide

def caller : Caller := ⟨1, 1000, 1000, 1000, []⟩

def loaded : CString → Option (ElfContext × PhysMem) := fun _ =>
  some (⟨1, 0x401000, 9, 56, 0x400040, 0⟩, stackSpace)

theorem loaded_own (p : CString) (ctx : ElfContext) (m' : PhysMem)
    (h : loaded p = some (ctx, m')) : OwnRange m' ctx.root stackBottom userStackTop := by
  cases h
  exact stackSpace_own

theorem caller_ok : caller.Ok := ⟨by decide, by decide⟩

theorem callerSpace_launches :
    Launches callerSpace (fun _ => true) loaded caller 0x108 0 0x80 := by
  have hpath : (execStrncpyFromUser callerSpace 1 0x108 63).isSome := by decide +kernel
  have hargv : (execReadStrvec callerSpace 1 (fun _ => true) 0 0).isSome := by decide +kernel
  have henvp : ∀ calls, (execReadStrvec callerSpace 1 (fun _ => true) 0x80 calls).isSome :=
    fun _ => rfl
  obtain ⟨pathbuf, hpath⟩ := Option.isSome_iff_exists.mp hpath
  obtain ⟨kargv, hargv⟩ := Option.isSome_iff_exists.mp hargv
  obtain ⟨kenvp, henvp⟩ := Option.isSome_iff_exists.mp (henvp kargv.2)
  exact ⟨pathbuf, kargv, kenvp, _, hpath, hargv, henvp, rfl⟩

/-- Fifteen of the arguments are passed on. -/
theorem execve_passes_iff_fifteen :
    UserVec callerSpace 1 8 (List.replicate 15 0x100) (List.replicate 15 [0x61]) ∧
    ∀ img, sysExecve callerSpace (fun _ => true) loaded 12345 caller 0x108 8 0x80 = .ok img →
      img.Reads (List.replicate 15 [0x61]) :=
  have hvec := callerSpace_vec (show 1 + 15 = 16 from rfl)
  ⟨hvec, (execve_passes_iff caller_ok loaded_own 12345 hvec).mpr
    (.inl (by decide))⟩

/-- **Of sixteen arguments the program gets fifteen**, and `execve` reports success. -/
theorem execve_loses_argument :
    UserVec callerSpace 1 0 (List.replicate 16 0x100) (List.replicate 16 [0x61]) ∧
    ∃ img, sysExecve callerSpace (fun _ => true) loaded 12345 caller 0x108 0 0x80 = .ok img ∧
      img.Reads (List.replicate 15 [0x61]) ∧ ¬ img.Reads (List.replicate 16 [0x61]) := by
  have hvec := callerSpace_vec (show 0 + 16 = 16 from rfl)
  obtain ⟨img, kargv, hok, hread, hreads⟩ := sysExecve_of_launches
    caller_ok loaded_own 12345 callerSpace_launches
  rw [execReadStrvec_eq hvec hread] at hreads
  have hcut : cutOff (List.replicate 16 [0x61]) = List.replicate 15 [0x61] := by decide
  rw [hcut] at hreads
  exact ⟨hvec, img, hok, hreads, fun h => absurd (hreads.unique h) (by decide)⟩

end BananaOS.Elf
