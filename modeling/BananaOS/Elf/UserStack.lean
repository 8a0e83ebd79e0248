import BananaOS.Lib.Bytes
import BananaOS.Vm.UserRange

/-!
# The stack of a new program

`elf_build_user_stack` writes the stack that a program finds when it starts, from the top down: the
strings, the 16 random bytes, then the vectors that point to them.  Where a push lands depends on
the length of everything pushed before, and the one thing that has to be known in advance is the
parity of what is still to come, since the pointer has to be a multiple of 16 in the end.
-/

namespace BananaOS.Elf

open Bytes FailState
open Vm (PhysMem OwnRange userByte vmCopyToUser)

def userStackSize : ℕ := 4 * 1024 * 1024
def userStackTop : ℕ := 0x8000000000
def maxUvStr : ℕ := 64
def pageSize : ℕ := 4096

abbrev CString := List Byte

/-- What the stack says about a program that has been loaded; `root` is the page of its top table.
-/
structure ElfContext where
  root : ℕ
  mainEntry : BitVec 64
  phdrCount : BitVec 64
  phdrEntsize : BitVec 64
  phdrAddr : BitVec 64
  /-- 0 if there is no interpreter. -/
  interpBase : BitVec 64

/-- Subtraction of `uint64_t`. -/
def sub64 (a b : ℕ) : ℕ := (a + 2 ^ 64 - b % 2 ^ 64) % 2 ^ 64

/-- `vm_copy_to_user`, as a step that can fail. -/
def copyOut (root va : ℕ) (src : ℕ → Byte) (len : ℕ) : FailState PhysMem Unit := fun m =>
  let r := vmCopyToUser m (some root) va src len
  (if r.1 < 0 then none else some (), r.2)

def pushU64 (root sp val : ℕ) : FailState PhysMem ℕ := do
  copyOut root (sub64 sp 8) (byteOf val) 8
  pure (sub64 sp 8)

/-- `push_str`: the address of the string, which is the new stack pointer. -/
def pushStr (root sp : ℕ) (s : CString) : FailState PhysMem ℕ := do
  copyOut root (sub64 sp (s.length + 1)) (fun k => s.getD k 0) (s.length + 1)
  pure (sub64 sp (s.length + 1))

def pushStrs (root : ℕ) : List CString → ℕ → FailState PhysMem (List ℕ × ℕ)
  | [], sp => pure ([], sp)
  | s :: ss, sp => do
    let a ← pushStr root sp s
    let r ← pushStrs root ss a
    pure (a :: r.1, r.2)

def pushWords (root : ℕ) : List ℕ → ℕ → FailState PhysMem ℕ
  | [], sp => pure sp
  | w :: ws, sp => do
    let sp ← pushWords root ws sp
    pushU64 root sp w

def atNull : ℕ := 0
def atPhdr : ℕ := 3
def atPhent : ℕ := 4
def atPhnum : ℕ := 5
def atPagesz : ℕ := 6
def atBase : ℕ := 7
def atFlags : ℕ := 8
def atEntry : ℕ := 9
def atUid : ℕ := 11
def atEuid : ℕ := 12
def atGid : ℕ := 13
def atEgid : ℕ := 14
def atPlatform : ℕ := 15
def atClktck : ℕ := 17
def atSecure : ℕ := 23
def atRandom : ℕ := 25
def atExecfn : ℕ := 31
def atSysinfoEhdr : ℕ := 33

def platformName : CString := [0x78, 0x38, 0x36, 0x5F, 0x36, 0x34]

/-- The bytes for `AT_RANDOM`, from the time stamp counter. -/
def randomBytes (t : ℕ) (k : ℕ) : Byte :=
  BitVec.ofNat 8 (t / 2 ^ (k % 8 * 8)) ^^^ BitVec.ofNat 8 (0xA5 * k + 0x39)

def auxVector (ctx : ElfContext) (uid gid : BitVec 32) (platform rand execfn : ℕ) : List (ℕ × ℕ) :=
  [(atSysinfoEhdr, 0), (atPhdr, ctx.phdrAddr.toNat), (atPhent, ctx.phdrEntsize.toNat),
    (atPhnum, ctx.phdrCount.toNat), (atPagesz, pageSize)] ++
  (if ctx.interpBase ≠ 0 then [(atBase, ctx.interpBase.toNat)] else []) ++
  [(atFlags, 0), (atEntry, ctx.mainEntry.toNat), (atUid, uid.toNat), (atEuid, uid.toNat),
    (atGid, gid.toNat), (atEgid, gid.toNat), (atPlatform, platform), (atClktck, 100), (atSecure, 0),
    (atRandom, rand), (atExecfn, execfn)]

def auxWords (aux : List (ℕ × ℕ)) : List ℕ := aux.flatMap fun a => [a.1, a.2]

/-- `elf_build_user_stack`, with the user of the program and the time stamp counter. -/
def elfBuildUserStack (ctx : ElfContext) (argc : ℤ) (argv envp : List CString) (uid gid : BitVec 32)
    (t : ℕ) : FailState PhysMem ℕ := do
  let argv := argv.take (min argc.toNat maxUvStr)
  let envp := envp.take maxUvStr
  let (argvUv, sp) ← pushStrs ctx.root argv userStackTop
  let (envpUv, sp) ← pushStrs ctx.root envp sp
  let platform ← pushStr ctx.root sp platformName
  let rand := sub64 platform 16 / 16 * 16
  copyOut ctx.root rand (randomBytes t) 16
  let aux := auxVector ctx uid gid platform rand (argvUv.headD 0)
  let sp := rand / 16 * 16
  let totalU64 := (aux.length * 2 + 2) + (envp.length + 1) + (argv.length + 1) + 1
  let sp := if totalU64 % 2 = 1 then sub64 sp 8 else sp
  let sp ← pushU64 ctx.root sp 0
  let sp ← pushU64 ctx.root sp 0
  let sp ← pushWords ctx.root (auxWords aux) sp
  let sp ← pushU64 ctx.root sp 0
  let sp ← pushWords ctx.root envpUv sp
  let sp ← pushU64 ctx.root sp 0
  let sp ← pushWords ctx.root argvUv sp
  pushU64 ctx.root sp argv.length

/-! ## What a program reads -/

def CStr (f : Bytes) (a : ℕ) (s : CString) : Prop :=
  (∀ k c, s[k]? = some c → f (a + k) = c ∧ c ≠ 0) ∧ f (a + s.length) = 0

def WordsAt (f : Bytes) (a : ℕ) (ws : List ℕ) : Prop :=
  ∀ k w, ws[k]? = some w → rd64 f (a + 8 * k) = w

/-- Two pieces of memory, given by address and length, have no byte in common. -/
def Apart (r r' : ℕ × ℕ) : Prop := r.1 + r.2 ≤ r'.1 ∨ r'.1 + r'.2 ≤ r.1

def strRegions (as : List ℕ) (ss : List CString) : List (ℕ × ℕ) :=
  List.zipWith (fun a s => (a, s.length + 1)) as ss

/-- **The stack of the x86-64 ABI**, with the addresses that stand in it. -/
structure Layout (f : Bytes) (rsp : ℕ) (argv envp : List CString) (ctx : ElfContext)
    (argvUv envpUv : List ℕ) (aux : List (ℕ × ℕ)) (platform rand : ℕ) : Prop where
  aligned : rsp % 16 = 0
  words : WordsAt f rsp
    (argv.length :: (argvUv ++ 0 :: (envpUv ++ 0 :: (auxWords aux ++ [atNull, 0]))))
  args : List.Forall₂ (CStr f) argvUv argv
  envs : List.Forall₂ (CStr f) envpUv envp
  /-- `AT_NULL` is at the end and nowhere else. -/
  notNull : ∀ a ∈ aux, a.1 ≠ atNull
  nodup : (aux.map Prod.fst).Nodup
  hasPhdr : (atPhdr, ctx.phdrAddr.toNat) ∈ aux
  hasPhent : (atPhent, ctx.phdrEntsize.toNat) ∈ aux
  hasPhnum : (atPhnum, ctx.phdrCount.toNat) ∈ aux
  hasEntry : (atEntry, ctx.mainEntry.toNat) ∈ aux
  hasBase : ∀ x, (atBase, x) ∈ aux ↔ ctx.interpBase ≠ 0 ∧ x = ctx.interpBase.toNat
  hasPlatform : (atPlatform, platform) ∈ aux ∧ CStr f platform platformName
  hasRandom : (atRandom, rand) ∈ aux ∧ rand + 16 ≤ userStackTop
  apart : (strRegions argvUv argv ++ strRegions envpUv envp ++ [(platform, 7), (rand, 16),
    (rsp, 8 * (argv.length + envp.length + 2 * aux.length + 5))]).Pairwise Apart

/-! ## Pushing -/

def stackBottom : ℕ := userStackTop - userStackSize

structure Holds (m : PhysMem) (root : ℕ) (f : Bytes) : Prop where
  own : OwnRange m root stackBottom userStackTop
  bytes : ∀ va, stackBottom ≤ va → va < userStackTop → userByte m root va = f va

structure Wrote (f : Bytes) (sp : ℕ) (ws : List ℕ) (f' : Bytes) : Prop where
  words : WordsAt f' (sp - 8 * ws.length) ws
  keeps : ∀ j, sp ≤ j → f' j = f j

def Below : ℕ → List (ℕ × ℕ) → ℕ → Prop
  | hi, [], lo => lo ≤ hi
  | hi, r :: rs, lo => r.1 + r.2 ≤ hi ∧ Below r.1 rs lo

/-- `f'` has these strings below `sp`, down to `sp'`, and what `f` has from `sp` on.  That the
strings are there is said of everything that has the same bytes there: what comes later goes below.
-/
structure Strung (f : Bytes) (sp : ℕ) (ss : List CString) (as : List ℕ) (sp' : ℕ) (f' : Bytes) :
    Prop where
  strs : ∀ f'' : Bytes, (∀ j, sp' ≤ j → j < sp → f'' j = f' j) → List.Forall₂ (CStr f'') as ss
  below : Below sp (strRegions as ss) sp'
  keeps : ∀ j, sp ≤ j → f' j = f j

def stringBytes (ss : List CString) : ℕ := (ss.map fun s => s.length + 1).sum

section

variable {m : PhysMem} {root sp sp' hi lo mid : ℕ} {f f' f'' : Bytes} {ws ws' as : List ℕ}
  {ss : List CString} {rs rs' : List (ℕ × ℕ)}

theorem stackBottom_eq : stackBottom = 2 ^ 39 - 2 ^ 22 ∧ userStackTop = 2 ^ 39 := ⟨rfl, rfl⟩

theorem sub64_eq {a b : ℕ} (h : b ≤ a) (ha : a < 2 ^ 64) : sub64 a b = a - b := by
  rw [sub64]
  omega

theorem Holds.copyOut (h : Holds m root f) {va len : ℕ} (hlo : stackBottom ≤ va)
    (hhi : va + len ≤ userStackTop) (src : ℕ → Byte) : ∃ m',
      Elf.copyOut root va src len m = (some (), m') ∧ Holds m' root (copyIn f va len src) := by
  obtain ⟨m', hrun, hown, hbytes, -⟩ := h.own.copyToUser hlo hhi src
  refine ⟨m', ?_, hown, fun x h1 h2 => ?_⟩
  · simp only [Elf.copyOut, hrun]
    rfl
  · rw [hbytes x h1 h2, h.bytes x h1 h2]
    rfl

theorem rd64_copyIn_byteOf (f : Bytes) (a : ℕ) {v : ℕ} (hv : v < 2 ^ 64) :
    rd64 (copyIn f a 8 (byteOf v)) a = v := by
  have hlow : rd32 (copyIn f a 8 (byteOf v)) a = v % 2 ^ 32 := rd32_of_byteOf fun k hk => by
    rw [copyIn_in (by omega) (by omega), Nat.add_sub_cancel_left]
  have hhigh : rd32 (copyIn f a 8 (byteOf v)) (a + 4) = v / 2 ^ 32 % 2 ^ 32 :=
    rd32_of_byteOf fun k hk => by
      rw [copyIn_in (by omega) (by omega), show a + 4 + k - a = 4 + k by omega, byteOf, byteOf,
        pow_add, ← Nat.div_div_eq_div_mul]
      rfl
  rw [rd64, hlow, hhigh]
  omega

theorem WordsAt.congr {a : ℕ} (h : WordsAt f a ws)
    (hf : ∀ j, a ≤ j → j < a + 8 * ws.length → f' j = f j) : WordsAt f' a ws := by
  intro k w hk
  have hlt := (List.getElem?_eq_some_iff.mp hk).1
  rw [← h k w hk]
  exact rd64_congr fun j _ => hf _ (by omega) (by omega)

theorem Wrote.append (h : Wrote f sp ws f') (h' : Wrote f' (sp - 8 * ws.length) ws' f'')
    (hroom : 8 * (ws.length + ws'.length) ≤ sp) : Wrote f sp (ws' ++ ws) f'' := by
  have hwords := h.words.congr fun j hj _ => h'.keeps j hj
  refine ⟨fun k w hk => ?_, fun j hj => ?_⟩
  · rw [List.length_append]
    by_cases hlt : k < ws'.length
    · rw [List.getElem?_append_left hlt] at hk
      rw [← h'.words k w hk]
      congr 1
      omega
    · rw [List.getElem?_append_right (not_lt.mp hlt)] at hk
      rw [← hwords (k - ws'.length) w hk]
      congr 1
      omega
  · rw [h'.keeps j (by omega), h.keeps j hj]

theorem Holds.pushU64 (h : Holds m root f) (hlo : stackBottom + 8 ≤ sp) (hhi : sp ≤ userStackTop)
    {v : ℕ} (hv : v < 2 ^ 64) : ∃ m' f', Elf.pushU64 root sp v m = (some (sp - 8), m') ∧
      Holds m' root f' ∧ Wrote f sp [v] f' := by
  obtain ⟨hbot, htop⟩ := stackBottom_eq
  have hsub : sub64 sp 8 = sp - 8 := sub64_eq (by omega) (by omega)
  obtain ⟨m', hrun, hm'⟩ := h.copyOut (show stackBottom ≤ sp - 8 by omega)
    (show sp - 8 + 8 ≤ userStackTop by omega) (byteOf v)
  refine ⟨m', _, ?_, hm', fun k w hk => ?_, fun j hj => copyIn_out (by omega)⟩
  · rw [Elf.pushU64, hsub, bind_of_some hrun]
    rfl
  · obtain ⟨rfl, rfl⟩ : k = 0 ∧ v = w := by simpa [List.getElem?_cons] using hk
    exact rd64_copyIn_byteOf f (sp - 8) hv

theorem Holds.pushWords (h : Holds m root f) (hlo : stackBottom + 8 * ws.length ≤ sp)
    (hhi : sp ≤ userStackTop) (hws : ∀ w ∈ ws, w < 2 ^ 64) : ∃ m' f',
      Elf.pushWords root ws sp m = (some (sp - 8 * ws.length), m') ∧ Holds m' root f' ∧
      Wrote f sp ws f' := by
  induction ws with
  | nil => exact ⟨m, f, rfl, h, ⟨fun k w hk => by simp at hk, fun _ _ => rfl⟩⟩
  | cons w ws ih =>
    rw [List.length_cons] at hlo
    obtain ⟨m₁, f₁, hrun, hm₁, hw⟩ := ih (by omega) fun x hx => hws x (List.mem_cons_of_mem w hx)
    obtain ⟨m₂, f₂, hrun₂, hm₂, hw₂⟩ := hm₁.pushU64
      (show stackBottom + 8 ≤ sp - 8 * ws.length by omega) (by omega) (hws w List.mem_cons_self)
    refine ⟨m₂, f₂, ?_, hm₂, hw.append hw₂ (by rw [List.length_singleton]; omega)⟩
    rw [Elf.pushWords, bind_of_some hrun, hrun₂, List.length_cons]
    exact congrArg (fun x => (some x, m₂)) (by omega)

theorem CStr.congr {a : ℕ} {s : CString} (h : CStr f a s)
    (hf : ∀ j, a ≤ j → j < a + (s.length + 1) → f' j = f j) : CStr f' a s := by
  refine ⟨fun k c hk => ?_, ?_⟩
  · have hlt := (List.getElem?_eq_some_iff.mp hk).1
    rw [hf _ (by omega) (by omega)]
    exact h.1 k c hk
  · rw [hf _ (by omega) (by omega)]
    exact h.2

theorem Holds.pushStr (h : Holds m root f) {s : CString} (hlo : stackBottom + (s.length + 1) ≤ sp)
    (hhi : sp ≤ userStackTop) (hs : (0 : Byte) ∉ s) : ∃ m' f',
      Elf.pushStr root sp s m = (some (sp - (s.length + 1)), m') ∧ Holds m' root f' ∧
      CStr f' (sp - (s.length + 1)) s ∧ ∀ j, sp ≤ j → f' j = f j := by
  obtain ⟨hbot, htop⟩ := stackBottom_eq
  have hsub : sub64 sp (s.length + 1) = sp - (s.length + 1) := sub64_eq (by omega) (by omega)
  obtain ⟨m', hrun, hm'⟩ := h.copyOut (show stackBottom ≤ sp - (s.length + 1) by omega)
    (show sp - (s.length + 1) + (s.length + 1) ≤ userStackTop by omega) fun k => s.getD k 0
  refine ⟨m', _, ?_, hm', ⟨fun k c hk => ?_, ?_⟩, fun j hj => copyIn_out (by omega)⟩
  · rw [Elf.pushStr, hsub, bind_of_some hrun]
    rfl
  · have hlt := (List.getElem?_eq_some_iff.mp hk).1
    rw [copyIn_in (by omega) (by omega), Nat.add_sub_cancel_left, List.getD_eq_getElem?_getD, hk]
    exact ⟨rfl, fun h0 => hs (h0 ▸ List.mem_of_getElem? hk)⟩
  · rw [copyIn_in (by omega) (by omega), Nat.add_sub_cancel_left,
      List.getD_eq_default _ _ (le_refl _)]

theorem Holds.pushStrs (h : Holds m root f) (hlo : stackBottom + stringBytes ss ≤ sp)
    (hhi : sp ≤ userStackTop) (hss : ∀ s ∈ ss, (0 : Byte) ∉ s) : ∃ as m' f',
      Elf.pushStrs root ss sp m = (some (as, sp - stringBytes ss), m') ∧ Holds m' root f' ∧
      Strung f sp ss as (sp - stringBytes ss) f' := by
  induction ss generalizing sp m f with
  | nil => exact ⟨[], m, f, rfl, h, fun _ _ => .nil, le_refl _, fun _ _ => rfl⟩
  | cons s ss ih =>
    have hsum : stringBytes (s :: ss) = s.length + 1 + stringBytes ss := by
      rw [stringBytes, List.map_cons, List.sum_cons]
      rfl
    rw [hsum] at hlo ⊢
    obtain ⟨m₁, f₁, hrun, hm₁, hstr, hkeep⟩ := h.pushStr (s := s) (by omega) hhi
      (hss s List.mem_cons_self)
    obtain ⟨as, m₂, f₂, hrun₂, hm₂, hstrs⟩ := ih hm₁
      (show stackBottom + stringBytes ss ≤ sp - (s.length + 1) by omega) (by omega)
      fun x hx => hss x (List.mem_cons_of_mem s hx)
    have hsp : sp - (s.length + 1) - stringBytes ss = sp - (s.length + 1 + stringBytes ss) := by
      omega
    rw [hsp] at hrun₂ hstrs
    refine ⟨(sp - (s.length + 1)) :: as, m₂, f₂, ?_, hm₂, fun f'' hf'' => .cons ?_
      (hstrs.strs f'' fun j h1 h2 => hf'' j h1 (by omega)), ⟨?_, hstrs.below⟩, fun j hj => ?_⟩
    · rw [Elf.pushStrs, bind_of_some hrun, bind_of_some hrun₂]
      rfl
    · refine hstr.congr fun j hj hj' => ?_
      rw [hf'' j (by omega) (by omega), hstrs.keeps j hj]
    · show sp - (s.length + 1) + (s.length + 1) ≤ sp
      omega
    · rw [hstrs.keeps j (by omega), hkeep j hj]

theorem Below.mono (h : Below mid rs lo) (hle : mid ≤ hi) : Below hi rs lo := by
  cases rs with
  | nil => exact le_trans h hle
  | cons r rs => exact ⟨le_trans h.1 hle, h.2⟩

theorem Below.append (h : Below hi rs mid) (h' : Below mid rs' lo) : Below hi (rs ++ rs') lo := by
  induction rs generalizing hi with
  | nil => exact h'.mono h
  | cons r rs ih => exact ⟨h.1, ih h.2⟩

theorem Below.le (h : Below hi rs lo) : ∀ r ∈ rs, r.1 + r.2 ≤ hi := by
  induction rs generalizing hi with
  | nil => exact fun r hr => absurd hr List.not_mem_nil
  | cons r rs ih =>
    intro r' hr'
    rcases List.mem_cons.mp hr' with rfl | hr'
    · exact h.1
    · have h1 := ih h.2 r' hr'
      have h2 := h.1
      omega

theorem Below.addr_lt (hlen : as.length = ss.length) (h : Below hi (strRegions as ss) lo) :
    ∀ a ∈ as, a < hi := by
  induction as generalizing ss hi with
  | nil => exact fun a ha => absurd ha List.not_mem_nil
  | cons a as ih =>
    cases ss with
    | nil => cases hlen
    | cons s ss =>
      have hend : a + (s.length + 1) ≤ hi := h.1
      intro x hx
      rcases List.mem_cons.mp hx with rfl | hx
      · omega
      · have := ih (Nat.succ.inj hlen) h.2 x hx
        dsimp only at this
        omega

theorem Below.pairwise (h : Below hi rs lo) : rs.Pairwise Apart := by
  induction rs generalizing hi with
  | nil => exact .nil
  | cons r rs ih => exact .cons (fun r' hr' => .inr (h.2.le r' hr')) (ih h.2)

end

/-! ## The whole stack -/

def auxCount (ctx : ElfContext) : ℕ := if ctx.interpBase ≠ 0 then 17 else 16

def wordCount (argv envp : List CString) (ctx : ElfContext) : ℕ :=
  argv.length + envp.length + 2 * auxCount ctx + 5

def randomAddr (argv envp : List CString) : ℕ :=
  (userStackTop - stringBytes argv - stringBytes envp - 7 - 16) / 16 * 16

def initialRsp (argv envp : List CString) (ctx : ElfContext) : ℕ :=
  randomAddr argv envp - (wordCount argv envp ctx + wordCount argv envp ctx % 2) * 8

section

variable {ctx : ElfContext} {argv envp : List CString} {uid gid : BitVec 32}
  {platform rand execfn : ℕ}

theorem length_auxVector : (auxVector ctx uid gid platform rand execfn).length = auxCount ctx := by
  rw [auxVector, auxCount]
  split_ifs <;> rfl

theorem length_auxWords (aux : List (ℕ × ℕ)) : (auxWords aux).length = 2 * aux.length := by
  rw [auxWords, List.length_flatMap]
  induction aux with
  | nil => rfl
  | cons a aux ih =>
    rw [List.map_cons, List.sum_cons, ih, List.length_cons]
    simp only [List.length_cons, List.length_nil]
    omega

theorem auxVector_nodup : ((auxVector ctx uid gid platform rand execfn).map Prod.fst).Nodup := by
  rw [auxVector]
  split_ifs
  · exact (by decide : ([atSysinfoEhdr, atPhdr, atPhent, atPhnum, atPagesz, atBase, atFlags,
      atEntry, atUid, atEuid, atGid, atEgid, atPlatform, atClktck, atSecure, atRandom,
      atExecfn]).Nodup)
  · exact (by decide : ([atSysinfoEhdr, atPhdr, atPhent, atPhnum, atPagesz, atFlags, atEntry,
      atUid, atEuid, atGid, atEgid, atPlatform, atClktck, atSecure, atRandom, atExecfn]).Nodup)

theorem auxVector_notNull : ∀ a ∈ auxVector ctx uid gid platform rand execfn, a.1 ≠ atNull := by
  rw [auxVector]
  split_ifs <;>
    simp [atSysinfoEhdr, atPhdr, atPhent, atPhnum, atPagesz, atBase, atFlags, atEntry, atUid,
      atEuid, atGid, atEgid, atPlatform, atClktck, atSecure, atRandom, atExecfn, atNull]

theorem auxVector_base (x : ℕ) : (atBase, x) ∈ auxVector ctx uid gid platform rand execfn ↔
    ctx.interpBase ≠ 0 ∧ x = ctx.interpBase.toNat := by
  rw [auxVector]
  by_cases h : ctx.interpBase = 0
  · rw [if_neg (not_not.mpr h)]
    simp [atSysinfoEhdr, atPhdr, atPhent, atPhnum, atPagesz, atBase, atFlags, atEntry, atUid,
      atEuid, atGid, atEgid, atPlatform, atClktck, atSecure, atRandom, atExecfn, h]
  · rw [if_pos h]
    simp [atSysinfoEhdr, atPhdr, atPhent, atPhnum, atPagesz, atBase, atFlags, atEntry, atUid,
      atEuid, atGid, atEgid, atPlatform, atClktck, atSecure, atRandom, atExecfn]
    tauto

theorem auxWords_lt (ctx : ElfContext) (uid gid : BitVec 32) (hp : platform < 2 ^ 64)
    (hr : rand < 2 ^ 64) (he : execfn < 2 ^ 64) :
    ∀ w ∈ auxWords (auxVector ctx uid gid platform rand execfn), w < 2 ^ 64 := by
  have hall : ∀ a ∈ auxVector ctx uid gid platform rand execfn, a.1 < 2 ^ 64 ∧ a.2 < 2 ^ 64 := by
    have h1 := ctx.phdrAddr.isLt
    have h2 := ctx.phdrEntsize.isLt
    have h3 := ctx.phdrCount.isLt
    have h4 := ctx.interpBase.isLt
    have h5 := ctx.mainEntry.isLt
    have h6 := uid.isLt
    have h7 := gid.isLt
    rw [auxVector]
    split_ifs <;>
      simp only [List.cons_append, List.nil_append, List.forall_mem_cons, List.not_mem_nil,
        false_imp_iff, implies_true, and_true, atSysinfoEhdr, atPhdr, atPhent, atPhnum, atPagesz,
        atBase, atFlags, atEntry, atUid, atEuid, atGid, atEgid, atPlatform, atClktck, atSecure,
        atRandom, atExecfn, pageSize] <;>
      omega
  intro w hw
  obtain ⟨a, ha, hw⟩ := List.mem_flatMap.mp hw
  simp only [List.mem_cons, List.not_mem_nil, or_false] at hw
  rcases hw with rfl | rfl
  · exact (hall a ha).1
  · exact (hall a ha).2

def vectors (argc : ℕ) (argvUv envpUv : List ℕ) (aux : List (ℕ × ℕ)) : List ℕ :=
  argc :: (argvUv ++ 0 :: (envpUv ++ 0 :: (auxWords aux ++ [atNull, 0])))

theorem pushWords_append (root : ℕ) (ws ws' : List ℕ) (sp : ℕ) :
    pushWords root (ws ++ ws') sp = pushWords root ws' sp >>= pushWords root ws := by
  induction ws with
  | nil => exact (bind_pure _).symm
  | cons w ws ih =>
    simp only [List.cons_append, pushWords, ih, bind_assoc]

theorem pushVectors_eq (root sp argc : ℕ) (argvUv envpUv : List ℕ) (aux : List (ℕ × ℕ)) :
    (do
      let sp ← pushU64 root sp 0
      let sp ← pushU64 root sp 0
      let sp ← pushWords root (auxWords aux) sp
      let sp ← pushU64 root sp 0
      let sp ← pushWords root envpUv sp
      let sp ← pushU64 root sp 0
      let sp ← pushWords root argvUv sp
      pushU64 root sp argc) = pushWords root (vectors argc argvUv envpUv aux) sp := by
  simp only [vectors, pushWords, pushWords_append, bind_assoc, pure_bind, atNull]

/-- **The stack of a new program** is that of the ABI: for every vector of at most 64 strings, every
environment of at most 64 strings and every program whose stack has room for them. -/
theorem elfBuildUserStack_layout {m : PhysMem}
    (hown : OwnRange m ctx.root stackBottom userStackTop) (hargc : argv.length ≤ maxUvStr)
    (henvc : envp.length ≤ maxUvStr) (hargv : ∀ s ∈ argv, (0 : Byte) ∉ s)
    (henvp : ∀ s ∈ envp, (0 : Byte) ∉ s) (hroom : stackBottom ≤ initialRsp argv envp ctx)
    (uid gid : BitVec 32) (t : ℕ) : ∃ rsp m',
      elfBuildUserStack ctx argv.length argv envp uid gid t m = (some rsp, m') ∧
      ∃ argvUv envpUv aux platform rand,
        Layout (userByte m' ctx.root) rsp argv envp ctx argvUv envpUv aux platform rand := by
  obtain ⟨hbot, htop⟩ := stackBottom_eq
  simp only [initialRsp, randomAddr] at hroom
  have htakeArgv : argv.take (min (argv.length : ℤ).toNat maxUvStr) = argv := by
    rw [Int.toNat_natCast, min_eq_left hargc, List.take_length]
  have htakeEnvp : envp.take maxUvStr = envp := List.take_of_length_le henvc
  have hplatform : platformName.length = 6 := rfl
  have hword : wordCount argv envp ctx = argv.length + envp.length + 2 * auxCount ctx + 5 := rfl
  -- the strings
  obtain ⟨argvUv, m₁, f₁, hrun₁, hm₁, hs₁⟩ :=
    (⟨hown, fun _ _ _ => rfl⟩ : Holds m ctx.root _).pushStrs (show stackBottom + stringBytes argv ≤
      userStackTop by omega) (le_refl _) hargv
  obtain ⟨envpUv, m₂, f₂, hrun₂, hm₂, hs₂⟩ := hm₁.pushStrs (show stackBottom + stringBytes envp ≤
    userStackTop - stringBytes argv by omega) (by omega) henvp
  obtain ⟨m₃, f₃, hrun₃, hm₃, hstr₃, hkeep₃⟩ := hm₂.pushStr (show stackBottom +
    (platformName.length + 1) ≤ userStackTop - stringBytes argv - stringBytes envp by omega)
    (by omega) (by decide)
  obtain ⟨platform, hpl⟩ : ∃ x, x = userStackTop - stringBytes argv - stringBytes envp - 7 :=
    ⟨_, rfl⟩
  rw [hplatform, ← hpl] at hrun₃ hstr₃
  rw [← hpl] at hroom
  -- the random bytes
  obtain ⟨rand, hrand⟩ : ∃ x, x = (platform - 16) / 16 * 16 := ⟨_, rfl⟩
  rw [← hrand] at hroom
  have hsub : sub64 platform 16 / 16 * 16 = rand := by
    rw [sub64_eq (by omega) (by omega), hrand]
  obtain ⟨m₄, hrun₄, hm₄⟩ := hm₃.copyOut (show stackBottom ≤ rand by omega)
    (show rand + 16 ≤ userStackTop by omega) (randomBytes t)
  -- the vectors
  obtain ⟨aux, haux⟩ : ∃ x, x = auxVector ctx uid gid platform rand (argvUv.headD 0) := ⟨_, rfl⟩
  have hlen : aux.length = auxCount ctx := by rw [haux, length_auxVector]
  have hargvLen := (hs₁.strs f₁ fun _ _ _ => rfl).length_eq
  have henvpLen := (hs₂.strs f₂ fun _ _ _ => rfl).length_eq
  have hargvUv := hs₁.below.addr_lt hargvLen
  have henvpUv := hs₂.below.addr_lt henvpLen
  have hcount : (vectors argv.length argvUv envpUv aux).length = wordCount argv envp ctx := by
    simp only [vectors, List.length_cons, List.length_append, length_auxWords, List.length_nil,
      hlen, hargvLen, henvpLen, hword]
    omega
  have hhead : argvUv.headD 0 < 2 ^ 64 := by
    cases argvUv with
    | nil => decide
    | cons a as => exact lt_trans (hargvUv a List.mem_cons_self) (by omega)
  have hws : ∀ w ∈ vectors argv.length argvUv envpUv aux, w < 2 ^ 64 := by
    have hauxw := auxWords_lt ctx uid gid (show platform < 2 ^ 64 by omega)
      (show rand < 2 ^ 64 by omega) hhead
    rw [← haux] at hauxw
    have hmax : maxUvStr = 64 := rfl
    intro w hw
    simp only [vectors, List.mem_cons, List.mem_append, List.not_mem_nil, or_false, atNull] at hw
    rcases hw with rfl | hw | rfl | hw | rfl | hw | rfl | rfl
    · omega
    · exact lt_trans (hargvUv w hw) (by omega)
    · decide
    · exact lt_of_lt_of_le (henvpUv w hw) (by omega)
    · decide
    · exact hauxw w hw
    · decide
    · decide
  obtain ⟨sp, hsp⟩ : ∃ x, x = if wordCount argv envp ctx % 2 = 1 then rand - 8 else rand := ⟨_, rfl⟩
  have hsp' : sp = rand - 8 * (wordCount argv envp ctx % 2) := by
    rw [hsp]
    split_ifs <;> omega
  obtain ⟨m₅, f₅, hrun₅, hm₅, hw⟩ := hm₄.pushWords (show stackBottom +
    8 * (vectors argv.length argvUv envpUv aux).length ≤ sp by omega) (by omega) hws
  rw [hcount] at hrun₅
  have hwords := hw.words
  rw [hcount] at hwords
  have hbytes : ∀ j, sp - 8 * wordCount argv envp ctx ≤ j → j < userStackTop →
      userByte m₅ ctx.root j = f₅ j := fun j h1 h2 => hm₅.bytes j (by omega) h2
  have hkeep₅ : ∀ j, rand + 16 ≤ j → j < userStackTop → userByte m₅ ctx.root j = f₃ j := by
    intro j h1 h2
    rw [hbytes j (by omega) h2, hw.keeps j (by omega), copyIn_out (by omega)]
  refine ⟨sp - 8 * wordCount argv envp ctx, m₅, ?_, argvUv, envpUv, aux, platform, rand, ?_⟩
  · have htotal : aux.length * 2 + 2 + (envp.length + 1) + (argv.length + 1) + 1 =
        wordCount argv envp ctx := by omega
    have hsp0 : (if wordCount argv envp ctx % 2 = 1 then sub64 (rand / 16 * 16) 8
        else rand / 16 * 16) = sp := by
      rw [show rand / 16 * 16 = rand by omega, sub64_eq (by omega) (by omega), hsp]
    simp only [elfBuildUserStack, htakeArgv, htakeEnvp]
    rw [bind_of_some hrun₁]
    dsimp only
    rw [bind_of_some hrun₂]
    dsimp only
    rw [bind_of_some hrun₃, hsub, bind_of_some hrun₄, ← haux, htotal, hsp0, pushVectors_eq, hrun₅]
  · refine ⟨by omega, hwords.congr fun j h1 h2 => hbytes j h1 ?_, hs₁.strs _ fun j h1 h2 => ?_,
      hs₂.strs _ fun j h1 h2 => ?_, ?_, ?_, ?_, ?_, ?_, ?_, ?_, ⟨?_, hstr₃.congr fun j h1 h2 => ?_⟩,
      ⟨?_, by omega⟩, ?_⟩
    · omega
    · rw [hkeep₅ j (by omega) h2, hkeep₃ j (by omega), hs₂.keeps j h1]
    · rw [hkeep₅ j (by omega) (by omega), hkeep₃ j h1]
    · rw [haux]
      exact auxVector_notNull
    · rw [haux]
      exact auxVector_nodup
    · simp [haux, auxVector]
    · simp [haux, auxVector]
    · simp [haux, auxVector]
    · simp [haux, auxVector]
    · rw [haux]
      exact auxVector_base
    · simp [haux, auxVector]
    · exact hkeep₅ j (by omega) (by omega)
    · simp [haux, auxVector]
    · -- from the top down: the strings, the random bytes, the vectors
      have hrest : Below (userStackTop - stringBytes argv - stringBytes envp) [(platform, 7),
          (rand, 16), (sp - 8 * wordCount argv envp ctx,
            8 * (argv.length + envp.length + 2 * aux.length + 5))] 0 :=
        ⟨by dsimp only; omega, by dsimp only; omega, by dsimp only; omega, Nat.zero_le _⟩
      exact ((hs₁.below.append hs₂.below).append hrest).pairwise

end

def stackSpace : PhysMem := fun t i =>
  if t = 1 ∧ i = 0 then Vm.tableEntry 2
  else if t = 2 ∧ i = 511 then Vm.tableEntry 3
  else if t = 3 ∧ i = 510 then Vm.tableEntry 512 ||| Vm.pteHuge
  else if t = 3 ∧ i = 511 then Vm.tableEntry 1024 ||| Vm.pteHuge
  else 0

theorem stackSpace_translate {va : ℕ} (hlo : stackBottom ≤ va) (hhi : va < userStackTop) :
    Vm.vmTranslate stackSpace 1 va = 2 ^ 21 + (va - stackBottom) ∧
      ∀ e ∈ Vm.visits stackSpace 1 va, e.1 ≤ 3 := by
  obtain ⟨hbot, htop⟩ := stackBottom_eq
  have h3 : Vm.idx 3 va = 0 := by
    rw [Vm.idx]
    omega
  have h2 : Vm.idx 2 va = 511 := by
    rw [Vm.idx]
    omega
  have h1 : Vm.idx 1 va = 510 ∧ va % 2 ^ 21 = va - stackBottom ∨
      Vm.idx 1 va = 511 ∧ va % 2 ^ 21 + 2 ^ 21 = va - stackBottom := by
    rw [Vm.idx]
    omega
  have htable : ∀ t ∈ [2, 3], Vm.has (Vm.tableEntry t) Vm.ptePresent ∧
      ¬ Vm.has (Vm.tableEntry t) Vm.pteHuge ∧ Vm.frameOf (Vm.tableEntry t) = t := by decide
  have hpage : ∀ t ∈ [512, 1024], Vm.has (Vm.tableEntry t ||| Vm.pteHuge) Vm.ptePresent ∧
      Vm.has (Vm.tableEntry t ||| Vm.pteHuge) Vm.pteHuge ∧
      Vm.frameOf (Vm.tableEntry t ||| Vm.pteHuge) = t := by decide
  have e4 : stackSpace 1 0 = Vm.tableEntry 2 := rfl
  have e3 : stackSpace 2 511 = Vm.tableEntry 3 := rfl
  obtain ⟨hp2, hh2, hf2⟩ := htable 2 (by decide)
  obtain ⟨hp3, hh3, hf3⟩ := htable 3 (by decide)
  rcases h1 with ⟨h1, hva⟩ | ⟨h1, hva⟩
  · have e2 : stackSpace 3 510 = Vm.tableEntry 512 ||| Vm.pteHuge := rfl
    obtain ⟨hp, hh, hf⟩ := hpage 512 (by decide)
    constructor
    · simp only [Vm.vmTranslate, h3, h2, h1, e4, e3, e2, hp2, hh2, hf2, hp3, hh3, hf3, hp, hh, hf,
        not_true_eq_false, if_false, if_true]
      omega
    · simp [Vm.visits, Vm.visitsAt, h3, h2, h1, e4, e3, e2, hp2, hh2, hf2, hp3, hh3, hf3, hp, hh]
  · have e2 : stackSpace 3 511 = Vm.tableEntry 1024 ||| Vm.pteHuge := rfl
    obtain ⟨hp, hh, hf⟩ := hpage 1024 (by decide)
    constructor
    · simp only [Vm.vmTranslate, h3, h2, h1, e4, e3, e2, hp2, hh2, hf2, hp3, hh3, hf3, hp, hh, hf,
        not_true_eq_false, if_false, if_true]
      omega
    · simp [Vm.visits, Vm.visitsAt, h3, h2, h1, e4, e3, e2, hp2, hh2, hf2, hp3, hh3, hf3, hp, hh]

theorem stackSpace_own : OwnRange stackSpace 1 stackBottom userStackTop where
  hi_le := by decide
  mapped va hlo hhi := by
    rw [(stackSpace_translate hlo hhi).1]
    omega
  inj va va' hlo hhi hlo' hhi' he := by
    rw [(stackSpace_translate hlo hhi).1, (stackSpace_translate hlo' hhi').1] at he
    omega
  apart va va' hlo hhi hlo' hhi' e he := by
    have := (stackSpace_translate hlo' hhi').2 e he
    rw [(stackSpace_translate hlo hhi).1]
    omega

/-- `sh -c` with one variable. -/
theorem elfBuildUserStack_layout_sh : ∃ rsp m',
    elfBuildUserStack ⟨1, 0x401000, 9, 56, 0x400040, 0⟩ 2 [[0x73, 0x68], [0x2D, 0x63]]
      [[0x41, 0x3D, 0x31]] 1000 1000 12345 stackSpace = (some rsp, m') ∧
    ∃ argvUv envpUv aux platform rand,
      Layout (userByte m' 1) rsp [[0x73, 0x68], [0x2D, 0x63]] [[0x41, 0x3D, 0x31]]
        ⟨1, 0x401000, 9, 56, 0x400040, 0⟩ argvUv envpUv aux platform rand := by
  have hargc : ([[0x73, 0x68], [0x2D, 0x63]] : List CString).length ≤ maxUvStr := by decide
  exact elfBuildUserStack_layout stackSpace_own hargc (by decide) (by decide) (by decide)
    (by decide) 1000 1000 12345

end BananaOS.Elf
