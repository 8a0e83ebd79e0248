import BananaOS.Sched.EntryCode
import BananaOS.Sched.UserRsp

/-!
# What a forked child starts with

`sys_fork` (also behind `vfork`, and behind `clone` with a null stack) takes the registers of its
caller from the save area `syscall_user_ctx`, puts them into `fork_ctx` of a task slot that
`sched_spawn_process` has filled with defaults, and copies the attributes of `current_task` over the
defaults.  The child is started much later, by `fork_resume` from the main loop.
-/

namespace BananaOS.Sched

open Function GuardedRun

/-! ## The attributes of a task -/

/-- A `char cwd[96]`; every writer ends the text with a NUL inside the buffer. -/
structure Cwd where
  char : ℕ → BitVec 8
  terminated : ∃ i ≤ 95, char i = 0

def textLen (char : ℕ → BitVec 8) : ℕ := ((List.range 95).takeWhile fun i => char i ≠ 0).length

def Cwd.text (c : Cwd) : List (BitVec 8) := (List.range (textLen c.char)).map c.char

variable {k k' : Kernel} {t : ℕ}

theorem textLen_le (char : ℕ → BitVec 8) : textLen char ≤ 95 :=
  (List.takeWhile_sublist _).length_le.trans_eq List.length_range

/-- The loop of `sys_fork` and of `sys_chdir`: characters up to a NUL, at most 95, then a NUL. -/
def copyText (src dst : ℕ → BitVec 8) : ℕ → BitVec 8 := fun i =>
  if i < textLen src then src i else if i = textLen src then 0 else dst i

theorem copyText_textLen (src dst : ℕ → BitVec 8) : copyText src dst (textLen src) = 0 := by
  simp only [copyText, lt_irrefl, if_false, if_true]

def Cwd.copy (src dst : Cwd) : Cwd where
  char := copyText src.char dst.char
  terminated := ⟨textLen src.char, textLen_le _, copyText_textLen _ _⟩

/-- `"/"`, as `sched_spawn_process` writes it over what the slot held. -/
def Cwd.root : Cwd where
  char i := if i = 0 then 0x2F else 0
  terminated := ⟨1, by decide, rfl⟩

/-- The fields of `task_t` that `sched_spawn_process` sets to defaults and `sys_fork` then sets to
the parent's. -/
structure Attrs where
  uid : BitVec 32
  gid : BitVec 32
  euid : BitVec 32
  egid : BitVec 32
  sid : BitVec 32
  umask : BitVec 16
  pgrp : BitVec 32
  cwd : Cwd
  rlimitCur : Fin 16 → Word
  rlimitMax : Fin 16 → Word
  altstackBase : Word
  altstackSize : Word
  altstackOnstack : Bool
  fsBase : Word
  gsBase : Word
  sigHandler : Fin 64 → Word
  sigFlags : Fin 64 → Word
  sigRestorer : Fin 64 → Word
  sigPending : Word
  sigBlocked : Word
  ppid : Word

/-- The defaults of `sched_spawn_process`, for the slot `pid`. -/
def Attrs.spawned (defaultUid defaultGid : BitVec 32) (pid : ℕ) : Attrs where
  uid := defaultUid
  gid := defaultGid
  euid := defaultUid
  egid := defaultGid
  sid := 0
  umask := 0
  pgrp := BitVec.ofNat 32 pid
  cwd := .root
  rlimitCur r := if r = 7 then 64 else BitVec.allOnes 64
  rlimitMax r := if r = 7 then 64 else BitVec.allOnes 64
  altstackBase := 0
  altstackSize := 0
  altstackOnstack := false
  fsBase := 0
  gsBase := 0
  sigHandler _ := 0
  sigFlags _ := 0
  sigRestorer _ := 0
  sigPending := 0
  sigBlocked := 0
  ppid := 0

/-- The copies of `sys_fork`, from `parent` over the fresh `child`. -/
def Attrs.inherit (parent child : Attrs) (parentPid : ℕ) : Attrs :=
  { child with
    ppid := BitVec.ofNat 64 parentPid
    uid := parent.uid
    gid := parent.gid
    euid := parent.euid
    egid := parent.egid
    sid := parent.sid
    umask := parent.umask
    rlimitCur := parent.rlimitCur
    rlimitMax := parent.rlimitMax
    altstackBase := parent.altstackBase
    altstackSize := parent.altstackSize
    altstackOnstack := false
    pgrp := parent.pgrp
    fsBase := parent.fsBase
    gsBase := parent.gsBase
    cwd := parent.cwd.copy child.cwd
    sigHandler := parent.sigHandler
    sigFlags := parent.sigFlags
    sigRestorer := parent.sigRestorer
    sigPending := 0
    sigBlocked := parent.sigBlocked }

/-- What a child shares with its parent, but for the process group and the pending set, which others
can change. -/
structure Attrs.Inherits (parent child : Attrs) : Prop where
  uid : child.uid = parent.uid
  gid : child.gid = parent.gid
  euid : child.euid = parent.euid
  egid : child.egid = parent.egid
  sid : child.sid = parent.sid
  umask : child.umask = parent.umask
  cwd : child.cwd.text = parent.cwd.text
  rlimitCur : child.rlimitCur = parent.rlimitCur
  rlimitMax : child.rlimitMax = parent.rlimitMax
  fsBase : child.fsBase = parent.fsBase
  gsBase : child.gsBase = parent.gsBase
  sigHandler : child.sigHandler = parent.sigHandler
  sigFlags : child.sigFlags = parent.sigFlags
  sigRestorer : child.sigRestorer = parent.sigRestorer
  sigBlocked : child.sigBlocked = parent.sigBlocked

theorem textLen_copyText (src dst : ℕ → BitVec 8) : textLen (copyText src dst) = textLen src := by
  -- below the length both texts are the same; at the length the copy has a NUL and the source has
  -- one or is at the end of the buffer
  have hle := textLen_le src
  have hsrc : ∀ i < textLen src, src i ≠ 0 := by
    intro i hi
    have hget : (List.takeWhile (fun i => decide (src i ≠ 0)) (List.range 95))[i] ∈
        (List.range 95).takeWhile fun i => decide (src i ≠ 0) := List.getElem_mem hi
    have hval := List.mem_takeWhile_imp hget
    rw [(List.takeWhile_prefix _).getElem hi, List.getElem_range] at hval
    exact of_decide_eq_true hval
  have hsplit : List.range 95 =
      List.range (textLen src) ++ (List.range (95 - textLen src)).map (textLen src + ·) := by
    rw [← List.range_add, Nat.add_sub_cancel' hle]
  have hcopy : ∀ i ∈ List.range (textLen src), decide (copyText src dst i ≠ 0) = true := by
    intro i hi
    have hlt := List.mem_range.mp hi
    simp only [copyText, if_pos hlt]
    exact decide_eq_true (hsrc i hlt)
  have hstop : ((List.range (95 - textLen src)).map (textLen src + ·)).takeWhile
      (fun i => decide (copyText src dst i ≠ 0)) = [] := by
    rcases hn : 95 - textLen src with _ | n
    · rfl
    · rw [List.range_succ_eq_map, List.map_cons, List.takeWhile_cons_of_neg]
      simp only [Nat.add_zero, copyText_textLen, ne_eq, not_true, decide_false, Bool.false_eq_true,
        not_false_iff]
  calc textLen (copyText src dst)
      = (List.range (textLen src) ++
          ((List.range (95 - textLen src)).map (textLen src + ·)).takeWhile
            (fun i => decide (copyText src dst i ≠ 0))).length := by
        rw [textLen, hsplit, List.takeWhile_append_of_pos hcopy]
    _ = textLen src := by rw [hstop, List.append_nil, List.length_range]

@[simp] theorem Cwd.text_copy (src dst : Cwd) : (src.copy dst).text = src.text := by
  have hlen : textLen (src.copy dst).char = textLen src.char := textLen_copyText _ _
  simp only [Cwd.text, hlen]
  refine List.map_congr_left fun i hi => ?_
  exact if_pos (List.mem_range.mp hi)

theorem Attrs.inherits_inherit (parent child : Attrs) (pid : ℕ) :
    parent.Inherits (parent.inherit child pid) :=
  ⟨rfl, rfl, rfl, rfl, rfl, rfl, Cwd.text_copy _ _, rfl, rfl, rfl, rfl, rfl, rfl, rfl, rfl⟩

/-! ## The system -/

/-- The kernel with the attributes and the address space (`mm_context`, 0 for NULL) of each task. -/
structure ForkSys where
  kernel : Kernel
  attrs : ℕ → Attrs
  mm : ℕ → ℕ
  /-- `g_default_uid` and `g_default_gid`. -/
  defaultUid : BitVec 32
  defaultGid : BitVec 32

inductive ForkNr where
  | fork | vfork | clone
  deriving DecidableEq

/-- What `vm_fork` and `sched_spawn_process` find. -/
inductive ForkResult where
  | noMemory
  | noSlot
  /-- No kernel stack: the signal globals are reset by then, the slot stays unused. -/
  | noStack
  | child (slot mm : ℕ)

variable {e : Event} {sig : Option SigFrame} {result : ForkResult}

def ForkSys.returns (s : ForkSys) (t : ℕ) (c : Call) (rax : Word) (sig : Option SigFrame) :
    Exit × ForkSys :=
  let out := s.kernel.finish t c (.ret rax) sig
  (out.1, { s with kernel := out.2 })

/-- `sys_fork`, and `syscall_entry` around it. -/
def ForkSys.sysFork (s : ForkSys) (t : ℕ) (c : Call) (result : ForkResult)
    (sig : Option SigFrame) : Exit × ForkSys :=
  match s.kernel.currentTask with
  | none => s.returns t c (-22) sig
  | some p =>
    if s.mm p = 0 then s.returns t c (-22) sig
    else
      match result with
      | .noMemory => s.returns t c (-12) sig
      | .noSlot => s.returns t c (-11) sig
      | .noStack => { s with kernel := s.kernel.signalGlobalsReset }.returns t c (-11) sig
      | .child slot mm =>
        let out := s.kernel.finish t c (.spawn slot) sig
        (out.1,
          { s with
            kernel := out.2
            attrs := update s.attrs slot
              ((s.attrs p).inherit (.spawned s.defaultUid s.defaultGid slot) p)
            mm := update s.mm slot mm })

def forkingCall (r : UserRegs) : Call := ⟨.fork, .ofUser r, 0, none, r.rsp⟩

/-- A forking system call from Ring 3, with the registers `r`; the stack of `clone` is its second
argument. -/
def ForkSys.forkCall (s : ForkSys) (t : ℕ) (nr : ForkNr) (r : UserRegs) (result : ForkResult)
    (sig : Option SigFrame) : Exit × ForkSys :=
  let entered : ForkSys := { s with kernel := s.kernel.syscallEntry t r .fork }
  if nr = .clone ∧ r.rsi ≠ 0 then entered.returns t (forkingCall r) (-38) sig
  else entered.sysFork t (forkingCall r) result sig

structure Start where
  regs : UserRegs
  /-- The address space in CR3. -/
  mm : ℕ
  fsBase : Word
  gsBase : Word

/-- The main loop runs a forked task for the first time: `vm_switch`, `syscall_restore_msrs`, and
`fork_resume` with a pointer to `fork_ctx`; `loop` are the registers of the main loop at the call.
`none` if the main loop would not call `fork_resume`, or if `sysretq` faults. -/
def ForkSys.start (s : ForkSys) (t : ℕ) (loop : Reg → Word) : Option Start :=
  let x := s.kernel.tasks t
  if x.kctxValid = false ∧ x.isFork = true then
    let c : Cpu :=
      ⟨loop, [], s.kernel.syscallUserRsp, s.kernel.syscallUserCtx.word, fun _ => x.forkCtx⟩
    (((exec forkResumeCode c).map Cpu.user).bind sysretq).map fun regs =>
      ⟨regs, s.mm t, (s.attrs t).fsBase, (s.attrs t).gsBase⟩
  else none

inductive ForkEvent where
  | fork (nr : ForkNr) (r : UserRegs) (result : ForkResult) (sig : Option SigFrame)
  /-- The main loop starts a program. -/
  | launch (t : ℕ) (entry rsp : Word) (mm : ℕ)
  /-- `execve` of the task on the CPU succeeds. -/
  | exec (entry rsp : Word) (mm : ℕ) (sig : Option SigFrame)
  | dispatch (t : ℕ)
  /-- The task on the CPU changes its own attributes. -/
  | change (a : Attrs)
  | setpgid (t : ℕ) (pgrp : BitVec 32)
  /-- `kill_one_task` leaves a signal pending. -/
  | post (t : ℕ) (bits : Word)
  /-- Any other event of the kernel. -/
  | kernel (e : Event)

/-- The events of the kernel that have no event of their own above.  Nobody collects the task on the
CPU: `wait4` collects a child of its caller, the main loop runs no task. -/
def Kernel.plain (k : Kernel) : Event → Bool
  | .enter _ nr => nr ≠ .fork
  | .finish (.spawn _) _ | .finish (.exec _ _) _ | .dispatch _ | .launch _ _ _ => false
  | .reap t => k.onCpu ≠ some t
  | _ => true

/-- Whether the slot that `sched_spawn_process` takes is free. -/
def Kernel.roomFor (k : Kernel) : ForkResult → Bool
  | .child slot _ => decide ((k.tasks slot).state = .reaped)
  | _ => true

def ForkSys.setAttrs (s : ForkSys) (t : ℕ) (a : Attrs) : ForkSys :=
  { s with attrs := update s.attrs t a }

def ForkSys.step (s : ForkSys) : ForkEvent → Option ForkSys
  | .fork nr r result sig =>
    match s.kernel.onCpu with
    | some t =>
      if (s.kernel.tasks t).call = none ∧ s.kernel.roomFor result then
        some (s.forkCall t nr r result sig).2
      else none
    | none => none
  | .launch t entry rsp mm =>
    (Sched.step s.kernel (.launch t entry rsp)).map fun k =>
      { s with
        kernel := k
        attrs := update s.attrs t (.spawned s.defaultUid s.defaultGid t)
        mm := update s.mm t mm }
  | .exec entry rsp mm sig =>
    match s.kernel.onCpu with
    | some t =>
      (Sched.step s.kernel (.finish (.exec entry rsp) sig)).map fun k =>
        { s with kernel := k, mm := update s.mm t mm }
    | none => none
  | .dispatch t => (Sched.step s.kernel (.dispatch t)).map fun k => { s with kernel := k }
  | .change a => s.kernel.onCpu.map fun t => s.setAttrs t a
  | .setpgid t pgrp => some (s.setAttrs t { s.attrs t with pgrp := pgrp })
  | .post t bits =>
    some (s.setAttrs t { s.attrs t with sigPending := (s.attrs t).sigPending ||| bits })
  | .kernel e =>
    if s.kernel.plain e then (Sched.step s.kernel e).map fun k => { s with kernel := k } else none

def ForkSys.boot (defaultUid defaultGid : BitVec 32) : ForkSys where
  kernel := .boot
  attrs t := .spawned 0 0 t
  mm _ := 0
  defaultUid := defaultUid
  defaultGid := defaultGid

/-! ## What one event of the kernel can do to a task -/

theorem tasks_finish (k : Kernel) (t : ℕ) (c : Call) (o : Outcome) (sig : Option SigFrame) :
    (k.finish t c o sig).2.tasks =
      let tasks := ((k.restoreUser c).handlerEnd t o).2.tasks
      update tasks t { tasks t with call := none } := by
  set k1 := ((k.restoreUser c).handlerEnd t o).2 with hk1
  set k2 : Kernel := { k1 with
    syscallUserCtx := { k1.syscallUserCtx with rax := ((k.restoreUser c).handlerEnd t o).1 } }
    with hk2
  have hleave := (leave_spec (k2.signalCheckDeliver sig) t c.frame
    ((k.restoreUser c).handlerEnd t o).1).1
  rw [tasks_signalCheckDeliver] at hleave
  exact congrArg (fun tasks : ℕ → Task => update tasks t { tasks t with call := none })
    hleave

theorem cpu_finish (k : Kernel) (t : ℕ) (c : Call) (o : Outcome) (sig : Option SigFrame) :
    (k.finish t c o sig).2.onCpu = none ∨ ((k.finish t c o sig).2.onCpu = k.onCpu ∧
      (k.finish t c o sig).2.currentTask = k.currentTask) := by
  have hend : ((k.restoreUser c).handlerEnd t o).2.onCpu = k.onCpu ∧
      ((k.restoreUser c).handlerEnd t o).2.currentTask = k.currentTask := by
    have hrest : (k.restoreUser c).currentTask = k.currentTask := by
      simp only [Kernel.restoreUser]
      split <;> rfl
    refine ⟨(onCpu_handlerEnd _ t o).trans (onCpu_restoreUser k c), ?_⟩
    rw [← hrest]
    cases o <;> rfl
  have hleave : ∀ (k' : Kernel) (rax : Word), (k'.leave t c.frame rax).2.onCpu = none ∨
      ((k'.leave t c.frame rax).2.onCpu = k'.onCpu ∧
        (k'.leave t c.frame rax).2.currentTask = k'.currentTask) := by
    intro k' rax
    simp only [Kernel.leave]
    split_ifs
    · exact .inl rfl
    all_goals exact .inr ⟨rfl, rfl⟩
  have hcheck : ∀ k' : Kernel, (k'.signalCheckDeliver sig).currentTask = k'.currentTask := by
    intro k'
    simp only [Kernel.signalCheckDeliver]
    split
    · split_ifs <;> rfl
    · rfl
  rcases hleave _ _ with h | ⟨h1, h2⟩
  · exact .inl h
  · rw [onCpu_signalCheckDeliver] at h1
    rw [hcheck] at h2
    exact .inr ⟨h1.trans hend.1, h2.trans hend.2⟩

/-- **What one event can do**, as far as tasks off the CPU are concerned. -/
structure Moved (k : Kernel) (e : Event) (k' : Kernel) : Prop where
  cpu : k'.onCpu = none ∨ (k'.onCpu = k.onCpu ∧ k'.currentTask = k.currentTask)
  others : ∀ u, k.onCpu ≠ some u → k'.tasks u = k.tasks u ∨
    k'.tasks u = { k.tasks u with state := .zombie } ∨ (k.tasks u).state = .blocked ∨ e = .reap u
  own : ∀ t, k.onCpu = some t → (k.tasks t).state ≠ .reaped → (k'.tasks t).state ≠ .reaped

theorem Moved.setTask {x : Task}
    (hcpu : k'.onCpu = none ∨ (k'.onCpu = k.onCpu ∧ k'.currentTask = k.currentTask))
    (htasks : k'.tasks = update k.tasks t x)
    (hother : k.onCpu ≠ some t → x = { k.tasks t with state := .zombie } ∨
      (k.tasks t).state = .blocked ∨ e = .reap t)
    (hown : k.onCpu = some t → (k.tasks t).state ≠ .reaped → x.state ≠ .reaped) :
    Moved k e k' := by
  refine ⟨hcpu, fun u hu => ?_, fun u hu hstate => ?_⟩
  · rw [htasks]
    by_cases hut : u = t
    · subst hut
      rw [update_self]
      exact .inr (hother hu)
    · exact .inl (update_of_ne hut _ _)
  · rw [htasks]
    by_cases hut : u = t
    · subst hut
      rw [update_self]
      exact hown hu hstate
    · rwa [update_of_ne hut]

theorem Moved.finish {c : Call} (ht : k.onCpu = some t) {o : Outcome}
    (hplain : k.plain (.finish o sig)) :
    Moved k (.finish o sig) (k.finish t c o sig).2 := by
  have hoff : k.onCpu ≠ some t → ∀ P : Prop, P := fun h => absurd ht h
  have htasks := tasks_finish k t c o sig
  cases o with
  | ret rax =>
    simp only [Kernel.handlerEnd, tasks_restoreUser] at htasks
    exact .setTask (cpu_finish k t c _ sig) htasks (fun h => hoff h _) fun _ h => h
  | sigreturn regs =>
    simp only [Kernel.handlerEnd, tasks_restoreUser] at htasks
    exact .setTask (cpu_finish k t c _ sig) htasks (fun h => hoff h _) fun _ h => h
  | exit =>
    simp only [Kernel.handlerEnd, Kernel.markExited, Kernel.setTask, Kernel.signalGlobalsReset,
      tasks_restoreUser, update_self, update_idem] at htasks
    exact .setTask (cpu_finish k t c _ sig) htasks (fun h => hoff h _) fun _ _ => by simp
  | exec entry rsp => cases hplain
  | spawn child => cases hplain

theorem step_moved (hplain : k.plain e) (hstep : Sched.step k e = some k') : Moved k e k' := by
  cases e with
  | enter r nr =>
    simp only [Sched.step] at hstep
    split at hstep
    · rename_i t ht
      split_ifs at hstep
      cases hstep
      exact .setTask (.inr ⟨rfl, rfl⟩) rfl (fun h => absurd ht h) fun _ h => h
    · cases hstep
  | block =>
    simp only [Sched.step] at hstep
    split at hstep
    · rename_i t c hcur
      split at hstep
      · split_ifs at hstep
        cases hstep
        have ht := (inCall_of_currentCall hcur).1
        exact .setTask (.inl rfl) rfl (fun h => absurd ht h) fun _ _ => by simp
      · cases hstep
    · cases hstep
  | finish o sig =>
    simp only [Sched.step] at hstep
    split at hstep
    · rename_i t c hcur
      split_ifs at hstep
      cases hstep
      exact .finish (inCall_of_currentCall hcur).1 hplain
    · cases hstep
  | fault o =>
    simp only [Sched.step] at hstep
    split at hstep
    · rename_i t ht
      split_ifs at hstep
      cases hstep
      cases o with
      | deliver f => exact ⟨.inr ⟨rfl, rfl⟩, fun _ _ => .inl rfl, fun _ _ h => h⟩
      | unwritable =>
        simp only [Kernel.fault]
        split_ifs
        · exact ⟨.inr ⟨rfl, rfl⟩, fun _ _ => .inl rfl, fun _ _ h => h⟩
        · exact ⟨.inl rfl, fun _ _ => .inl rfl, fun _ _ h => h⟩
      | kill => exact .setTask (.inl rfl) rfl (fun h => absurd ht h) fun _ _ => by simp
    · cases hstep
  | wake t =>
    obtain ⟨hblocked, ⟨⟩⟩ := Option.ite_none_right_eq_some.mp hstep
    exact .setTask (.inr ⟨rfl, rfl⟩) rfl (fun _ => .inr (.inl hblocked)) fun _ _ => by simp
  | kill t =>
    simp only [Sched.step] at hstep
    split_ifs at hstep <;> cases hstep <;>
      exact .setTask (.inr ⟨rfl, rfl⟩) rfl (fun _ => .inl rfl) fun _ _ => by simp
  | reap t =>
    obtain ⟨-, ⟨⟩⟩ := Option.ite_none_right_eq_some.mp hstep
    refine .setTask (.inr ⟨rfl, rfl⟩) rfl (fun _ => .inr (.inr rfl)) fun ht => ?_
    exact absurd ht (of_decide_eq_true hplain)
  | dispatch t => cases hplain
  | launch t entry rsp => cases hplain

/-! ## The task on the CPU -/

/-- The task on the CPU is `current_task`, and its slot is in use. -/
def CpuInv (k : Kernel) : Prop :=
  ∀ t, k.onCpu = some t → k.currentTask = some t ∧ (k.tasks t).state ≠ .reaped

theorem CpuInv.of_cpu (h : CpuInv k)
    (hcpu : k'.onCpu = none ∨ (k'.onCpu = k.onCpu ∧ k'.currentTask = k.currentTask))
    (hstate : ∀ t, k.onCpu = some t → (k'.tasks t).state ≠ .reaped) : CpuInv k' := by
  intro t ht
  rcases hcpu with hnone | ⟨hcpu, hcur⟩
  · rw [hnone] at ht
    cases ht
  · rw [hcpu] at ht
    exact ⟨hcur.trans (h t ht).1, hstate t ht⟩

theorem CpuInv.moved (h : CpuInv k) (hm : Moved k e k') : CpuInv k' :=
  h.of_cpu hm.cpu fun t ht => hm.own t ht (h t ht).2

theorem tasks_finish_spawn (k : Kernel) (t child : ℕ) (c : Call) (hsaved : c.savedUser = none)
    (htc : child ≠ t) (sig : Option SigFrame) :
    (k.finish t c (.spawn child) sig).2.tasks =
      update
        (update k.tasks child
          ⟨.ready, .none, false, true, { k.syscallUserCtx with rax := 0 }, 0, 0, none⟩)
        t { k.tasks t with call := none } := by
  rw [tasks_finish]
  simp only [Kernel.restoreUser, hsaved, Kernel.handlerEnd, Kernel.spawnProcess, Kernel.setTask,
    Kernel.signalGlobalsReset, update_idem, update_self]
  rw [update_of_ne htc.symm]

theorem tasks_finish_ret (k : Kernel) (t : ℕ) (c : Call) (rax : Word) (sig : Option SigFrame) :
    (k.finish t c (.ret rax) sig).2.tasks =
      update k.tasks t { k.tasks t with call := none } := by
  rw [tasks_finish]
  simp only [Kernel.handlerEnd, tasks_restoreUser]

structure ForkMoved (s : ForkSys) (t : ℕ) (result : ForkResult) (s' : ForkSys) : Prop where
  cpu : s'.kernel.onCpu = none ∨
    (s'.kernel.onCpu = s.kernel.onCpu ∧ s'.kernel.currentTask = s.kernel.currentTask)
  own : (s'.kernel.tasks t).state = (s.kernel.tasks t).state
  others : ∀ u, u ≠ t → (∀ mm, result ≠ .child u mm) →
    s'.kernel.tasks u = s.kernel.tasks u ∧ s'.attrs u = s.attrs u ∧ s'.mm u = s.mm u

theorem ForkMoved.returns {s : ForkSys} {r : UserRegs} {c : Call} {rax : Word}
    (hk : k.tasks = (s.kernel.syscallEntry t r .fork).tasks) (hcpu : k.onCpu = s.kernel.onCpu)
    (hcur : k.currentTask = s.kernel.currentTask) :
    ForkMoved s t result (ForkSys.returns { s with kernel := k } t c rax sig).2 := by
  have htasks := tasks_finish_ret k t c rax sig
  refine ⟨?_, ?_, fun u hu _ => ⟨?_, rfl, rfl⟩⟩
  · have h := cpu_finish k t c (.ret rax) sig
    rwa [hcpu, hcur] at h
  · simp only [ForkSys.returns, htasks, hk, Kernel.syscallEntry, Kernel.setTask,
      update_self]
  · simp only [ForkSys.returns, htasks, hk, Kernel.syscallEntry, Kernel.setTask,
      update_of_ne hu]

theorem forkCall_moved (s : ForkSys) (nr : ForkNr) (r : UserRegs)
    (sig : Option SigFrame) (hslot : ∀ slot mm, result = .child slot mm → slot ≠ t) :
    ForkMoved s t result (s.forkCall t nr r result sig).2 := by
  simp only [ForkSys.forkCall]
  split_ifs with hclone
  · exact .returns rfl rfl rfl
  simp only [ForkSys.sysFork]
  split
  · exact .returns rfl rfl rfl
  split_ifs
  · exact .returns rfl rfl rfl
  cases result with
  | noMemory => exact .returns rfl rfl rfl
  | noSlot => exact .returns rfl rfl rfl
  | noStack => exact .returns rfl rfl rfl
  | child slot mm =>
    have hne := hslot slot mm rfl
    have htasks := tasks_finish_spawn (s.kernel.syscallEntry t r .fork) t slot (forkingCall r) rfl
      hne sig
    have hcpu := cpu_finish (s.kernel.syscallEntry t r .fork) t (forkingCall r) (.spawn slot) sig
    refine ⟨hcpu, ?_, fun u hu hus => ?_⟩
    · refine (congrArg Task.state (congrFun htasks t)).trans ?_
      simp only [update_self, Kernel.syscallEntry, Kernel.setTask]
    · have huslot : u ≠ slot := by
        rintro rfl
        exact hus mm rfl
      refine ⟨?_, update_of_ne huslot _ _, update_of_ne huslot _ _⟩
      refine (congrFun htasks u).trans ?_
      simp only [update_of_ne hu, update_of_ne huslot, Kernel.syscallEntry,
        Kernel.setTask]

theorem CpuInv.slot_ne (h : CpuInv k) (ht : k.onCpu = some t)
    (hroom : k.roomFor result = true) (slot mm : ℕ)
    (hres : result = .child slot mm) : slot ≠ t := by
  rintro rfl
  subst hres
  exact (h slot ht).2 (of_decide_eq_true hroom)

theorem step_exec {entry rsp : Word}
    (hstep : Sched.step k (.finish (.exec entry rsp) sig) = some k')
    (ht : k.onCpu = some t) :
    (k'.onCpu = none ∨ (k'.onCpu = k.onCpu ∧ k'.currentTask = k.currentTask)) ∧
      k'.tasks = update k.tasks t
        { k.tasks t with entry := entry, userRsp := rsp, call := none } := by
  simp only [Sched.step] at hstep
  split at hstep
  · rename_i t' c hcur
    split_ifs at hstep
    cases hstep
    cases Option.some.inj (ht.symm.trans (inCall_of_currentCall hcur).1)
    refine ⟨cpu_finish k t c _ sig, ?_⟩
    rw [tasks_finish]
    simp only [Kernel.handlerEnd, Kernel.setTask, Kernel.signalGlobalsReset, tasks_restoreUser,
      update_self, update_idem]
  · cases hstep

theorem step_launch {entry rsp : Word} (hstep : Sched.step k (.launch t entry rsp) = some k') :
    k.onCpu = none ∧ (k.tasks t).state = .reaped ∧ k'.onCpu = none ∧
      ∃ x, k'.tasks = update k.tasks t x := by
  obtain ⟨h, ⟨⟩⟩ := Option.ite_none_right_eq_some.mp hstep
  exact ⟨h.1, h.2, h.1, _, rfl⟩

theorem step_dispatch (hstep : Sched.step k (.dispatch t) = some k') :
    k'.onCpu = some t ∧ k'.currentTask = some t ∧
      k'.tasks = update k.tasks t { k.tasks t with state := .running } := by
  obtain ⟨-, ⟨⟩⟩ := Option.ite_none_right_eq_some.mp hstep
  simp only [Kernel.dispatch]
  split_ifs <;> exact ⟨rfl, rfl, rfl⟩

theorem CpuInv.step {s s' : ForkSys} {e : ForkEvent} (h : CpuInv s.kernel)
    (hstep : s.step e = some s') : CpuInv s'.kernel := by
  cases e with
  | fork nr r result sig =>
    simp only [ForkSys.step] at hstep
    split at hstep
    · rename_i t ht
      split_ifs at hstep with hok
      cases hstep
      have hm := forkCall_moved s nr r sig (h.slot_ne ht hok.2)
      refine h.of_cpu hm.cpu fun u hu => ?_
      cases Option.some.inj (ht.symm.trans hu)
      rw [hm.own]
      exact (h t ht).2
    · cases hstep
  | launch t entry rsp mm =>
    obtain ⟨k', hk', rfl⟩ := Option.map_eq_some_iff.mp hstep
    exact h.of_cpu (.inl (step_launch hk').2.2.1) fun u hu =>
      absurd ((step_launch hk').1.symm.trans hu) nofun
  | exec entry rsp mm sig =>
    simp only [ForkSys.step] at hstep
    split at hstep
    · rename_i t ht
      obtain ⟨k', hk', rfl⟩ := Option.map_eq_some_iff.mp hstep
      obtain ⟨hcpu, htasks⟩ := step_exec hk' ht
      refine h.of_cpu hcpu fun u hu => ?_
      cases Option.some.inj (ht.symm.trans hu)
      simp only [htasks, update_self]
      exact (h t ht).2
    · cases hstep
  | dispatch t =>
    obtain ⟨k', hk', rfl⟩ := Option.map_eq_some_iff.mp hstep
    obtain ⟨hcpu, hcur, htasks⟩ := step_dispatch hk'
    intro u hu
    cases Option.some.inj (hcpu.symm.trans hu)
    refine ⟨hcur, ?_⟩
    simp [htasks]
  | change a =>
    obtain ⟨t, -, rfl⟩ := Option.map_eq_some_iff.mp hstep
    exact h
  | setpgid t pgrp =>
    cases hstep
    exact h
  | post t bits =>
    cases hstep
    exact h
  | kernel e =>
    obtain ⟨hplain, hstep⟩ := Option.ite_none_right_eq_some.mp hstep
    obtain ⟨k', hk', rfl⟩ := Option.map_eq_some_iff.mp hstep
    exact h.moved (step_moved hplain hk')

theorem cpuInv_boot (defaultUid defaultGid : BitVec 32) :
    CpuInv (ForkSys.boot defaultUid defaultGid).kernel := nofun

/-! ## A child that has not run yet -/

/-- Task `u` is a forked child that has not run: what it will start with is all in place. -/
structure Unstarted (s : ForkSys) (u : ℕ) (ctx : UserRegs) (mm : ℕ) (parent : Attrs) : Prop where
  offCpu : s.kernel.onCpu ≠ some u
  state : (s.kernel.tasks u).state = .ready ∨ (s.kernel.tasks u).state = .zombie
  kctx : (s.kernel.tasks u).kctxValid = false
  isFork : (s.kernel.tasks u).isFork = true
  forkCtx : (s.kernel.tasks u).forkCtx = ctx
  mm : s.mm u = mm
  attrs : parent.Inherits (s.attrs u)

def Untouched (u : ℕ) (_ : ForkSys) (e : ForkEvent) : Prop :=
  e ≠ .dispatch u ∧ e ≠ .kernel (.reap u)

section Unstarted

variable {s s' : ForkSys} {u : ℕ} {ctx : UserRegs} {mm : ℕ} {parent : Attrs}

section

variable (h : Unstarted s u ctx mm parent)

include h

theorem Unstarted.state_ne {x : TaskState}
    (hx : x = .reaped ∨ x = .blocked) : (s.kernel.tasks u).state ≠ x := by
  intro hs
  rcases h.state with hr | hr <;> rcases hx with rfl | rfl <;> cases hr.symm.trans hs

theorem Unstarted.of_same (hcpu : s'.kernel.onCpu ≠ some u)
    (htasks : s'.kernel.tasks u = s.kernel.tasks u ∨
      s'.kernel.tasks u = { s.kernel.tasks u with state := .zombie })
    (hmm : s'.mm u = s.mm u) (hattrs : parent.Inherits (s'.attrs u)) :
    Unstarted s' u ctx mm parent := by
  rcases htasks with ht | ht
  · exact ⟨hcpu, ht ▸ h.state, ht ▸ h.kctx, ht ▸ h.isFork, ht ▸ h.forkCtx, hmm.trans h.mm, hattrs⟩
  · refine ⟨hcpu, .inr (by rw [ht]), ?_, ?_, ?_, hmm.trans h.mm, hattrs⟩
    · rw [ht]
      exact h.kctx
    · rw [ht]
      exact h.isFork
    · rw [ht]
      exact h.forkCtx

theorem Unstarted.offCpu_of (hcpu : k.onCpu = none ∨
      (k.onCpu = s.kernel.onCpu ∧ k.currentTask = s.kernel.currentTask)) :
    k.onCpu ≠ some u := by
  rcases hcpu with hnone | ⟨hsame, -⟩
  · rw [hnone]
    nofun
  · rw [hsame]
    exact h.offCpu

theorem Unstarted.setAttrs {a : Attrs}
    (ha : t = u → parent.Inherits a) : Unstarted (s.setAttrs t a) u ctx mm parent := by
  refine h.of_same h.offCpu (.inl rfl) rfl ?_
  simp only [ForkSys.setAttrs]
  by_cases hut : u = t
  · subst hut
    rw [update_self]
    exact ha rfl
  · rw [update_of_ne hut]
    exact h.attrs

end

theorem Unstarted.step (hcpu : CpuInv s.kernel) (h : Unstarted s u ctx mm parent) {e : ForkEvent}
    (hok : Untouched u s e) (hstep : s.step e = some s') : Unstarted s' u ctx mm parent := by
  have hoff : ∀ {t}, s.kernel.onCpu = some t → u ≠ t := by
    rintro t ht rfl
    exact h.offCpu ht
  have hfree : ∀ {t}, (s.kernel.tasks t).state = .reaped → u ≠ t := by
    rintro t ht rfl
    exact h.state_ne (.inl rfl) ht
  cases e with
  | fork nr r result sig =>
    simp only [ForkSys.step] at hstep
    split at hstep
    · rename_i t ht
      split_ifs at hstep with hroom
      cases hstep
      have hm := forkCall_moved s nr r sig (hcpu.slot_ne ht hroom.2)
      obtain ⟨htasks, hattrs, hmm⟩ := hm.others u (hoff ht) fun m hres => by
        subst hres
        exact hfree (of_decide_eq_true hroom.2) rfl
      exact h.of_same (h.offCpu_of hm.cpu) (.inl htasks) hmm (hattrs ▸ h.attrs)
    · cases hstep
  | launch t entry rsp m =>
    obtain ⟨k', hk', rfl⟩ := Option.map_eq_some_iff.mp hstep
    obtain ⟨-, hreaped, hnone, x, htasks⟩ := step_launch hk'
    have hut := hfree hreaped
    refine h.of_same (by rw [hnone]; nofun) (.inl ?_) (update_of_ne hut _ _) ?_
    · simp only [htasks, update_of_ne hut]
    · simp only [update_of_ne hut]
      exact h.attrs
  | exec entry rsp m sig =>
    simp only [ForkSys.step] at hstep
    split at hstep
    · rename_i t ht
      obtain ⟨k', hk', rfl⟩ := Option.map_eq_some_iff.mp hstep
      obtain ⟨hcpu', htasks⟩ := step_exec hk' ht
      have hut := hoff ht
      refine h.of_same (h.offCpu_of hcpu') (.inl ?_) (update_of_ne hut _ _) h.attrs
      simp only [htasks, update_of_ne hut]
    · cases hstep
  | dispatch t =>
    obtain ⟨k', hk', rfl⟩ := Option.map_eq_some_iff.mp hstep
    obtain ⟨hon, -, htasks⟩ := step_dispatch hk'
    have hut : u ≠ t := by
      rintro rfl
      exact hok.1 rfl
    refine h.of_same ?_ (.inl ?_) rfl h.attrs
    · rw [hon]
      exact fun he => hut (Option.some.inj he).symm
    · simp only [htasks, update_of_ne hut]
  | change a =>
    obtain ⟨t, ht, rfl⟩ := Option.map_eq_some_iff.mp hstep
    exact h.setAttrs fun htu => absurd htu.symm (hoff ht)
  | setpgid t pgrp =>
    cases hstep
    refine h.setAttrs ?_
    rintro rfl
    exact { h.attrs with }
  | post t bits =>
    cases hstep
    refine h.setAttrs ?_
    rintro rfl
    exact { h.attrs with }
  | kernel e =>
    obtain ⟨hplain, hstep⟩ := Option.ite_none_right_eq_some.mp hstep
    obtain ⟨k', hk', rfl⟩ := Option.map_eq_some_iff.mp hstep
    have hm := step_moved hplain hk'
    rcases hm.others u h.offCpu with ht | ht | hblocked | hreap
    · exact h.of_same (h.offCpu_of hm.cpu) (.inl ht) rfl h.attrs
    · exact h.of_same (h.offCpu_of hm.cpu) (.inr ht) rfl h.attrs
    · exact absurd hblocked (h.state_ne (.inr rfl))
    · exact absurd (congrArg _ hreap) hok.2

theorem Unstarted.run (hcpu : CpuInv s.kernel) (h : Unstarted s u ctx mm parent)
    {es : List ForkEvent} (hrun : Run ForkSys.step (Untouched u) s es s') :
    Unstarted s' u ctx mm parent := by
  refine (hrun.invariant (I := fun s => CpuInv s.kernel ∧ Unstarted s u ctx mm parent) ?_
    ⟨hcpu, h⟩).2
  rintro s e s' ⟨hc, hu⟩ hok hstep
  exact ⟨hc.step hstep, hu.step hc hok hstep⟩

theorem Unstarted.start_eq (h : Unstarted s u ctx mm parent) (loop : Reg → Word) :
    s.start u loop =
      (sysretq { ctx with rax := 0 }).map fun regs => ⟨regs, mm, parent.fsBase, parent.gsBase⟩ := by
  simp only [ForkSys.start, h.kctx, h.isFork, and_self, if_true, exec_forkResumeCode,
    Option.bind_some, h.forkCtx, h.mm, h.attrs.fsBase, h.attrs.gsBase]

end Unstarted

/-! ## Fork -/

/-- Task `t` makes a forking system call that succeeds, with the slot `child` for the child. -/
structure Forks (s : ForkSys) (t : ℕ) (nr : ForkNr) (r : UserRegs) (child : ℕ) : Prop where
  onCpu : s.kernel.onCpu = some t
  ring3 : (s.kernel.tasks t).call = none
  space : s.mm t ≠ 0
  nullStack : nr = .clone → r.rsi = 0
  slot : (s.kernel.tasks child).state = .reaped

/-- **Fork fidelity.**  `sig` is the signal, if any, that is delivered to the parent at the return.
-/
structure ForkFaithful (s : ForkSys) (t : ℕ) (nr : ForkNr) (r : UserRegs) (child mm : ℕ)
    (sig : Option SigFrame) : Prop where
  attrs : (s.attrs t).Inherits ((s.forkCall t nr r (.child child mm) sig).2.attrs child)
  pgrp : ((s.forkCall t nr r (.child child mm) sig).2.attrs child).pgrp = (s.attrs t).pgrp
  pending : ((s.forkCall t nr r (.child child mm) sig).2.attrs child).sigPending = 0
  /-- Whenever the main loop first runs the child, it starts as its parent was. -/
  childStarts : ∀ es s', Run ForkSys.step (Untouched child)
      (s.forkCall t nr r (.child child mm) sig).2 es s' →
    (s'.kernel.tasks child).state = .ready →
    (s.attrs t).Inherits (s'.attrs child) ∧ ∀ loop, s'.start child loop =
      some ⟨{ r with rax := 0 }, mm, (s.attrs t).fsBase, (s.attrs t).gsBase⟩
  /-- The parent goes on with the child's pid. -/
  parent : sig = none → ∃ q, (s.forkCall t nr r (.child child mm) sig).1 = .sysret q ∧
    sysretq q = some { r with rax := BitVec.ofNat 64 child }

/-- The condition: `sysretq` takes the return address and the flags, and no request of another task
is left over. -/
structure ForkSafe (k : Kernel) (r : UserRegs) (sig : Option SigFrame) : Prop where
  rip : CanonicalRip r.rip
  rflags : sysretFlags r.rflags = r.rflags
  requests : sig = none → k.exitRequest = false ∧ k.execRequest = false

section Fork

variable {s : ForkSys} {t : ℕ} {nr : ForkNr} {r : UserRegs} {child mm : ℕ}
  {sig : Option SigFrame}

section

variable (h : Forks s t nr r child) (hcpu : CpuInv s.kernel)

include h hcpu

theorem Forks.forkCall_eq : s.forkCall t nr r (.child child mm) sig =
      let out := (s.kernel.syscallEntry t r .fork).finish t (forkingCall r) (.spawn child) sig
      (out.1,
        { s with
          kernel := out.2
          attrs := update s.attrs child
            ((s.attrs t).inherit (.spawned s.defaultUid s.defaultGid child) t)
          mm := update s.mm child mm }) := by
  have hclone : ¬ (nr = .clone ∧ r.rsi ≠ 0) := fun hc => hc.2 (h.nullStack hc.1)
  have hcur : (s.kernel.syscallEntry t r .fork).currentTask = some t := (hcpu t h.onCpu).1
  simp only [ForkSys.forkCall, if_neg hclone, ForkSys.sysFork, hcur, if_neg h.space]

theorem Forks.child_ne : child ≠ t := by
  rintro rfl
  exact (hcpu child h.onCpu).2 h.slot

theorem Forks.unstarted (mm : ℕ) (sig : Option SigFrame) :
    Unstarted (s.forkCall t nr r (.child child mm) sig).2 child { r with rax := 0 } mm
      (s.attrs t) ∧
    ((s.forkCall t nr r (.child child mm) sig).2.kernel.tasks child).state = .ready := by
  have hne := h.child_ne hcpu
  have hslot : ∀ slot m, ForkResult.child child mm = .child slot m → slot ≠ t := by
    rintro _ _ ⟨⟩
    exact hne
  have hcpu' := (forkCall_moved s nr r sig hslot).cpu
  have htask : (s.forkCall t nr r (.child child mm) sig).2.kernel.tasks child =
      ⟨.ready, .none, false, true, { r with rax := 0 }, 0, 0, none⟩ := by
    rw [h.forkCall_eq hcpu]
    simp only [tasks_finish_spawn _ t child (forkingCall r) rfl hne, update_of_ne hne,
      update_self, Kernel.syscallEntry, Kernel.setTask]
  have hoff : (s.forkCall t nr r (.child child mm) sig).2.kernel.onCpu ≠ some child := by
    rcases hcpu' with hnone | ⟨hsame, -⟩
    · rw [hnone]
      nofun
    · rw [hsame, h.onCpu]
      exact fun he => hne (Option.some.inj he).symm
  refine ⟨⟨hoff, ?_, ?_, ?_, ?_, ?_, ?_⟩, ?_⟩
  · rw [htask]
    exact .inl rfl
  · rw [htask]
  · rw [htask]
  · rw [htask]
  · rw [h.forkCall_eq hcpu]
    exact update_self _ _ _
  · rw [h.forkCall_eq hcpu]
    simp only [update_self]
    exact Attrs.inherits_inherit _ _ _
  · rw [htask]

theorem Forks.exit_eq : (s.forkCall t nr r (.child child mm) none).1 =
      if s.kernel.exitRequest then .returnToKernel
      else if s.kernel.execRequest then .jumpToUser s.kernel.execEntry s.kernel.execRsp
      else .sysret { r with rax := BitVec.ofNat 64 child } := by
  rw [h.forkCall_eq hcpu]
  simp only [forkingCall, Kernel.finish, Kernel.restoreUser, Kernel.handlerEnd,
    Kernel.signalCheckDeliver, Kernel.leave, Kernel.spawnProcess, Kernel.setTask, Kernel.signalGlobalsReset,
    Kernel.syscallEntry, Bool.false_eq_true, if_false]
  split_ifs <;> rfl

end

/-- **A fork is faithful exactly if** `sysretq` takes the return address and the flags, and no exit
or exec request of another task is left over. -/
theorem fork_faithful_iff {defaultUid defaultGid : BitVec 32} {es : List ForkEvent}
    (hrun : Run ForkSys.step (fun _ _ => True) (.boot defaultUid defaultGid) es s)
    (h : Forks s t nr r child) :
    ForkFaithful s t nr r child mm sig ↔ ForkSafe s.kernel r sig := by
  have hcpu : CpuInv s.kernel := hrun.invariant (I := fun s => CpuInv s.kernel)
    (fun _ _ _ hc _ hstep => hc.step hstep) (cpuInv_boot _ _)
  obtain ⟨hun, hready⟩ := h.unstarted hcpu mm sig
  have hcpu' : CpuInv (s.forkCall t nr r (.child child mm) sig).2.kernel := by
    refine CpuInv.step (e := .fork nr r (.child child mm) sig) hcpu ?_
    simp only [ForkSys.step, h.onCpu, h.ring3, Kernel.roomFor, h.slot, decide_true, and_self,
      if_true]
  constructor
  · intro hf
    obtain ⟨-, hstart⟩ := hf.childStarts [] _ (.nil _) hready
    have hregs := hstart fun _ => 0
    rw [hun.start_eq] at hregs
    obtain ⟨q, hq, hqr⟩ := Option.map_eq_some_iff.mp hregs
    cases congrArg Start.regs hqr
    obtain ⟨hrip, hflags⟩ := (sysretq_eq_self_iff _).mp hq
    refine ⟨hrip, hflags, ?_⟩
    rintro rfl
    obtain ⟨q, hexit, -⟩ := hf.parent rfl
    rw [h.exit_eq hcpu] at hexit
    split_ifs at hexit with he hx
    exact ⟨Bool.eq_false_of_not_eq_true he, Bool.eq_false_of_not_eq_true hx⟩
  · intro hsafe
    refine ⟨hun.attrs, ?_, ?_, fun es s' hrun' _ => ?_, ?_⟩
    · rw [h.forkCall_eq hcpu]
      simp only [update_self, Attrs.inherit]
    · rw [h.forkCall_eq hcpu]
      simp only [update_self, Attrs.inherit]
    · have hlate := hun.run hcpu' hrun'
      have hq : sysretq { r with rax := 0 } = some { r with rax := 0 } :=
        (sysretq_eq_self_iff _).mpr ⟨hsafe.rip, hsafe.rflags⟩
      exact ⟨hlate.attrs, fun loop => (hlate.start_eq loop).trans (congrArg (Option.map _) hq)⟩
    · rintro rfl
      obtain ⟨he, hx⟩ := hsafe.requests rfl
      refine ⟨{ r with rax := BitVec.ofNat 64 child }, ?_, ?_⟩
      · rw [h.exit_eq hcpu, he, hx]
        rfl
      · exact (sysretq_eq_self_iff _).mpr ⟨hsafe.rip, hsafe.rflags⟩

end Fork

def forkRegs : UserRegs :=
  { UserRegs.zero with rip := 0x401000, rsp := 0x7FFF0000, rflags := 0x202, r12 := 12 }

def oneProgram : List ForkEvent := [.launch 1 0x400000 0x7FFF0000 5, .dispatch 1]

theorem fork_faithful_oneProgram :
    ∃ s, Run ForkSys.step (fun _ _ => True) (.boot 0 0) oneProgram s ∧
      ForkFaithful s 1 .fork forkRegs 2 6 none := by
  obtain ⟨s, hrun, h1, h2, h3, h4, h5, h6⟩ :
      ∃ s, Run ForkSys.step (fun _ _ => True) (.boot 0 0) oneProgram s ∧
        s.kernel.onCpu = some 1 ∧ (s.kernel.tasks 1).call = none ∧ s.mm 1 ≠ 0 ∧
        (s.kernel.tasks 2).state = .reaped ∧ s.kernel.exitRequest = false ∧
        s.kernel.execRequest = false := exists_run (by decide +kernel)
  have hforks : Forks s 1 .fork forkRegs 2 := ⟨h1, h2, h3, nofun, h4⟩
  refine ⟨s, hrun, (fork_faithful_iff hrun hforks).mpr ?_⟩
  exact ⟨by decide +kernel, by decide +kernel, fun _ => ⟨h5, h6⟩⟩

/-- Two programs; the first blocks in a read and is killed by a timer from the main loop while
`current_task` still names it; then the second one runs. -/
def killedByTimer : List ForkEvent :=
  [.launch 1 0x400000 0x7FFF0000 5, .launch 2 0x400000 0x7FFF0000 6, .dispatch 1,
    .kernel (.enter forkRegs .pipeRead), .kernel .block, .kernel (.kill 1), .dispatch 2]

/-- **A fork that does not return to the parent**: the second program's fork succeeds, and the
parent is thrown out of the CPU by the request that was meant for the first program. -/
theorem fork_loses_parent :
    ∃ s, Run ForkSys.step (fun _ _ => True) (.boot 0 0) killedByTimer s ∧
      s.kernel.onCpu = some 2 ∧ (s.kernel.tasks 2).call = none ∧ s.mm 2 ≠ 0 ∧
      (s.kernel.tasks 3).state = .reaped ∧
      (s.forkCall 2 .fork forkRegs (.child 3 7) none).1 = .returnToKernel ∧
      ((s.forkCall 2 .fork forkRegs (.child 3 7) none).2.kernel.tasks 3).state = .ready :=
  exists_run (by decide +kernel)

end BananaOS.Sched
