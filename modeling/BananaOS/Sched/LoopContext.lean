import BananaOS.Lib.GuardedRun
import BananaOS.Sched.SyscallEntry

/-!
# Where the main loop goes on

The main loop of `kmain.c` hands the CPU to a task by one of three calls: `sched_enter_user` and
`fork_resume` for a task that has never run, `switch_context` for one that blocked.  None of them
returns in the ordinary way.  Control comes back when the task blocks, through `g_sched_kctx`, or
when it exits, through the seven globals `user_ret_*`; each of the two holds a stack pointer that
points at a return address of the main loop, and the callee-saved registers.
-/

namespace BananaOS.Sched.LoopContext

open Function GuardedRun

/-! ## The registers that a context holds -/

/-- `kctx_t` without its flag: the stack pointer and the callee-saved registers. -/
structure Kctx where
  rsp : Word
  rbx : Word
  rbp : Word
  r12 : Word
  r13 : Word
  r14 : Word
  r15 : Word
  deriving DecidableEq

def Kctx.call (k : Kctx) : Kctx := { k with rsp := k.rsp - 8 }

def Kctx.ret (k : Kctx) : Kctx := { k with rsp := k.rsp + 8 }

@[simp] theorem Kctx.ret_call (k : Kctx) : k.call.ret = k := by
  simp only [Kctx.ret, Kctx.call, BitVec.sub_add_cancel]

inductive CallSite where
  | switchContext | forkResume | schedEnterUser
  deriving DecidableEq

inductive Phase where
  | free | ready | running | blocked | zombie
  deriving DecidableEq

/-- What `task_t` keeps for the switches. -/
structure Task where
  phase : Phase
  /-- `kctx`, `none` while `kctx.valid = 0`. -/
  kctx : Option Kctx
  /-- `exit_ctx`. -/
  exitCtx : Kctx
  isFork : Bool
  /-- The part of `fork_ctx` that lies in these registers; for a task that starts at its entry point
  only `user_rsp`. -/
  user : Kctx
  /-- History: the registers of the main loop when it started the task. -/
  startedWith : Kctx
  deriving DecidableEq

structure LoopSys where
  regs : Kctx
  /-- The main loop's stack: which words hold a return address of a hand-over. -/
  mainStack : Word → Option CallSite
  /-- `user_ret_*`. -/
  userRet : Kctx
  /-- `g_sched_kctx`. -/
  gSched : Kctx
  tasks : ℕ → Task
  /-- `none` while the main loop runs. -/
  onCpu : Option ℕ
  /-- History: the registers of the main loop at its latest hand-over, and the call. -/
  handed : Option (Kctx × CallSite)
  /-- History: the registers with which the main loop last got the CPU back, and where. -/
  back : Option (Kctx × Option CallSite)

variable {s : LoopSys} {t : ℕ}

/-! ## The switches -/

def LoopSys.setTask (s : LoopSys) (t : ℕ) (x : Task) : LoopSys :=
  { s with tasks := update s.tasks t x }

def LoopSys.handOver (s : LoopSys) (site : CallSite) : LoopSys :=
  { s with
    mainStack := update s.mainStack (s.regs.rsp - 8) (some site)
    regs := s.regs.call
    handed := some (s.regs, site) }

def LoopSys.saveSchedRet (s : LoopSys) : LoopSys := { s with userRet := s.regs, gSched := s.regs }

def LoopSys.pushed (s : LoopSys) (n : ℕ) : LoopSys :=
  { s with mainStack := fun a =>
      if a ∈ (List.range n).map (fun i => s.regs.rsp - 8 * (BitVec.ofNat 64 i + 1)) then none
      else s.mainStack a }

/-- First start.  `fork_resume` pushes the nine words of a system call frame and loads the child's
registers; `enter_user` pushes the five words of an `iretq` frame and leaves all but RSP as they
are. -/
def LoopSys.start (s : LoopSys) (t : ℕ) : LoopSys :=
  let x := s.tasks t
  let started := s.setTask t { x with phase := .running, startedWith := s.regs }
  if x.isFork then
    { ((started.handOver .forkResume).saveSchedRet.pushed 9) with regs := x.user, onCpu := some t }
  else
    { ((started.handOver .schedEnterUser).saveSchedRet.pushed 5) with
      regs := { s.regs with rsp := x.user.rsp }, onCpu := some t }

/-- The main loop puts `exit_ctx` back and calls `switch_context(&g_sched_kctx, &t->kctx)`. -/
def LoopSys.resume (s : LoopSys) (t : ℕ) (k : Kctx) : LoopSys :=
  let x := s.tasks t
  let restored := { s.setTask t { x with phase := .running } with userRet := x.exitCtx }
  let called := restored.handOver .switchContext
  { called with gSched := called.regs, regs := k.ret, onCpu := some t }

def LoopSys.comeBack (s : LoopSys) (k : Kctx) : LoopSys :=
  { s with regs := k.ret, onCpu := none, back := some (k.ret, s.mainStack k.rsp) }

/-- `sched_block_and_switch`: `exit_ctx` takes `user_ret_*` (the main loop copies it once more after
the return, when nothing has changed it) and `switch_context(&t->kctx, &g_sched_kctx)` leaves. -/
def LoopSys.block (s : LoopSys) (t : ℕ) : LoopSys :=
  let x := { s.tasks t with phase := .blocked, exitCtx := s.userRet, kctx := some s.regs.call }
  (s.setTask t x).comeBack s.gSched

/-- `.Lreturn_to_kernel`, and the same lines at the end of the fault path in `idt.S`. -/
def LoopSys.exit (s : LoopSys) (t : ℕ) : LoopSys :=
  (s.setTask t { s.tasks t with phase := .zombie }).comeBack s.userRet

/-- What can happen.  `mainRuns` and `taskRuns` stand for any code of the main loop and of the task
on the CPU; the latter does not write the main loop's stack. -/
inductive Event where
  | mainRuns (regs : Kctx) (stack : Word → Option CallSite)
  | taskRuns (regs : Kctx)
  | spawn (t : ℕ) (isFork : Bool) (user : Kctx)
  | dispatch (t : ℕ)
  | block
  | wake (t : ℕ)
  | exit
  | kill (t : ℕ)
  | reap (t : ℕ)

/-- One step.  `spawn` is `sched_spawn_process`, by the main loop or by the task on the CPU; it
clears both `valid` flags and leaves the contexts behind them as they were. -/
def step (s : LoopSys) : Event → Option LoopSys
  | .mainRuns regs stack =>
    if s.onCpu = none then some { s with regs := regs, mainStack := stack } else none
  | .taskRuns regs => if s.onCpu = none then none else some { s with regs := regs }
  | .spawn t isFork user =>
    if (s.tasks t).phase = .free then
      some (s.setTask t { s.tasks t with phase := .ready, kctx := none, isFork := isFork,
                                         user := user })
    else none
  | .dispatch t =>
    if s.onCpu = none ∧ (s.tasks t).phase = .ready then
      match (s.tasks t).kctx with
      | some k => some (s.resume t k)
      | none => some (s.start t)
    else none
  | .block => s.onCpu.map s.block
  | .wake t =>
    if (s.tasks t).phase = .blocked then
      some (s.setTask t { s.tasks t with phase := .ready })
    else none
  | .exit => s.onCpu.map s.exit
  | .kill t =>
    if (s.tasks t).phase = .ready ∨ (s.tasks t).phase = .blocked then
      some (s.setTask t { s.tasks t with phase := .zombie })
    else none
  | .reap t =>
    if (s.tasks t).phase = .zombie then some (s.setTask t { s.tasks t with phase := .free })
    else none

def Kctx.zero : Kctx := ⟨0, 0, 0, 0, 0, 0, 0⟩

/-- The state at the top of the main loop, with the registers and the stack the boot code left. -/
def boot (regs : Kctx) (stack : Word → Option CallSite) : LoopSys where
  regs := regs
  mainStack := stack
  userRet := .zero
  gSched := .zero
  tasks _ := ⟨.free, none, .zero, false, .zero, .zero⟩
  onCpu := none
  handed := none
  back := none

/-! ## What is to hold, and what the contexts hold -/

/-- **The main loop goes on where it was**: when it last got the CPU back, it had the registers of
its latest hand-over and stood right after that call. -/
def GoesOn (s : LoopSys) : Prop :=
  s.onCpu = none → s.back = s.handed.map fun h => (h.1, some h.2)

instance (s : LoopSys) : Decidable (GoesOn s) :=
  inferInstanceAs (Decidable (s.onCpu = none → _))

/-- The hand-over to the task on the CPU, as the two contexts remember it. -/
structure HandedTo (s : LoopSys) (t : ℕ) (r : Kctx) (site : CallSite) : Prop where
  handed : s.handed = some (r, site)
  gSched : s.gSched = r.call
  returnAddress : s.mainStack (r.rsp - 8) = some site
  userRet : s.userRet = (s.tasks t).startedWith.call
  /-- A task that has not blocked since it was started was handed the CPU by its start. -/
  fresh : (s.tasks t).kctx = none → (s.tasks t).startedWith = r

structure LoopInv (s : LoopSys) : Prop where
  goesOn : GoesOn s
  running : ∀ t, s.onCpu = some t → (s.tasks t).phase = .running
  handedTo : ∀ t, s.onCpu = some t → ∃ r site, HandedTo s t r site
  exitCtx : ∀ t k, (s.tasks t).kctx = some k → (s.tasks t).exitCtx = (s.tasks t).startedWith.call

theorem loopInv_boot (regs : Kctx) (stack : Word → Option CallSite) :
    LoopInv (boot regs stack) where
  goesOn _ := rfl
  running _ h := nomatch h
  handedTo _ h := nomatch h
  exitCtx _ _ h := nomatch h

/-- The condition of a step: a task exits only if the main loop, when it last handed the CPU over,
had the registers with which it once started that task. -/
def StartedHere (s : LoopSys) : Event → Prop
  | .exit => ∀ t ∈ s.onCpu, s.handed.map Prod.fst = some (s.tasks t).startedWith
  | _ => True

instance (s : LoopSys) (e : Event) : Decidable (StartedHere s e) :=
  match e with
  | .exit => inferInstanceAs (Decidable (∀ t ∈ s.onCpu, _))
  | .mainRuns .. | .taskRuns .. | .spawn .. | .dispatch .. | .block | .wake .. | .kill ..
  | .reap .. => inferInstanceAs (Decidable True)

/-! ## One step -/

theorem LoopInv.setTask (h : LoopInv s) {x : Task} (ht : (s.tasks t).phase ≠ .running)
    (hx : ∀ k, x.kctx = some k → x.exitCtx = x.startedWith.call) : LoopInv (s.setTask t x) := by
  have hoff : ∀ {u}, s.onCpu = some u → (s.setTask t x).tasks u = s.tasks u := by
    intro u hu
    refine update_of_ne ?_ _ _
    rintro rfl
    exact ht (h.running _ hu)
  refine ⟨h.goesOn, fun u hu => ?_, fun u hu => ?_, fun u k hk => ?_⟩
  · rw [hoff hu]
    exact h.running u hu
  · obtain ⟨r, site, hr⟩ := h.handedTo u hu
    exact ⟨r, site, hr.handed, hr.gSched, hr.returnAddress, by rw [hoff hu]; exact hr.userRet,
      by rw [hoff hu]; exact hr.fresh⟩
  · by_cases hut : u = t
    · subst hut
      simp only [LoopSys.setTask, update_self] at hk ⊢
      exact hx k hk
    · simp only [LoopSys.setTask, update_of_ne hut] at hk ⊢
      exact h.exitCtx u k hk

theorem pushed_returnAddress (s : LoopSys) (site : CallSite) {n : ℕ} (hn : n ≤ 9) :
    ((s.handOver site).saveSchedRet.pushed n).mainStack (s.regs.rsp - 8) = some site := by
  have hnot : s.regs.rsp - 8 ∉ (List.range n).map
      (fun i => s.regs.call.rsp - 8 * (BitVec.ofNat 64 i + 1)) := by
    rintro hmem
    obtain ⟨i, hi, heq⟩ := List.mem_map.mp hmem
    have hlt : i < 9 := (List.mem_range.mp hi).trans_le hn
    have hne : 8 * (BitVec.ofNat 64 i + 1) ≠ 0 := by
      interval_cases i <;> decide
    simp only [Kctx.call] at heq
    exact hne (by bv_omega)
  exact (if_neg hnot).trans (update_self _ _ _)

theorem handedTo_start (s : LoopSys) (t : ℕ) :
    ∃ site, HandedTo (s.start t) t s.regs site := by
  simp only [LoopSys.start]
  split_ifs
  · refine ⟨.forkResume, rfl, rfl, pushed_returnAddress _ _ le_rfl, ?_, fun _ => ?_⟩ <;>
      simp only [LoopSys.setTask, LoopSys.handOver, LoopSys.saveSchedRet, LoopSys.pushed,
        update_self]
  · refine ⟨.schedEnterUser, rfl, rfl, pushed_returnAddress _ _ (by decide), ?_, fun _ => ?_⟩ <;>
      simp only [LoopSys.setTask, LoopSys.handOver, LoopSys.saveSchedRet, LoopSys.pushed,
        update_self]

theorem start_tasks (s : LoopSys) (t : ℕ) :
    (s.start t).onCpu = some t ∧
    (s.start t).tasks =
      update s.tasks t { s.tasks t with phase := .running, startedWith := s.regs } := by
  simp only [LoopSys.start]
  split_ifs <;> exact ⟨rfl, rfl⟩

theorem LoopInv.start (h : LoopInv s) (hk : (s.tasks t).kctx = none) : LoopInv (s.start t) := by
  obtain ⟨hcpu, htasks⟩ := start_tasks s t
  refine ⟨fun hnone => ?_, fun u hu => ?_, fun u hu => ?_, fun u k huk => ?_⟩
  · exact absurd (hcpu.symm.trans hnone) (Option.some_ne_none t)
  · cases Option.some.inj (hcpu.symm.trans hu)
    rw [htasks, update_self]
  · cases Option.some.inj (hcpu.symm.trans hu)
    exact ⟨s.regs, handedTo_start s t⟩
  · rw [htasks] at huk ⊢
    by_cases hut : u = t
    · subst hut
      rw [update_self, hk] at huk
      exact nomatch huk
    · rw [update_of_ne hut] at huk ⊢
      exact h.exitCtx u k huk

theorem LoopInv.resume (h : LoopInv s) {k : Kctx}
    (hk : (s.tasks t).kctx = some k) : LoopInv (s.resume t k) := by
  have hself : (s.resume t k).tasks t = { s.tasks t with phase := .running } :=
    update_self t _ _
  refine ⟨nofun, fun u hu => ?_, fun u hu => ?_, fun u l hul => ?_⟩
  · cases Option.some.inj hu
    rw [hself]
  · cases Option.some.inj hu
    refine ⟨s.regs, .switchContext, rfl, rfl, update_self _ _ _, ?_, fun hnone => ?_⟩
    · rw [hself]
      exact h.exitCtx t k hk
    · rw [hself, hk] at hnone
      exact nomatch hnone
  · by_cases hut : u = t
    · subst hut
      rw [hself] at hul ⊢
      exact h.exitCtx u l hul
    · have hother : (s.resume t k).tasks u = s.tasks u := update_of_ne hut _ _
      rw [hother] at hul ⊢
      exact h.exitCtx u l hul

theorem LoopInv.comeBack {x : Task} {r : Kctx} {site : CallSite}
    (h : LoopInv s) (hto : HandedTo s t r site)
    (hx : ∀ k, x.kctx = some k → x.exitCtx = x.startedWith.call) :
    LoopInv ((s.setTask t x).comeBack r.call) := by
  refine ⟨fun _ => ?_, nofun, nofun, fun u k hk => ?_⟩
  · simp only [LoopSys.comeBack, LoopSys.setTask, hto.handed, Option.map_some, Kctx.ret_call]
    exact congrArg (fun a => some (r, a)) hto.returnAddress
  · simp only [LoopSys.comeBack, LoopSys.setTask] at hk ⊢
    by_cases hut : u = t
    · subst hut
      rw [update_self] at hk ⊢
      exact hx k hk
    · rw [update_of_ne hut] at hk ⊢
      exact h.exitCtx u k hk

theorem LoopInv.block (h : LoopInv s) (ht : s.onCpu = some t) : LoopInv (s.block t) := by
  obtain ⟨r, site, hto⟩ := h.handedTo t ht
  simp only [LoopSys.block]
  rw [hto.gSched]
  exact h.comeBack hto fun _ _ => hto.userRet

theorem HandedTo.startedHere_iff {r : Kctx} {site : CallSite}
    (hto : HandedTo s t r site) (ht : s.onCpu = some t) :
    StartedHere s .exit ↔ (s.tasks t).startedWith = r := by
  simp only [StartedHere, ht, hto.handed, Option.mem_some_iff, forall_eq', Option.map_some,
    Option.some.injEq]
  exact eq_comm

theorem LoopInv.exit (h : LoopInv s) (ht : s.onCpu = some t)
    (hok : StartedHere s .exit) : LoopInv (s.exit t) := by
  obtain ⟨r, site, hto⟩ := h.handedTo t ht
  have hret : s.userRet = r.call := by rw [hto.userRet, (hto.startedHere_iff ht).mp hok]
  simp only [LoopSys.exit]
  rw [hret]
  exact h.comeBack hto (h.exitCtx t)

theorem not_goesOn_exit (h : LoopInv s) (ht : s.onCpu = some t)
    (hbad : ¬ StartedHere s .exit) : ¬ GoesOn (s.exit t) := by
  obtain ⟨r, site, hto⟩ := h.handedTo t ht
  intro hgoes
  have hback := hgoes rfl
  simp only [LoopSys.exit, LoopSys.comeBack, LoopSys.setTask, hto.userRet, hto.handed,
    Kctx.ret_call, Option.map_some, Option.some.injEq, Prod.mk.injEq] at hback
  exact hbad ((hto.startedHere_iff ht).mpr hback.1)

theorem LoopInv.step {s' : LoopSys} {e : Event} (h : LoopInv s) (hok : StartedHere s e)
    (hstep : step s e = some s') : LoopInv s' := by
  cases e with
  | mainRuns regs stack =>
    obtain ⟨hcpu, ⟨⟩⟩ := Option.ite_none_right_eq_some.mp hstep
    refine ⟨h.goesOn, h.running, fun t ht => ?_, h.exitCtx⟩
    exact absurd (hcpu.symm.trans ht).symm (Option.some_ne_none t)
  | taskRuns regs =>
    obtain ⟨-, ⟨⟩⟩ := Option.ite_none_left_eq_some.mp hstep
    refine ⟨h.goesOn, h.running, fun t ht => ?_, h.exitCtx⟩
    obtain ⟨r, site, hr⟩ := h.handedTo t ht
    exact ⟨r, site, hr.handed, hr.gSched, hr.returnAddress, hr.userRet, hr.fresh⟩
  | spawn t isFork user =>
    obtain ⟨hphase, ⟨⟩⟩ := Option.ite_none_right_eq_some.mp hstep
    exact h.setTask (by rw [hphase]; decide) nofun
  | dispatch t =>
    simp only [LoopContext.step] at hstep
    split_ifs at hstep with hready
    rcases hk : (s.tasks t).kctx with _ | k
    · simp only [hk] at hstep
      cases hstep
      exact h.start hk
    · simp only [hk] at hstep
      cases hstep
      exact h.resume hk
  | block =>
    obtain ⟨t, ht, rfl⟩ := Option.map_eq_some_iff.mp hstep
    exact h.block ht
  | wake t =>
    obtain ⟨hphase, ⟨⟩⟩ := Option.ite_none_right_eq_some.mp hstep
    exact h.setTask (by rw [hphase]; decide) (h.exitCtx t)
  | exit =>
    obtain ⟨t, ht, rfl⟩ := Option.map_eq_some_iff.mp hstep
    exact h.exit ht hok
  | kill t =>
    obtain ⟨hphase, ⟨⟩⟩ := Option.ite_none_right_eq_some.mp hstep
    refine h.setTask ?_ (h.exitCtx t)
    rcases hphase with hphase | hphase <;> rw [hphase] <;> decide
  | reap t =>
    obtain ⟨hphase, ⟨⟩⟩ := Option.ite_none_right_eq_some.mp hstep
    exact h.setTask (by rw [hphase]; decide) (h.exitCtx t)

theorem not_goesOn_step {s' : LoopSys} {e : Event} (h : LoopInv s) (hbad : ¬ StartedHere s e)
    (hstep : step s e = some s') : ¬ GoesOn s' := by
  cases e with
  | exit =>
    obtain ⟨t, ht, rfl⟩ := Option.map_eq_some_iff.mp hstep
    exact not_goesOn_exit h ht hbad
  | mainRuns | taskRuns | spawn | dispatch | block | wake | kill | reap =>
    exact absurd trivial hbad

/-! ## Whole runs -/

/-- **The main loop goes on where it was throughout a run exactly if** every task that exits was
started with the registers which the main loop had at its latest hand-over. -/
theorem goes_on_iff {regs : Kctx} {stack : Word → Option CallSite} {events : List Event}
    {s : LoopSys} (hrun : Run step (fun _ _ => True) (boot regs stack) events s) :
    Run step (fun s e => ∀ m, step s e = some m → GoesOn m) (boot regs stack) events s ↔
      Run step StartedHere (boot regs stack) events s :=
  Run.safe_iff (fun _ h => h.goesOn) (fun _ _ _ h hok hstep => h.step hok hstep)
    (fun _ _ _ h hbad hstep => not_goesOn_step h hbad hstep) hrun (loopInv_boot regs stack)

def loopRegs (counter : Word) : Kctx := ⟨0x9000, counter, 0, 0, 0, 0, 0⟩

/-- Two tasks start, the first one blocks and is resumed with the registers it was started with, and
then exits; the other one exits at once. -/
def steadyLoop : List Event :=
  [.spawn 1 false (loopRegs 0), .dispatch 1, .taskRuns (loopRegs 7), .spawn 2 true (loopRegs 5),
    .block, .mainRuns (loopRegs 2) fun _ => none, .dispatch 2, .exit, .wake 1,
    .mainRuns (loopRegs 1) fun _ => none, .dispatch 1, .exit]

theorem goes_on_steadyLoop :
    ∃ s, Run step (fun s e => ∀ m, step s e = some m → GoesOn m) (boot (loopRegs 1) fun _ => none)
      steadyLoop s ∧ (s.tasks 1).phase = .zombie := by
  obtain ⟨s, hrun, hz⟩ : ∃ s, Run step StartedHere (boot (loopRegs 1) fun _ => none) steadyLoop s ∧
      (s.tasks 1).phase = .zombie := exists_run (by decide +kernel)
  have hany : Run step (fun _ _ => True) (boot (loopRegs 1) fun _ => none) steadyLoop s :=
    hrun.mono fun _ _ _ => trivial
  exact ⟨s, (goes_on_iff hany).mpr hrun, hz⟩

/-- The main loop counts in `rbx` between the first start of a task and its resumption. -/
def countingLoop : List Event :=
  [.spawn 1 false (loopRegs 0), .dispatch 1, .block, .mainRuns (loopRegs 2) fun _ => none, .wake 1,
    .dispatch 1, .exit]

/-- **The exit takes the counter back** to its value at the first start. -/
theorem exit_rolls_back :
    ∃ s, Run step (fun _ _ => True) (boot (loopRegs 1) fun _ => none) countingLoop s ∧
      s.handed = some (loopRegs 2, .switchContext) ∧ s.regs = loopRegs 1 ∧ ¬ GoesOn s :=
  exists_run (by decide +kernel)

end BananaOS.Sched.LoopContext
