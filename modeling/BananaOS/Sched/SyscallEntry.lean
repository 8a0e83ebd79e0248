import Mathlib

/-!
# System calls under the cooperative scheduler

The model of `syscall_entry.S` with what it touches in `sched.c`, `signal.c`, `table.c` and the main
loop of `kmain.c`.
-/

namespace BananaOS.Sched

abbrev Word := BitVec 64

structure UserRegs where
  rax : Word
  rdi : Word
  rsi : Word
  rdx : Word
  r10 : Word
  r8 : Word
  r9 : Word
  rflags : Word
  rip : Word
  rbx : Word
  rbp : Word
  r12 : Word
  r13 : Word
  r14 : Word
  r15 : Word
  rsp : Word
  deriving DecidableEq

def UserRegs.zero : UserRegs := ⟨0, 0, 0, 0, 0, 0, 0, 0, 0, 0, 0, 0, 0, 0, 0, 0⟩

/-- The registers `syscall_entry` pushes on the kernel stack, and the callee-saved ones that every C
function on that stack gives back as it found them.  RSP is not among them. -/
structure Frame where
  rax : Word
  rdi : Word
  rsi : Word
  rdx : Word
  r10 : Word
  r8 : Word
  r9 : Word
  r11 : Word
  rcx : Word
  rbx : Word
  rbp : Word
  r12 : Word
  r13 : Word
  r14 : Word
  r15 : Word
  deriving DecidableEq

/-- The pushes of `syscall_entry`; the `syscall` instruction has put RIP in RCX and RFLAGS in R11.
-/
def Frame.ofUser (r : UserRegs) : Frame :=
  ⟨r.rax, r.rdi, r.rsi, r.rdx, r.r10, r.r8, r.r9, r.rflags, r.rip, r.rbx, r.rbp, r.r12, r.r13,
    r.r14, r.r15⟩

/-- The system calls, as far as they differ here: the ones that can block, the ones that request
another exit, and the rest. -/
inductive Syscall where
  | pipeRead | pipeWrite | ttyRead | wait4 | poll | futexWait | nanosleep | rtSigtimedwait
  | select | udpRecv
  | rtSigreturn | fork | execve | exit | kill
  | other
  deriving DecidableEq

inductive WaitKind where
  | none | child | kbd | pipeRd | pipeWr | futex | time | select | sigtimed | net
  deriving DecidableEq

def Syscall.waitKind : Syscall → Option WaitKind
  | .wait4 => some .child
  | .ttyRead => some .kbd
  | .select => some .kbd
  | .pipeRead => some .pipeRd
  | .pipeWrite => some .pipeWr
  | .futexWait => some .futex
  | .nanosleep => some .time
  | .poll => some .select
  | .rtSigtimedwait => some .sigtimed
  | .udpRecv => some .net
  | _ => Option.none

inductive TaskState where
  | ready | running | blocked | zombie | reaped
  deriving DecidableEq

structure Call where
  nr : Syscall
  frame : Frame
  /-- How often it has called `sched_block_and_switch`. -/
  blocks : ℕ
  /-- `saved_user_rsp` and `saved_user_ctx`, the locals of `sys_wait4`. -/
  savedUser : Option (Word × UserRegs)
  /-- The RSP the task had in Ring 3.  Nothing in the kernel keeps it; it is here to state the
  theorem. -/
  enteredRsp : Word
  deriving DecidableEq

structure Task where
  state : TaskState
  waitKind : WaitKind
  kctxValid : Bool
  isFork : Bool
  forkCtx : UserRegs
  entry : Word
  userRsp : Word
  /-- The system call on its kernel stack; none in Ring 3 and before the first run. -/
  call : Option Call

def Task.unused : Task := ⟨.reaped, .none, false, false, .zero, 0, 0, none⟩

structure SigFrame where
  rsp : Word
  signum : Word
  handler : Word
  regs : UserRegs
  deriving DecidableEq

structure Kernel where
  tasks : ℕ → Task
  currentTask : Option ℕ
  /-- Whose code the CPU runs; `none` is the main loop.  `current_task` is something else: it keeps
  naming a task that has blocked. -/
  onCpu : Option ℕ
  syscallUserRsp : Word
  syscallUserCtx : UserRegs
  exitRequest : Bool
  execRequest : Bool
  execEntry : Word
  execRsp : Word
  sigRequest : Bool
  sigRestoreRequest : Bool
  sigActive : Bool
  sigFrame : SigFrame

def Kernel.setTask (k : Kernel) (t : ℕ) (task : Task) : Kernel :=
  { k with tasks := Function.update k.tasks t task }

def Kernel.signalGlobalsReset (k : Kernel) : Kernel :=
  { k with
    sigRequest := false
    sigRestoreRequest := false
    sigActive := false
    sigFrame := ⟨0, 0, 0, .zero⟩ }

/-- `sched_mark_exited` and `sched_kill`, as far as the task table and the globals go. -/
def Kernel.markExited (k : Kernel) (t : ℕ) : Kernel :=
  (k.setTask t { k.tasks t with state := .zombie }).signalGlobalsReset

/-- `sched_spawn_process` into slot `t`. -/
def Kernel.spawnProcess (k : Kernel) (t : ℕ) (entry userRsp : Word) : Kernel :=
  k.signalGlobalsReset.setTask t ⟨.ready, .none, false, false, .zero, entry, userRsp, none⟩

/-! ## Entering, blocking, resuming -/

/-- `syscall_entry` up to the call of the handler: the two globals are overwritten, whoever else is
inside a system call. -/
def Kernel.syscallEntry (k : Kernel) (t : ℕ) (r : UserRegs) (nr : Syscall) : Kernel :=
  ({ k with syscallUserRsp := r.rsp, syscallUserCtx := r } : Kernel).setTask t
    { k.tasks t with call := some ⟨nr, .ofUser r, 0, none, r.rsp⟩ }

/-- `sys_wait4` copies the globals before its first block; no other handler does. -/
def Kernel.saveUser (k : Kernel) (c : Call) : Call :=
  if c.nr = .wait4 ∧ c.savedUser = none then
    { c with savedUser := some (k.syscallUserRsp, k.syscallUserCtx) }
  else c

/-- `sched_block_and_switch`, called by task `t` in call `c`. -/
def Kernel.blockAndSwitch (k : Kernel) (t : ℕ) (c : Call) (kind : WaitKind) : Kernel :=
  { (k.setTask t
      { k.tasks t with
        state := .blocked
        waitKind := kind
        kctxValid := true
        call := some { k.saveUser c with blocks := c.blocks + 1 } }) with
    onCpu := none }

/-- The main loop runs the ready task `t`: back into its system call, or into Ring 3 for the first
time, through `fork_resume` or `sched_enter_user`. -/
def Kernel.dispatch (k : Kernel) (t : ℕ) : Kernel :=
  let k' : Kernel :=
    { k.setTask t { k.tasks t with state := .running } with
      currentTask := some t
      onCpu := some t }
  if (k.tasks t).kctxValid then k'
  else if (k.tasks t).isFork then { k' with syscallUserRsp := (k.tasks t).forkCtx.rsp }
  else k'

/-! ## Leaving -/

inductive Outcome where
  | ret (rax : Word)
  | sigreturn (regs : UserRegs)
  | exec (entry rsp : Word)
  | exit
  | spawn (child : ℕ)
  deriving DecidableEq

def Syscall.allows : Syscall → Outcome → Bool
  | _, .ret _ => true
  | .rtSigreturn, .sigreturn _ => true
  | .execve, .exec _ _ => true
  | .exit, .exit => true
  | .fork, .spawn _ => true
  | _, _ => false

def Kernel.hasRoom (k : Kernel) : Outcome → Bool
  | .spawn child => decide ((k.tasks child).state = .reaped)
  | _ => true

/-- `sys_wait4` puts its copies back once it is through with blocking. -/
def Kernel.restoreUser (k : Kernel) (c : Call) : Kernel :=
  match c.savedUser with
  | some (rsp, ctx) => { k with syscallUserRsp := rsp, syscallUserCtx := ctx }
  | none => k

def Kernel.handlerEnd (k : Kernel) (t : ℕ) : Outcome → Word × Kernel
  | .ret rax => (rax, k)
  | .sigreturn regs =>
    (0, { k with
      syscallUserRsp := regs.rsp
      sigFrame := { k.sigFrame with rsp := k.syscallUserRsp - 8, regs := regs }
      sigRestoreRequest := true
      sigActive := false })
  | .exec entry rsp =>
    let k' := (k.setTask t { k.tasks t with entry := entry, userRsp := rsp }).signalGlobalsReset
    (0, { k' with execEntry := entry, execRsp := rsp, execRequest := true })
  | .exit => (0, { k.markExited t with exitRequest := true })
  | .spawn child =>
    let k' := k.spawnProcess child 0 0
    (BitVec.ofNat 64 child, k'.setTask child
      { k'.tasks child with isFork := true, forkCtx := { k.syscallUserCtx with rax := 0 } })

/-- `signal_check_deliver`: `sig` is the pending signal with a handler, if there is one whose frame
fits on the user stack.  While a handler runs, nothing is delivered. -/
def Kernel.signalCheckDeliver (k : Kernel) (sig : Option SigFrame) : Kernel :=
  match sig with
  | some f =>
    if k.sigActive then k
    else { k with sigRequest := true, sigActive := true, sigFrame := f }
  | none => k

/-- The five ways out of `syscall_entry`, with the registers the task continues with. -/
inductive Exit where
  | returnToKernel
  | jumpToUser (entry rsp : Word)
  | signalRestore (regs : UserRegs)
  | signalDeliver (regs : UserRegs)
  | sysret (regs : UserRegs)
  deriving DecidableEq

/-- The registers of the normal path: nine from the kernel stack, RSP from the global. -/
def Kernel.sysretRegs (k : Kernel) (f : Frame) (rax : Word) : UserRegs where
  rax := rax
  rdi := f.rdi
  rsi := f.rsi
  rdx := f.rdx
  r10 := f.r10
  r8 := f.r8
  r9 := f.r9
  rflags := f.r11
  rip := f.rcx
  rbx := f.rbx
  rbp := f.rbp
  r12 := f.r12
  r13 := f.r13
  r14 := f.r14
  r15 := f.r15
  rsp := k.syscallUserRsp

/-- Task `t` gives the CPU back for good: the main loop forgets a `current_task` that is dead. -/
def Kernel.toMainLoop (k : Kernel) (t : ℕ) : Kernel :=
  { k with
    onCpu := none
    currentTask := if (k.tasks t).state = .zombie then none else k.currentTask }

/-- The flag tests of `syscall_entry`, in their order; each exit clears its flag. -/
def Kernel.leave (k : Kernel) (t : ℕ) (f : Frame) (rax : Word) : Exit × Kernel :=
  if k.exitRequest then
    (.returnToKernel, ({ k with exitRequest := false } : Kernel).toMainLoop t)
  else if k.execRequest then (.jumpToUser k.execEntry k.execRsp, { k with execRequest := false })
  else if k.sigRestoreRequest then
    (.signalRestore k.sigFrame.regs, { k with sigRestoreRequest := false })
  else if k.sigRequest then
    (.signalDeliver { k.sigFrame.regs with
      rdi := k.sigFrame.signum, rip := k.sigFrame.handler, rsp := k.sigFrame.rsp },
      { k with sigRequest := false })
  else (.sysret (k.sysretRegs f rax), k)

/-- `syscall_entry` from the return of the handler on. -/
def Kernel.finish (k : Kernel) (t : ℕ) (c : Call) (o : Outcome) (sig : Option SigFrame) :
    Exit × Kernel :=
  let (rax, k1) := (k.restoreUser c).handlerEnd t o
  let k2 : Kernel := { k1 with syscallUserCtx := { k1.syscallUserCtx with rax := rax } }
  let (exit, k3) := (k2.signalCheckDeliver sig).leave t c.frame rax
  (exit, k3.setTask t { k3.tasks t with call := none })

/-! ## Events -/

/-- How `exc_kill_user` deals with a fault in Ring 3. -/
inductive FaultOutcome where
  /-- The signal is delivered. -/
  | deliver (f : SigFrame)
  /-- There is a handler, but its frame cannot be written to the user stack. -/
  | unwritable
  /-- The task is killed. -/
  | kill

inductive Event where
  /-- The task on the CPU executes `syscall`. -/
  | enter (r : UserRegs) (nr : Syscall)
  /-- Its handler calls `sched_block_and_switch`. -/
  | block
  /-- Its handler returns. -/
  | finish (o : Outcome) (sig : Option SigFrame)
  /-- It faults in Ring 3. -/
  | fault (o : FaultOutcome)
  /-- A blocked task becomes ready. -/
  | wake (t : ℕ)
  /-- The main loop picks a ready task. -/
  | dispatch (t : ℕ)
  /-- `kill_one_task` with a terminating default action, from `sys_kill` or from a timer. -/
  | kill (t : ℕ)
  /-- A zombie is collected. -/
  | reap (t : ℕ)
  /-- The main loop starts a program in a free slot. -/
  | launch (t : ℕ) (entry rsp : Word)

def Kernel.currentCall (k : Kernel) : Option (ℕ × Call) :=
  k.onCpu.bind fun t => (k.tasks t).call.map fun c => (t, c)

def Call.canBlock (c : Call) : Bool :=
  decide (c.nr = .nanosleep → c.blocks = 0)

/-- Whether `kill_one_task` can run: in the main loop, or inside `sys_kill`. -/
def Kernel.killing (k : Kernel) : Bool :=
  match k.onCpu, k.currentCall with
  | none, _ => true
  | some _, some (_, c) => decide (c.nr = .kill)
  | some _, none => false

/-- A fault of task `t` in Ring 3: `exc_kill_user` and the end of `.Luser` in `idt.S`. -/
def Kernel.fault (k : Kernel) (t : ℕ) : FaultOutcome → Kernel
  | .deliver f => { k with sigActive := true, sigFrame := f }
  | .unwritable =>
    -- nothing was armed: a request left over from before is taken, else the task is unwound
    if k.sigRequest then { k with sigRequest := false }
    else ({ k with exitRequest := false } : Kernel).toMainLoop t
  | .kill => ({ k.markExited t with exitRequest := false } : Kernel).toMainLoop t

def step (k : Kernel) : Event → Option Kernel
  | .enter r nr =>
    match k.onCpu with
    | some t => if (k.tasks t).call = none then some (k.syscallEntry t r nr) else none
    | none => none
  | .block =>
    match k.currentCall with
    | some (t, c) =>
      match c.nr.waitKind with
      | some kind => if c.canBlock then some (k.blockAndSwitch t c kind) else none
      | none => none
    | none => none
  | .finish o sig =>
    match k.currentCall with
    | some (t, c) =>
      if c.nr.allows o ∧ k.hasRoom o then some (k.finish t c o sig).2 else none
    | none => none
  | .fault o =>
    match k.onCpu with
    | some t => if (k.tasks t).call = none then some (k.fault t o) else none
    | none => none
  | .wake t =>
    if (k.tasks t).state = .blocked then some (k.setTask t { k.tasks t with state := .ready })
    else none
  | .dispatch t =>
    if k.onCpu = none ∧ (k.tasks t).state = .ready then some (k.dispatch t) else none
  | .kill t =>
    if k.killing ∧ (k.tasks t).state ≠ .zombie ∧ (k.tasks t).state ≠ .reaped then
      -- a task that kills itself asks for the exit path; so does a timer that hits `current_task`
      some (if k.currentTask = some t then { k.markExited t with exitRequest := true }
        else k.markExited t)
    else none
  | .reap t =>
    if (k.tasks t).state = .zombie then some (k.setTask t { k.tasks t with state := .reaped })
    else none
  | .launch t entry rsp =>
    if k.onCpu = none ∧ (k.tasks t).state = .reaped then some (k.spawnProcess t entry rsp)
    else none

def Kernel.boot : Kernel where
  tasks := fun _ => .unused
  currentTask := none
  onCpu := none
  syscallUserRsp := 0
  syscallUserCtx := .zero
  exitRequest := false
  execRequest := false
  execEntry := 0
  execRsp := 0
  sigRequest := false
  sigRestoreRequest := false
  sigActive := false
  sigFrame := ⟨0, 0, 0, .zero⟩

end BananaOS.Sched
