import BananaOS.Lib.RingQueue
import BananaOS.Sched.SyscallEntry

/-!
# The task table and the run queues

The model of `sched.c`, with `kill_one_task` of `signal.c`, which it calls when a timer expires, and
`vfs_fd_close_all`, which it calls when a task exits.
-/

namespace BananaOS.Proc

open Function RingQueue
open Sched (TaskState WaitKind Word)

/-! ## State -/

def maxTasks : ℕ := 64

def mlfqLevels : ℕ := 5

def timeSliceBase : ℤ := 10

def maxFds : ℕ := 256

structure Task where
  id : ℕ
  /-- `name != NULL`. -/
  named : Bool
  /-- `func != NULL`. -/
  hasFunc : Bool
  state : TaskState
  priority : ℕ
  timeSlice : ℤ
  ticksLeft : ℤ
  savedPriority : ℕ
  pid : ℕ
  isUser : Bool
  ppid : ℕ
  exitCode : ℤ
  kctxValid : Bool
  waitKind : WaitKind
  waitArg : Word
  waitDeadline : ℕ
  isFork : Bool
  altstackBase : Word
  altstackSize : Word
  altstackOnstack : Bool
  sigHandler : ℕ → Word
  sigFlags : ℕ → Word
  sigRestorer : ℕ → Word
  sigPending : Word
  sigBlocked : Word
  itimerDeadline : ℕ
  itimerInterval : ℕ

structure SigGlobals where
  request : Bool
  handler : Word
  frameRsp : Word
  framePtr : Word
  restoreRequest : Bool
  restoreRip : Word
  restoreRflags : Word
  active : Bool
  deriving DecidableEq

def SigGlobals.zero : SigGlobals := ⟨false, 0, 0, 0, false, 0, 0, false⟩

/-- The task table, the queues, and the globals the functions below write. -/
structure Sys where
  tasks : ℕ → Task
  mlfq : ℕ → Ring ℕ maxTasks
  taskCount : ℕ
  currentTask : Option ℕ
  sig : SigGlobals
  exitRequest : Bool
  /-- The owners of the nonempty slots of `fd_table`; the kernel is `-1`. -/
  fds : ℕ → Option ℤ

/-- `&task_table[0]`, from `sched_init` on. -/
def idleTask : ℕ := 0

def Sys.modifyTask (s : Sys) (t : ℕ) (f : Task → Task) : Sys :=
  { s with tasks := update s.tasks t (f (s.tasks t)) }

def Sys.setState (s : Sys) (t : ℕ) (st : TaskState) : Sys :=
  s.modifyTask t fun task => { task with state := st }

def Sys.mlfqEnqueue (s : Sys) (level t : ℕ) : Sys :=
  { s with mlfq := update s.mlfq level ((s.mlfq level).enqueue t) }

def Sys.mlfqRemove (s : Sys) (level t : ℕ) : Sys :=
  { s with mlfq := update s.mlfq level ((s.mlfq level).remove t).2 }

def Sys.mlfqRemoveAll (s : Sys) (t : ℕ) : Sys :=
  { s with mlfq := fun level =>
      if level < mlfqLevels then ((s.mlfq level).remove t).2 else s.mlfq level }

def Sys.signalGlobalsReset (s : Sys) : Sys := { s with sig := .zero }

def timeSliceForLevel (level : ℕ) : ℤ := ((mlfqLevels : ℤ) - level) * timeSliceBase

/-! ## `sched_init` -/

/-- What `sched_init` writes to every slot. -/
def Task.cleared (task : Task) : Task :=
  { task with
    id := 0, named := false, hasFunc := false, state := .zombie, priority := 0, timeSlice := 0
    ticksLeft := 0, savedPriority := 0, pid := 0, isUser := false, ppid := 0, exitCode := 0
    sigHandler := fun _ => 0, sigFlags := fun _ => 0, sigRestorer := fun _ => 0
    sigPending := 0, sigBlocked := 0 }

def Task.idle (task : Task) : Task :=
  { task with
    id := 0, named := true, hasFunc := false, state := .ready, priority := mlfqLevels - 1
    timeSlice := 100, ticksLeft := 100, savedPriority := mlfqLevels - 1, pid := 0, isUser := false }

theorem maxTasks_pos : 0 < maxTasks := by decide

def schedInit (s : Sys) : Sys :=
  { s with
    tasks := fun i =>
      if i = idleTask then (s.tasks i).cleared.idle
      else if i < maxTasks then (s.tasks i).cleared else s.tasks i
    mlfq := fun level =>
      if level < mlfqLevels then .empty (s.mlfq level).slots maxTasks_pos else s.mlfq level
    taskCount := 1
    currentTask := none }

/-! ## Picking a task -/

def Sys.run (s : Sys) (t : ℕ) : Sys :=
  { s.modifyTask t fun task =>
      { task with
        state := .running
        ticksLeft := if task.ticksLeft ≤ 0 then timeSliceForLevel task.priority
          else task.ticksLeft } with
    currentTask := some t }

/-- The loop of `sched_next` over the `n` levels from `level` on.  An entry that is not ready is
dropped, and the loop goes to the next level. -/
def nextScan : ℕ → ℕ → Sys → Option ℕ × Sys
  | 0, _, s => (none, s)
  | n + 1, level, s =>
    match (s.mlfq level).dequeue with
    | (some t, q) =>
      let s' : Sys := { s with mlfq := update s.mlfq level q }
      if (s'.tasks t).state = .ready then (some t, s'.run t) else nextScan n (level + 1) s'
    | (none, _) => nextScan n (level + 1) s

def schedNext (s : Sys) : Option ℕ × Sys :=
  match nextScan mlfqLevels 0 s with
  | (some t, s') => (some (s.tasks t).id, s')
  | (none, s') =>
    if (s'.tasks idleTask).state = .ready then
      (some (s'.tasks idleTask).id,
        { s'.setState idleTask .running with currentTask := some idleTask })
    else (none, s')

def schedTick (s : Sys) : Sys :=
  match s.currentTask with
  | none => s
  | some t =>
    if (s.tasks t).state = .running then
      let s₁ := s.modifyTask t fun task => { task with ticksLeft := task.ticksLeft - 1 }
      if (s₁.tasks t).ticksLeft ≤ 0 then
        let s₂ := s₁.modifyTask t fun task =>
          { task with
            priority := if task.priority < mlfqLevels - 1 then task.priority + 1 else task.priority
            state := .ready }
        { s₂.mlfqEnqueue (s₂.tasks t).priority t with currentTask := none }
      else s₁
    else s

def schedRequeue (s : Sys) (t : ℕ) : Sys :=
  if (s.tasks t).state = .running then
    let s' := (s.setState t .ready).mlfqEnqueue (s.tasks t).priority t
    if s.currentTask = some t then { s' with currentTask := none } else s'
  else s

/-! ## Blocking and waking -/

def schedBlock (s : Sys) (t : ℕ) : Sys :=
  if s.taskCount ≤ (s.tasks t).id then s
  else
    let s' := (s.setState t .blocked).mlfqRemove (s.tasks t).priority t
    if s.currentTask = some t then { s' with currentTask := none } else s'

/-- `sched_block_and_switch`, up to the switch to the main loop. -/
def schedBlockAndSwitch (s : Sys) (kind : WaitKind) (arg : Word) : Sys :=
  match s.currentTask with
  | none => s
  | some t =>
    (s.modifyTask t fun task =>
      { task with waitKind := kind, waitArg := arg, state := .blocked, kctxValid := true }).mlfqRemove
      (s.tasks t).priority t

def schedAfterSwitch (s : Sys) (t : ℕ) : Sys := s.setState t .running

def schedWake (s : Sys) (t : ℕ) : Sys :=
  if s.taskCount ≤ (s.tasks t).id then s
  else if (s.tasks t).state = .blocked then
    (s.modifyTask t fun task =>
      { task with
        state := .ready
        priority := task.savedPriority
        ticksLeft := timeSliceForLevel task.savedPriority }).mlfqEnqueue (s.tasks t).savedPriority t
  else s

/-- One round of the loops over the table that wake the blocked tasks with some property. -/
def wakeRound (p : Task → Bool) (s : Sys) (i : ℕ) : Sys :=
  if (s.tasks i).state = .blocked ∧ p (s.tasks i) then schedWake s i else s

def wakeWhere (p : Task → Bool) (s : Sys) : Sys := (List.range s.taskCount).foldl (wakeRound p) s

def schedWakeCond (kind : WaitKind) (arg : Word) : Sys → Sys :=
  wakeWhere fun t => decide (t.waitKind = kind ∧ t.waitArg = arg)

def schedWakeKbdAll : Sys → Sys := wakeWhere fun t => decide (t.waitKind = .kbd)

def schedWakeSelectAll : Sys → Sys := wakeWhere fun t => decide (t.waitKind = .select)

def schedPollSignals : Sys → Sys :=
  wakeWhere fun t => decide (t.waitKind ≠ .none ∧ t.sigPending &&& ~~~t.sigBlocked ≠ 0)

def schedWakeWaitingParent (child : ℕ) (s : Sys) : Sys :=
  wakeWhere (fun p => decide (p.waitKind = .child ∧ p.pid = (s.tasks child).ppid ∧
    (p.waitArg.toInt = -1 ∨ ((s.tasks child).pid : ℤ) = p.waitArg.toInt))) s

/-! ## Ends -/

/-- `vfs_fd_close_all`; closing slot `i` wakes the tasks whose wait `wk i` covers. -/
def vfsFdCloseAll (wk : ℕ → WaitKind → Word → Bool) (pid : ℤ) (s : Sys) : Sys :=
  if pid ≤ 0 then s
  else
    (List.range maxFds).foldl
      (fun s i =>
        if s.fds i = some pid then
          { wakeWhere (fun t => wk i t.waitKind t.waitArg) s with
            fds := update s.fds i none }
        else s) s

/-- `sched_kill`: no file is closed and nobody is woken. -/
def schedKill (s : Sys) (id : ℕ) : Sys :=
  if s.taskCount ≤ id then s
  else if (s.tasks id).state = .zombie then s
  else
    let s₁ := (s.modifyTask id fun task =>
      { task with itimerDeadline := 0, itimerInterval := 0 }).signalGlobalsReset
    let s₂ := (s₁.mlfqRemove (s.tasks id).priority id).setState id .zombie
    if s.currentTask = some id then { s₂ with currentTask := none } else s₂

def schedMarkExited (wk : ℕ → WaitKind → Word → Bool) (s : Sys) (t : ℕ) (code : ℤ) : Sys :=
  let s₁ := (s.modifyTask t fun task =>
    { task with exitCode := code, itimerDeadline := 0, itimerInterval := 0 }).signalGlobalsReset
  vfsFdCloseAll wk (s.tasks t).pid ((s₁.mlfqRemoveAll t).setState t .zombie)

/-- `sched_force_reap`: the first zombie with this pid. -/
def schedForceReap (s : Sys) (pid : ℕ) : Sys :=
  if pid = 0 then s
  else
    match (List.range s.taskCount).find? fun i =>
      decide ((s.tasks i).pid = pid ∧ (s.tasks i).state = .zombie) with
    | some i => s.setState i .reaped
    | none => s

/-! ## Starts -/

def schedAdd (s : Sys) (task : Task) : Sys :=
  if maxTasks ≤ s.taskCount then s
  else
    let t := s.taskCount
    let s' := s.modifyTask t fun _ =>
      { task with
        id := t, state := .ready, priority := 2, timeSlice := timeSliceForLevel 2
        ticksLeft := timeSliceForLevel 2, savedPriority := 2
        sigHandler := fun _ => 0, sigFlags := fun _ => 0, sigRestorer := fun _ => 0
        sigPending := 0, sigBlocked := 0 }
    ({ s' with taskCount := s.taskCount + 1 } : Sys).mlfqEnqueue 2 t

/-- What `sched_spawn_process` writes to its slot before it asks for a kernel stack. -/
def Task.spawned (task : Task) (slot : ℕ) : Task :=
  { task with
    id := slot, named := true, hasFunc := false, state := .ready, priority := 2
    timeSlice := timeSliceBase * 3, ticksLeft := timeSliceBase * 3, savedPriority := 2
    pid := slot, isUser := true, ppid := 0, exitCode := 0
    waitKind := .none, waitArg := 0, isFork := false, kctxValid := false
    altstackBase := 0, altstackSize := 0, altstackOnstack := false
    itimerDeadline := 0, itimerInterval := 0, waitDeadline := 0
    sigHandler := fun _ => 0, sigFlags := fun _ => 0, sigRestorer := fun _ => 0
    sigPending := 0, sigBlocked := 0 }

def Sys.reusable (s : Sys) : Option ℕ :=
  (List.range s.taskCount).find? fun i => decide ((s.tasks i).state = .reaped)

def Sys.currentPid (s : Sys) : ℤ :=
  match s.currentTask with
  | some t => if 0 < (s.tasks t).pid then (s.tasks t).pid else -1
  | none => -1

def Sys.wireStd (s : Sys) : Sys :=
  { s with fds := fun i => if i < 3 ∧ s.fds i = none then some s.currentPid else s.fds i }

/-- The part of `sched_spawn_process` on the slot it has chosen.  Without a kernel stack it gives up
after the slot has been written. -/
def spawnInto (s : Sys) (t : ℕ) (kstack : Bool) : Option ℕ × Sys :=
  let s₁ := (s.modifyTask t fun task => task.spawned t).signalGlobalsReset
  if kstack then (some t, s₁.mlfqEnqueue 2 t) else (none, s₁)

def schedSpawnProcess (s : Sys) (kstack : Bool) : Option ℕ × Sys :=
  match s.reusable with
  | some t =>
    match spawnInto s t kstack with
    | (some t, s') => (some t, s'.wireStd)
    | (none, s') => (none, s')
  | none =>
    if maxTasks ≤ s.taskCount then (none, s)
    else
      match spawnInto s s.taskCount kstack with
      | (some t, s') => (some t, ({ s' with taskCount := s'.taskCount + 1 } : Sys).wireStd)
      | (none, s') => (none, s')

/-! ## Signals that terminate -/

def sigKill : ℕ := 9

def sigStop : ℕ := 19

def sigChld : ℕ := 17

def sigIgnVal : Word := 1

def sigBit (sig : ℕ) : Word := 1#64 <<< sig

/-- The end of a task by a signal: through the exit path if it is `current_task`, else `sched_kill`. -/
def terminateBy (wk : ℕ → WaitKind → Word → Bool) (s : Sys) (t sig : ℕ) : Sys :=
  if s.currentTask = some t then { schedMarkExited wk s t sig with exitRequest := true }
  else schedKill s (s.tasks t).id

def killOneTask (wk : ℕ → WaitKind → Word → Bool) (s : Sys) (t sig : ℕ) : Sys :=
  if sig = 0 ∨ 64 ≤ sig then s
  else if sig = sigKill then terminateBy wk s t sig
  else if sig = sigStop then s
  else
    let task := s.tasks t
    if sigIgnVal < task.sigHandler sig ∧ task.sigBlocked &&& sigBit sig = 0 then
      let s' := s.modifyTask t fun task => { task with sigPending := task.sigPending ||| sigBit sig }
      if task.state = .blocked ∧ task.isUser = false then schedWake s' t else s'
    else if task.sigHandler sig = sigIgnVal then s
    else if sig = sigChld then s
    else if sig = 18 ∨ sig = 19 ∨ sig = 20 ∨ sig = 21 ∨ sig = 22 then s
    else terminateBy wk s t sig

/-! ## Polling -/

def Task.rearmed (x : Task) : Task :=
  { x with
    itimerDeadline :=
      if x.itimerInterval ≠ 0 then (x.itimerDeadline + x.itimerInterval) % 2 ^ 64 else 0 }

/-- `ITIMER_REAL` of the task has expired. -/
def Task.expired (x : Task) (now : ℕ) : Prop := x.itimerDeadline ≠ 0 ∧ x.itimerDeadline ≤ now

instance (x : Task) (now : ℕ) : Decidable (x.expired now) := inferInstanceAs (Decidable (_ ∧ _))

def timerRound (wk : ℕ → WaitKind → Word → Bool) (now : ℕ) (s : Sys) (i : ℕ) : Sys :=
  if (s.tasks i).expired now then killOneTask wk (s.modifyTask i Task.rearmed) i 14 else s

def deadlineRound (now : ℕ) (s : Sys) (i : ℕ) : Sys :=
  let t := s.tasks i
  if t.state = .blocked then
    if t.waitKind = .time ∨ t.waitKind = .sigtimed ∨ t.waitKind = .select then
      if t.waitArg.toNat ≤ now then schedWake s i else s
    else if t.waitKind = .futex then
      if t.waitDeadline ≠ 0 ∧ t.waitDeadline ≤ now then schedWake s i else s
    else s
  else s

/-- One round of `sched_poll_timeouts`. -/
def pollTimeout (wk : ℕ → WaitKind → Word → Bool) (now : ℕ) (s : Sys) (i : ℕ) : Sys :=
  if (s.tasks i).state = .zombie ∨ (s.tasks i).state = .reaped then
    s.modifyTask i fun task => { task with itimerDeadline := 0 }
  else deadlineRound now (timerRound wk now s i) i

def schedPollTimeouts (wk : ℕ → WaitKind → Word → Bool) (now : ℕ) (s : Sys) : Sys :=
  (List.range s.taskCount).foldl (pollTimeout wk now) s

end BananaOS.Proc
