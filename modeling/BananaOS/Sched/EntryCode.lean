import BananaOS.Sched.SyscallEntry

/-!
# The code of the two ways into Ring 3

`Sched.SyscallEntry` says what a system call keeps of the user registers: nine words on the kernel
stack, the callee-saved registers where they are, RSP in a global.  This file has the instructions
that do it.  `entryCode` and `returnCode` are the first and the last part of `syscall_entry`, with
the calls of C functions between them, and `forkResumeCode` is `fork_resume`, which builds the same
frame from a `user_regs_t` and pops it again.
-/

namespace BananaOS.Sched

open Function

/-! ## The machine -/

inductive Reg where
  | rax | rcx | rdx | rbx | rsp | rbp | rsi | rdi | r8 | r9 | r10 | r11 | r12 | r13 | r14 | r15
  deriving DecidableEq

/-- The callee-saved registers of the C calling convention, besides RSP. -/
def Reg.calleeSaved : Reg → Bool
  | .rbx | .rbp | .r12 | .r13 | .r14 | .r15 => true
  | _ => false

/-- `user_regs_t` as the array of its words. -/
def UserRegs.word (r : UserRegs) : ℕ → Word
  | 0 => r.rax
  | 8 => r.rdi
  | 16 => r.rsi
  | 24 => r.rdx
  | 32 => r.r10
  | 40 => r.r8
  | 48 => r.r9
  | 56 => r.rflags
  | 64 => r.rip
  | 72 => r.rbx
  | 80 => r.rbp
  | 88 => r.r12
  | 96 => r.r13
  | 104 => r.r14
  | 112 => r.r15
  | 120 => r.rsp
  | _ => 0

structure Cpu where
  reg : Reg → Word
  /-- The words on the kernel stack, the last one pushed first. -/
  stack : List Word
  /-- `syscall_user_rsp`. -/
  userRsp : Word
  /-- `syscall_user_ctx`, by byte offset. -/
  userCtx : ℕ → Word
  /-- The `user_regs_t` at an address. -/
  ctxAt : Word → UserRegs

def Cpu.set (c : Cpu) (r : Reg) (w : Word) : Cpu := { c with reg := update c.reg r w }

inductive Instr where
  | mov (src dst : Reg)
  /-- `movq off(%base), %dst`, with a `user_regs_t` at `base`. -/
  | load (off : ℕ) (base dst : Reg)
  | push (src : Reg)
  | pushLoad (off : ℕ) (base : Reg)
  | pushImm (w : Word)
  | pop (dst : Reg)
  /-- `movq off(%rsp), %dst`. -/
  | peek (off : ℕ) (dst : Reg)
  /-- `pushq off(%rsp)`. -/
  | pushPeek (off : ℕ)
  /-- `addq $8, %rsp`. -/
  | drop
  /-- `movq syscall_kernel_top, %rsp`. -/
  | kernelStack
  /-- `xorl %eax, %eax`. -/
  | clearEax
  | storeUserRsp (src : Reg)
  | loadUserRsp (dst : Reg)
  | storeUserCtx (off : ℕ) (src : Reg)
  /-- A call of C code, which leaves anything in the caller-saved registers and in
  `syscall_user_rsp`. -/
  | call (scratch : Reg → Word) (userRsp : Word)

/-- One instruction; `none` where it would read past the words this code has pushed. -/
def Instr.exec (c : Cpu) : Instr → Option Cpu
  | .mov src dst => some (c.set dst (c.reg src))
  | .load off base dst => some (c.set dst ((c.ctxAt (c.reg base)).word off))
  | .push src => some { c with stack := c.reg src :: c.stack }
  | .pushLoad off base => some { c with stack := (c.ctxAt (c.reg base)).word off :: c.stack }
  | .pushImm w => some { c with stack := w :: c.stack }
  | .pop dst =>
    match c.stack with
    | w :: rest => some ({ c with stack := rest }.set dst w)
    | [] => none
  | .peek off dst => c.stack[off / 8]?.map fun w => c.set dst w
  | .pushPeek off => c.stack[off / 8]?.map fun w => { c with stack := w :: c.stack }
  | .drop =>
    match c.stack with
    | _ :: rest => some { c with stack := rest }
    | [] => none
  | .kernelStack => some { c with stack := [] }
  | .clearEax => some (c.set .rax 0)
  | .storeUserRsp src => some { c with userRsp := c.reg src }
  | .loadUserRsp dst => some (c.set dst c.userRsp)
  | .storeUserCtx off src => some { c with userCtx := update c.userCtx off (c.reg src) }
  | .call scratch userRsp =>
    some { c with reg := fun r => if r.calleeSaved then c.reg r else scratch r, userRsp := userRsp }

def exec : List Instr → Cpu → Option Cpu
  | [], c => some c
  | i :: is, c => (i.exec c).bind (exec is)

/-! ## `syscall` and `sysretq` -/

/-- The registers as `syscall` leaves them: RIP in RCX and RFLAGS in R11. -/
def Reg.ofUser (r : UserRegs) : Reg → Word
  | .rax => r.rax
  | .rcx => r.rip
  | .rdx => r.rdx
  | .rbx => r.rbx
  | .rsp => r.rsp
  | .rbp => r.rbp
  | .rsi => r.rsi
  | .rdi => r.rdi
  | .r8 => r.r8
  | .r9 => r.r9
  | .r10 => r.r10
  | .r11 => r.rflags
  | .r12 => r.r12
  | .r13 => r.r13
  | .r14 => r.r14
  | .r15 => r.r15

/-- The registers a `sysretq` is about to return with: RIP from RCX, RFLAGS from R11. -/
def Cpu.user (c : Cpu) : UserRegs where
  rax := c.reg .rax
  rdi := c.reg .rdi
  rsi := c.reg .rsi
  rdx := c.reg .rdx
  r10 := c.reg .r10
  r8 := c.reg .r8
  r9 := c.reg .r9
  rflags := c.reg .r11
  rip := c.reg .rcx
  rbx := c.reg .rbx
  rbp := c.reg .rbp
  r12 := c.reg .r12
  r13 := c.reg .r13
  r14 := c.reg .r14
  r15 := c.reg .r15
  rsp := c.reg .rsp

def CanonicalRip (rip : Word) : Prop := rip.toNat < 2 ^ 47 ∨ 2 ^ 64 - 2 ^ 47 ≤ rip.toNat

instance (rip : Word) : Decidable (CanonicalRip rip) := inferInstanceAs (Decidable (_ ∨ _))

/-- What `sysretq` makes of R11: the bits of RFLAGS that it loads, and the one that is always set.
-/
def sysretFlags (r11 : Word) : Word := (r11 &&& 0x3C7FD7#64) ||| 2#64

/-- `sysretq`: a return address that is not canonical faults, in the kernel. -/
def sysretq (r : UserRegs) : Option UserRegs :=
  if CanonicalRip r.rip then some { r with rflags := sysretFlags r.rflags } else none

theorem sysretq_eq_self_iff (r : UserRegs) :
    sysretq r = some r ↔ CanonicalRip r.rip ∧ sysretFlags r.rflags = r.rflags := by
  simp only [sysretq]
  split_ifs with hrip
  · rw [Option.some.injEq]
    constructor
    · intro h
      exact ⟨hrip, congrArg UserRegs.rflags h⟩
    · rintro ⟨-, h⟩
      rw [h]
  · exact ⟨nofun, fun h => absurd h.1 hrip⟩

/-! ## `syscall_entry` -/

/-- From the first instruction to the call of `syscall_dispatch`. -/
def entryCode : List Instr :=
  [.storeUserRsp .rsp, .storeUserCtx 120 .rsp, .kernelStack,
    .storeUserCtx 0 .rax, .storeUserCtx 8 .rdi, .storeUserCtx 16 .rsi, .storeUserCtx 24 .rdx,
    .storeUserCtx 32 .r10, .storeUserCtx 40 .r8, .storeUserCtx 48 .r9, .storeUserCtx 56 .r11,
    .storeUserCtx 64 .rcx, .storeUserCtx 72 .rbx, .storeUserCtx 80 .rbp, .storeUserCtx 88 .r12,
    .storeUserCtx 96 .r13, .storeUserCtx 104 .r14, .storeUserCtx 112 .r15,
    .push .rcx, .push .r11, .push .r9, .push .r8, .push .r10, .push .rdx, .push .rsi, .push .rdi,
    .push .rax,
    .peek 0x00 .rdi, .peek 0x08 .rsi, .peek 0x10 .rdx, .peek 0x18 .rcx, .peek 0x20 .r8,
    .peek 0x28 .r9, .pushPeek 0x30]

/-- From the return of the handler to the tests of the request flags; `check` and `msrs` are what
the two C functions leave in the scratch registers. -/
def afterHandlerCode (userRsp : Word) (check msrs : Reg → Word) : List Instr :=
  [.storeUserCtx 0 .rax, .push .rax, .call check userRsp, .pop .rax,
    .push .rax, .call msrs userRsp, .pop .rax]

def returnCode : List Instr :=
  [.drop, .drop, .pop .rdi, .pop .rsi, .pop .rdx, .pop .r10, .pop .r8, .pop .r9, .pop .r11,
    .pop .rcx, .loadUserRsp .rsp]

/-- The CPU at the first instruction of `syscall_entry`. -/
def Cpu.entered (r : UserRegs) (stack : List Word) (userRsp : Word) (userCtx : ℕ → Word)
    (ctxAt : Word → UserRegs) : Cpu :=
  ⟨Reg.ofUser r, stack, userRsp, userCtx, ctxAt⟩

/-- The whole of a system call that takes the normal path: the handler returns `rax` and leaves
`userRsp` in the global. -/
def syscallCode (rax userRsp : Word) (handler check msrs : Reg → Word) : List Instr :=
  entryCode ++ .call (update handler .rax rax) userRsp ::
    (afterHandlerCode userRsp check msrs ++ returnCode)

theorem exec_syscallCode (k : Kernel) (r : UserRegs) (rax : Word) (handler check msrs : Reg → Word)
    (stack : List Word) (userRsp : Word) (userCtx : ℕ → Word) (ctxAt : Word → UserRegs) :
    (exec (syscallCode rax k.syscallUserRsp handler check msrs)
      (.entered r stack userRsp userCtx ctxAt)).map Cpu.user =
        some (k.sysretRegs (.ofUser r) rax) := by
  rfl

/-- **A system call gives every register back**, whatever the C functions leave in the scratch
registers, exactly if they leave the caller's stack pointer in `syscall_user_rsp` and `sysretq` can
load its RIP and RFLAGS. -/
theorem syscallCode_returns_iff (k : Kernel) (r : UserRegs) (rax : Word)
    (handler check msrs : Reg → Word) (stack : List Word) (userRsp : Word) (userCtx : ℕ → Word)
    (ctxAt : Word → UserRegs) :
    ((exec (syscallCode rax k.syscallUserRsp handler check msrs)
      (.entered r stack userRsp userCtx ctxAt)).map Cpu.user).bind sysretq =
        some { r with rax := rax } ↔
      k.syscallUserRsp = r.rsp ∧ CanonicalRip r.rip ∧ sysretFlags r.rflags = r.rflags := by
  rw [exec_syscallCode, Option.bind_some]
  have hregs : k.sysretRegs (.ofUser r) rax = { r with rax := rax, rsp := k.syscallUserRsp } := rfl
  have hself := sysretq_eq_self_iff { r with rax := rax }
  rw [hregs]
  constructor
  · intro h
    have hrsp : k.syscallUserRsp = r.rsp := by
      simp only [sysretq] at h
      split_ifs at h
      exact congrArg UserRegs.rsp (Option.some.inj h)
    rw [hrsp] at h
    exact ⟨hrsp, hself.mp h⟩
  · rintro ⟨hrsp, h⟩
    rw [hrsp]
    exact hself.mpr h

/-! ## `fork_resume` -/

/-- `fork_resume` behind `SAVE_SCHED_RET`, up to `sysretq`; RDI points to the `user_regs_t`. -/
def forkResumeCode : List Instr :=
  [.mov .rdi .r12, .load 64 .r12 .rcx, .load 56 .r12 .r11, .push .rcx, .push .r11,
    .pushLoad 48 .r12, .pushLoad 40 .r12, .pushLoad 32 .r12, .pushLoad 24 .r12, .pushLoad 16 .r12,
    .pushLoad 8 .r12, .pushImm 0,
    .load 120 .r12 .rax, .storeUserRsp .rax, .load 72 .r12 .rbx, .load 80 .r12 .rbp,
    .load 96 .r12 .r13, .load 104 .r12 .r14, .load 112 .r12 .r15, .load 88 .r12 .r12,
    .clearEax, .drop, .pop .rdi, .pop .rsi, .pop .rdx, .pop .r10, .pop .r8, .pop .r9, .pop .r11,
    .pop .rcx, .loadUserRsp .rsp]

theorem exec_forkResumeCode (c : Cpu) :
    (exec forkResumeCode c).map Cpu.user = some { c.ctxAt (c.reg .rdi) with rax := 0 } := by
  rfl

end BananaOS.Sched
