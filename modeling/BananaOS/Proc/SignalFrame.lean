import BananaOS.Lib.ByteMemory
import BananaOS.Proc.LoopInvariant

/-!
# Signal handlers and the registers they interrupt

When a signal is delivered the registers of the task go into a frame of 18 words in its memory; the
handler starts with the stack pointer at the frame, returns into the restorer, and `rt_sigreturn`
loads them again.  This file adds to the model of `signal.c` what such a round trip is about: the
memory of the task, the global snapshot `syscall_user_ctx` that the frame is filled from, and the
registers with which `syscall_entry.S` and `idt.S` leave the kernel.
-/

namespace BananaOS.Proc

open ByteMemory
open Sched (TaskState WaitKind Word UserRegs Frame)

/-! ## Frames -/

def regWords (r : UserRegs) : List Word :=
  [r.rax, r.rdi, r.rsi, r.rdx, r.r10, r.r8, r.r9, r.rflags, r.rip, r.rbx, r.rbp, r.r12, r.r13, r.r14,
    r.r15, r.rsp]

def sigframe (restorer : Word) (sig : ℕ) (r : UserRegs) : List Word :=
  restorer :: BitVec.ofNat 64 sig :: regWords r

def frameSlot (m : Mem) (fr : Word) (k : ℕ) : Word := word m (fr + BitVec.ofNat 64 (8 * k))

def loadRegs (m : Mem) (fr : Word) : UserRegs :=
  { rax := frameSlot m fr 2, rdi := frameSlot m fr 3, rsi := frameSlot m fr 4
    rdx := frameSlot m fr 5, r10 := frameSlot m fr 6, r8 := frameSlot m fr 7
    r9 := frameSlot m fr 8, rflags := frameSlot m fr 9, rip := frameSlot m fr 10
    rbx := frameSlot m fr 11, rbp := frameSlot m fr 12, r12 := frameSlot m fr 13
    r13 := frameSlot m fr 14, r14 := frameSlot m fr 15, r15 := frameSlot m fr 16
    rsp := frameSlot m fr 17 }

/-! ## Delivery -/

structure SigMachine where
  sys : Sys
  /-- `syscall_user_ctx`. -/
  ctx : UserRegs
  /-- `syscall_user_rsp`. -/
  userRsp : Word
  mem : Mem

/-- `signal_setup_delivery`; `writable` is whether the frame can be stored. -/
def SigMachine.setup (k : SigMachine) (t sig : ℕ) (regs : UserRegs) (userSp : Word)
    (writable : Bool) : SigMachine :=
  { k with
    sys := signalSetupDelivery k.sys t sig userSp writable
    mem := if writable then store k.mem ((k.sys.tasks t).frameAddr sig userSp)
        (sigframe ((k.sys.tasks t).restorerFor sig) sig regs)
      else k.mem }

/-- The task and the signal that `signal_check_deliver` finds. -/
def deliverable (s : Sys) : Option (ℕ × ℕ) :=
  match s.currentTask with
  | none => none
  | some t =>
    if s.sig.active then none
    else
      let mask := (s.tasks t).sigPending &&& ~~~(s.tasks t).sigBlocked
      if mask = 0 then none
      else if lowestSig mask = 0 then none
      else if (s.tasks t).sigHandler (lowestSig mask) ≤ sigIgnVal then none
      else some (t, lowestSig mask)

def SigMachine.checkDeliver (k : SigMachine) (writable : Bool) : SigMachine :=
  match deliverable k.sys with
  | none => k
  | some (t, sig) => k.setup t sig k.ctx k.userRsp writable

inductive Leave where
  | unwound
  /-- To the program, with these registers. -/
  | resumed (r : UserRegs)
  /-- To a handler, with these registers. -/
  | handler (r : UserRegs)

/-- The registers of a plain return from a system call: those that were pushed, the result, and RSP
from the global. -/
def plainRegs (own : Frame) (rax rsp : Word) : UserRegs :=
  ⟨rax, own.rdi, own.rsi, own.rdx, own.r10, own.r8, own.r9, own.r11, own.rcx, own.rbx, own.rbp,
    own.r12, own.r13, own.r14, own.r15, rsp⟩

def handlerRegs (m : Mem) (frameRsp handler : Word) : UserRegs :=
  { loadRegs m frameRsp with
    rdi := frameSlot m frameRsp 1, rip := handler, rsp := frameRsp }

/-- `syscall_entry` from the return of `syscall_dispatch` on; `own` is what it has pushed. -/
def SigMachine.leave (k : SigMachine) (own : Frame) (rax : Word) (writable : Bool) :
    Leave × SigMachine :=
  let k₁ := SigMachine.checkDeliver { k with ctx := { k.ctx with rax := rax } } writable
  let s := k₁.sys
  if s.exitRequest then (.unwound, { k₁ with sys := { s with exitRequest := false } })
  else if s.sig.restoreRequest then
    (.resumed (loadRegs k₁.mem s.sig.framePtr),
      { k₁ with sys := { s with sig := { s.sig with restoreRequest := false } } })
  else if s.sig.request then
    (.handler (handlerRegs k₁.mem s.sig.frameRsp s.sig.handler),
      { k₁ with sys := { s with sig := { s.sig with request := false } } })
  else (.resumed (plainRegs own rax k₁.userRsp), k₁)

/-- `sys_rt_sigreturn`, when the frame can be read. -/
def SigMachine.sigreturn (k : SigMachine) : SigMachine :=
  let fr := k.userRsp - 8
  { k with
    sys := (sysRtSigreturn k.sys k.userRsp (some ⟨frameSlot k.mem fr 1, loadRegs k.mem fr⟩)).2
    userRsp := (loadRegs k.mem fr).rsp }

/-- An exception of task `t` at registers `r`, mapped to `sig`; `scratch` is what the C code leaves in
the registers it need not keep.  Only RIP, RSP and RFLAGS are set for the handler, and RAX is used to
do it. -/
def SigMachine.fault (wk : ℕ → WaitKind → Word → Bool) (k : SigMachine) (t sig : ℕ)
    (r scratch : UserRegs) (writable : Bool) : Leave × SigMachine :=
  let out := userFault wk k.sys t sig r.rsp writable
  let flags := r.rflags ||| 0x200
  (if out.1 then .unwound
    else .handler
      { scratch with
        rax := flags, rflags := flags, rip := out.2.sig.handler, rsp := out.2.sig.frameRsp
        rbx := r.rbx, rbp := r.rbp, r12 := r.r12, r13 := r.r13, r14 := r.r14, r15 := r.r15 },
    { k with
      sys := out.2
      mem := if DeliversNow k.sys t sig ∧ writable = true then
          store k.mem ((k.sys.tasks t).frameAddr sig r.rsp)
            (sigframe ((k.sys.tasks t).restorerFor sig) sig { k.ctx with rip := r.rip, rsp := r.rsp })
        else k.mem })

/-! ## The model without memory -/

section Sys

variable {k : SigMachine}

theorem signalCheckDeliver_eq (s : Sys) (userRsp : Word) (writable : Bool) :
    signalCheckDeliver s userRsp writable =
      match deliverable s with
      | none => s
      | some (t, sig) => signalSetupDelivery s t sig userRsp writable := by
  unfold signalCheckDeliver deliverable
  rcases s.currentTask with _ | t
  · rfl
  · dsimp only
    split_ifs <;> rfl

theorem checkDeliver_sys (k : SigMachine) (writable : Bool) :
    (k.checkDeliver writable).sys = signalCheckDeliver k.sys k.userRsp writable := by
  rw [signalCheckDeliver_eq]
  unfold SigMachine.checkDeliver
  rcases deliverable k.sys with _ | ⟨t, sig⟩
  · rfl
  · rfl

theorem leave_sys (k : SigMachine) (own : Frame) (rax : Word) (writable : Bool) :
    (k.leave own rax writable).2.sys = (syscallEnd k.sys k.userRsp writable).2 ∧
      ((k.leave own rax writable).1 = .unwound ↔
        (syscallEnd k.sys k.userRsp writable).1 = true) := by
  have hsys : (SigMachine.checkDeliver { k with ctx := { k.ctx with rax := rax } } writable).sys =
      signalCheckDeliver k.sys k.userRsp writable :=
    checkDeliver_sys { k with ctx := { k.ctx with rax := rax } } writable
  unfold SigMachine.leave syscallEnd
  dsimp only
  rw [hsys]
  split_ifs
  · exact ⟨rfl, iff_of_true rfl rfl⟩
  · exact ⟨rfl, iff_of_false nofun nofun⟩
  · exact ⟨rfl, iff_of_false nofun nofun⟩
  · exact ⟨hsys, iff_of_false nofun nofun⟩

end Sys

/-! ## Frames in memory -/

section FrameMemory

variable {m m' : Mem} {fr : Word}

theorem length_sigframe (restorer : Word) (sig : ℕ) (r : UserRegs) :
    (sigframe restorer sig r).length = 18 := rfl

theorem frameSlot_store (m : Mem) (fr restorer : Word) (sig : ℕ) (r : UserRegs) {k : ℕ} (hk : k < 18) :
    frameSlot (store m fr (sigframe restorer sig r)) fr k = (sigframe restorer sig r).getD k 0 :=
  word_store_of_lt m fr hk (by rw [length_sigframe]; decide)

theorem loadRegs_store (m : Mem) (fr restorer : Word) (sig : ℕ) (r : UserRegs) :
    loadRegs (store m fr (sigframe restorer sig r)) fr = r := by
  have h := fun k hk => frameSlot_store m fr restorer sig r (k := k) hk
  unfold loadRegs
  rw [h 2 (by decide), h 3 (by decide), h 4 (by decide), h 5 (by decide), h 6 (by decide),
    h 7 (by decide), h 8 (by decide), h 9 (by decide), h 10 (by decide), h 11 (by decide),
    h 12 (by decide), h 13 (by decide), h 14 (by decide), h 15 (by decide), h 16 (by decide),
    h 17 (by decide)]
  rfl

theorem handlerRegs_store_rdi (m : Mem) (fr restorer handler : Word) (sig : ℕ) (r : UserRegs) :
    (handlerRegs (store m fr (sigframe restorer sig r)) fr handler).rdi = BitVec.ofNat 64 sig :=
  frameSlot_store m fr restorer sig r (k := 1) (by decide)

theorem frameSlot_congr (h : ∀ x, InRange (fr + 8#64) 136 x → m' x = m x) {k : ℕ} (hk : 1 ≤ k)
    (hk' : k < 18) : frameSlot m' fr k = frameSlot m fr k := by
  refine word_congr fun j hj => h _ ?_
  unfold InRange
  have hsub : fr + BitVec.ofNat 64 (8 * k) + BitVec.ofNat 64 j - (fr + 8#64) =
      BitVec.ofNat 64 (8 * k + j - 8) := by
    have hadd : BitVec.ofNat 64 (8 * k) + BitVec.ofNat 64 j =
        BitVec.ofNat 64 (8 * k + j - 8) + 8#64 := by
      rw [← BitVec.ofNat_add, ← BitVec.ofNat_add]
      congr 1
      omega
    rw [BitVec.add_assoc, hadd, BitVec.add_comm fr, BitVec.add_comm fr, BitVec.add_assoc,
      BitVec.add_comm 8#64, BitVec.add_sub_cancel]
  rw [hsub, BitVec.toNat_ofNat]
  omega

theorem loadRegs_congr (h : ∀ x, InRange (fr + 8#64) 136 x → m' x = m x) :
    loadRegs m' fr = loadRegs m fr := by
  have hs := fun k hk hk' => frameSlot_congr h (k := k) hk hk'
  unfold loadRegs
  rw [hs 2 (by decide) (by decide), hs 3 (by decide) (by decide), hs 4 (by decide) (by decide),
    hs 5 (by decide) (by decide), hs 6 (by decide) (by decide), hs 7 (by decide) (by decide),
    hs 8 (by decide) (by decide), hs 9 (by decide) (by decide), hs 10 (by decide) (by decide),
    hs 11 (by decide) (by decide), hs 12 (by decide) (by decide), hs 13 (by decide) (by decide),
    hs 14 (by decide) (by decide), hs 15 (by decide) (by decide), hs 16 (by decide) (by decide),
    hs 17 (by decide) (by decide)]

end FrameMemory

/-! ## Interruptions -/

inductive Stop where
  /-- At the end of a system call that has pushed `own` and returns `rax`. -/
  | syscall (own : Frame) (rax : Word)
  /-- At an exception at registers `r`; `scratch` is what the C code leaves. -/
  | fault (r scratch : UserRegs)

def Stop.regs (k : SigMachine) : Stop → UserRegs
  | .syscall own rax => plainRegs own rax k.userRsp
  | .fault r _ => r

def Stop.saved (k : SigMachine) : Stop → UserRegs
  | .syscall _ rax => { k.ctx with rax := rax }
  | .fault r _ => { k.ctx with rip := r.rip, rsp := r.rsp }

def Stop.rdi (sig : ℕ) : Stop → Word
  | .syscall _ _ => BitVec.ofNat 64 sig
  | .fault _ scratch => scratch.rdi

def Stop.Delivers (k : SigMachine) (t sig : ℕ) : Stop → Prop
  | .syscall _ _ => deliverable k.sys = some (t, sig) ∧ k.sys.exitRequest = false ∧
      k.sys.sig.restoreRequest = false
  | .fault _ _ => k.sys.currentTask = some t ∧ DeliversNow k.sys t sig

def Stop.deliver (wk : ℕ → WaitKind → Word → Bool) (k : SigMachine) (t sig : ℕ) :
    Stop → Leave × SigMachine
  | .syscall own rax => k.leave own rax true
  | .fault r scratch => k.fault wk t sig r scratch true

def Stop.frame (k : SigMachine) (t sig : ℕ) (stop : Stop) : Word :=
  (k.sys.tasks t).frameAddr sig (stop.regs k).rsp

/-- The whole system call `rt_sigreturn`. -/
def SigMachine.sigreturnCall (k : SigMachine) (writable : Bool) : Leave × SigMachine :=
  k.sigreturn.leave (Frame.ofUser k.ctx) 0 writable

/-- The task goes on with registers `r`, or a further handler comes in whose frame holds them. -/
def GoesOn (r : UserRegs) (o : Leave × SigMachine) : Prop :=
  o.1 = .resumed r ∨ ∃ h, o.1 = .handler h ∧ loadRegs o.2.mem h.rsp = r

/-- **A transparent handler.**  Whatever the memory of the task: the handler is entered with the
signal in RDI and the red zone as it was, and when it returns, having done anything but change the
signal and the registers in the frame, the task goes on with the registers it had.  The handler
returns in state `s₂`, with any registers; `w₂` is whether a further frame can be written. -/
def RoundTrip (wk : ℕ → WaitKind → Word → Bool) (k : SigMachine) (t sig : ℕ) (stop : Stop) (s₂ : Sys)
    (w₂ : Bool) : Prop :=
  ∀ mem, ∃ h k', stop.deliver wk { k with mem := mem } t sig = (.handler h, k') ∧
    h.rdi = BitVec.ofNat 64 sig ∧
    (∀ x, InRange ((stop.regs k).rsp - 128#64) 128 x → k'.mem x = mem x) ∧
    ∀ mem₂ ctx₂, (∀ x, InRange (h.rsp + 8#64) 136 x → mem₂ x = k'.mem x) →
      ctx₂.rsp = h.rsp + 8#64 →
        GoesOn (stop.regs k) (SigMachine.sigreturnCall ⟨s₂, ctx₂, ctx₂.rsp, mem₂⟩ w₂)

/-- The signals that can be delivered once the handler of `sig` has returned. -/
def waitingAfter (x : Task) (sig : ℕ) : Word := x.sigPending &&& ~~~sigBit sig &&& ~~~x.sigBlocked

def Follows (x : Task) (sig : ℕ) : Prop :=
  lowestSig (waitingAfter x sig) ≠ 0 ∧ sigIgnVal < x.sigHandler (lowestSig (waitingAfter x sig))

instance (x : Task) (sig : ℕ) : Decidable (Follows x sig) := inferInstanceAs (Decidable (_ ∧ _))

/-- **When a handler is transparent.** -/
structure Transparent (k : SigMachine) (t sig : ℕ) (stop : Stop) (s₂ : Sys) (w₂ : Bool) : Prop where
  rdi : stop.rdi sig = BitVec.ofNat 64 sig
  /-- The snapshot holds the registers of this task at this point. -/
  saved : stop.saved k = stop.regs k
  /-- The frame keeps off the red zone: neither begins in the other. -/
  apart : 128 ≤ (stop.frame k t sig - ((stop.regs k).rsp - 128#64)).toNat ∧
    144 ≤ ((stop.regs k).rsp - 128#64 - stop.frame k t sig).toNat
  /-- No further frame is written at the end of `rt_sigreturn`. -/
  last : w₂ = true → ¬ Follows (s₂.tasks t) sig

instance (k : SigMachine) (t sig : ℕ) (stop : Stop) (s₂ : Sys) (w₂ : Bool) :
    Decidable (Transparent k t sig stop s₂ w₂) :=
  decidable_of_iff (stop.rdi sig = BitVec.ofNat 64 sig ∧ stop.saved k = stop.regs k ∧
      (128 ≤ (stop.frame k t sig - ((stop.regs k).rsp - 128#64)).toNat ∧
        144 ≤ ((stop.regs k).rsp - 128#64 - stop.frame k t sig).toNat) ∧
      (w₂ = true → ¬ Follows (s₂.tasks t) sig))
    ⟨fun ⟨h₁, h₂, h₃, h₄⟩ => ⟨h₁, h₂, h₃, h₄⟩, fun ⟨h₁, h₂, h₃, h₄⟩ => ⟨h₁, h₂, h₃, h₄⟩⟩

/-! ## The way in -/

section WayIn

variable {wk : ℕ → WaitKind → Word → Bool} {k : SigMachine} {t sig : ℕ} {stop : Stop}

theorem deliverable_eq_some {s : Sys} (h : deliverable s = some (t, sig)) :
    s.currentTask = some t ∧ IsSignal sig := by
  unfold deliverable at h
  rcases hc : s.currentTask with _ | u
  · rw [hc] at h
    cases h
  · rw [hc] at h
    dsimp only at h
    split_ifs at h with _ _ hlow
    obtain ⟨rfl, rfl⟩ := Prod.mk.inj (Option.some.inj h)
    have hpos := Nat.pos_of_ne_zero hlow
    exact ⟨rfl, hpos, (lowestSig_mem rfl hpos).1⟩

theorem Stop.Delivers.isSignal (h : stop.Delivers k t sig) : IsSignal sig := by
  cases stop with
  | syscall own rax => exact (deliverable_eq_some h.1).2
  | fault r scratch => exact h.2.1

theorem signalSetupDelivery_sig (s : Sys) (t sig : ℕ) (userSp : Word) :
    (signalSetupDelivery s t sig userSp true).sig =
      { s.sig with
        handler := (s.tasks t).sigHandler sig
        frameRsp := (s.tasks t).frameAddr sig userSp
        framePtr := (s.tasks t).frameAddr sig userSp
        request := true
        active := true } := by
  unfold signalSetupDelivery
  dsimp only
  rw [if_pos rfl]
  split_ifs <;> rfl

theorem signalSetupDelivery_sig_false (s : Sys) (t sig : ℕ) (userSp : Word) :
    (signalSetupDelivery s t sig userSp false).sig = s.sig := by
  unfold signalSetupDelivery
  dsimp only
  rw [if_neg Bool.false_ne_true]
  split_ifs <;> rfl

theorem signalSetupDelivery_exitRequest (s : Sys) (t sig : ℕ) (userSp : Word) (writable : Bool) :
    (signalSetupDelivery s t sig userSp writable).exitRequest = s.exitRequest :=
  (edited_signalSetupDelivery ..).exitRequest

theorem leave_of_deliverable (own : Frame) (rax : Word) (h : deliverable k.sys = some (t, sig))
    (hexit : k.sys.exitRequest = false) (hrestore : k.sys.sig.restoreRequest = false) :
    ∃ r k', k.leave own rax true = (.handler r, k') ∧ r.rdi = BitVec.ofNat 64 sig ∧
      r.rsp = (k.sys.tasks t).frameAddr sig k.userRsp ∧
      k'.mem = store k.mem r.rsp
        (sigframe ((k.sys.tasks t).restorerFor sig) sig { k.ctx with rax := rax }) := by
  have hsig := signalSetupDelivery_sig k.sys t sig k.userRsp
  have hex := (signalSetupDelivery_exitRequest k.sys t sig k.userRsp true).trans hexit
  have hdel : SigMachine.checkDeliver { k with ctx := { k.ctx with rax := rax } } true =
      SigMachine.setup { k with ctx := { k.ctx with rax := rax } } t sig { k.ctx with rax := rax }
        k.userRsp true := by
    unfold SigMachine.checkDeliver
    dsimp only
    rw [h]
  unfold SigMachine.leave
  dsimp only
  rw [hdel]
  unfold SigMachine.setup
  dsimp only
  rw [hex, hsig, if_neg Bool.false_ne_true, hrestore, if_neg Bool.false_ne_true, if_pos rfl]
  exact ⟨_, _, rfl, handlerRegs_store_rdi .., rfl, rfl⟩

theorem signalDeliverNow_of_delivers {s : Sys} (hc : s.currentTask = some t)
    (h : DeliversNow s t sig) (faultRsp : Word) (writable : Bool) :
    signalDeliverNow s sig faultRsp writable =
      (true, signalSetupDelivery (s.modifyTask t (·.pend sig)) t sig faultRsp writable) := by
  unfold signalDeliverNow
  rw [hc]
  dsimp only
  rw [if_neg (not_not.mpr h.1), h.2.1, if_neg Bool.false_ne_true,
    if_neg (BitVec.not_le.mpr h.2.2.1), if_neg (not_not.mpr h.2.2.2)]

variable (wk) in
theorem userFault_of_delivers {s : Sys} (hc : s.currentTask = some t) (h : DeliversNow s t sig)
    (faultRsp : Word) : (userFault wk s t sig faultRsp true).1 = false ∧
      (userFault wk s t sig faultRsp true).2.sig.frameRsp = (s.tasks t).frameAddr sig faultRsp := by
  have htask : (s.modifyTask t (·.pend sig)).tasks t = (s.tasks t).pend sig :=
    Function.update_self ..
  unfold userFault excKillUser
  rw [signalDeliverNow_of_delivers hc h]
  dsimp only
  rw [signalSetupDelivery_sig, if_pos rfl, htask]
  exact ⟨rfl, rfl⟩

variable (wk) in
theorem deliver_spec (h : stop.Delivers k t sig) :
    ∃ r k', stop.deliver wk k t sig = (.handler r, k') ∧ r.rdi = stop.rdi sig ∧
      r.rsp = stop.frame k t sig ∧
      k'.mem = store k.mem r.rsp
        (sigframe ((k.sys.tasks t).restorerFor sig) sig (stop.saved k)) := by
  cases stop with
  | syscall own rax => exact leave_of_deliverable own rax h.1 h.2.1 h.2.2
  | fault r scratch =>
    obtain ⟨hfst, hrsp⟩ := userFault_of_delivers wk h.1 h.2 r.rsp
    refine ⟨_, _, Prod.ext (if_neg ?_) rfl, rfl, hrsp, ?_⟩
    · rw [hfst]
      exact Bool.false_ne_true
    · exact (if_pos ⟨h.2, rfl⟩).trans (congrArg (store k.mem · _) hrsp.symm)

end WayIn

/-! ## The way back -/

section WayBack

variable {k : SigMachine} {t sig : ℕ} {s : Sys}

theorem leave_of_restore (own : Frame) (rax : Word) (writable : Bool)
    (hexit : k.sys.exitRequest = false) (hrestore : k.sys.sig.restoreRequest = true) :
    (k.leave own rax writable).1 = .resumed (if writable = true ∧ deliverable k.sys ≠ none then
      { k.ctx with rax := rax } else loadRegs k.mem k.sys.sig.framePtr) := by
  unfold SigMachine.leave SigMachine.checkDeliver
  dsimp only
  rcases deliverable k.sys with _ | ⟨t, sig⟩
  · dsimp only
    rw [hexit, if_neg Bool.false_ne_true, if_pos hrestore, if_neg fun h => h.2 rfl]
  · unfold SigMachine.setup
    dsimp only
    rw [signalSetupDelivery_exitRequest, hexit, if_neg Bool.false_ne_true]
    cases writable with
    | true =>
      rw [signalSetupDelivery_sig, if_pos hrestore, if_pos rfl, if_pos ⟨rfl, Option.some_ne_none _⟩]
      exact congrArg Leave.resumed (loadRegs_store ..)
    | false =>
      rw [signalSetupDelivery_sig_false, if_pos hrestore, if_neg Bool.false_ne_true,
        if_neg fun h => Bool.false_ne_true h.1]

theorem deliverable_ne_none (hc : s.currentTask = some t) (ha : s.sig.active = false) :
    deliverable s ≠ none ↔
      lowestSig ((s.tasks t).sigPending &&& ~~~(s.tasks t).sigBlocked) ≠ 0 ∧
        sigIgnVal < (s.tasks t).sigHandler
          (lowestSig ((s.tasks t).sigPending &&& ~~~(s.tasks t).sigBlocked)) := by
  have hzero : lowestSig 0 = 0 := by decide
  unfold deliverable
  rw [hc]
  dsimp only
  rw [ha, if_neg Bool.false_ne_true]
  split_ifs with hmask hlow hign
  · exact iff_of_false (fun h => h rfl) fun h => h.1 (by rw [hmask, hzero])
  · exact iff_of_false (fun h => h rfl) fun h => h.1 hlow
  · exact iff_of_false (fun h => h rfl) fun h => BitVec.not_le.mpr h.2 hign
  · exact iff_of_true (Option.some_ne_none _) ⟨hlow, BitVec.not_le.mp hign⟩

theorem deliverable_sysRtSigreturn (hc : s.currentTask = some t) (hs : IsSignal sig) (userRsp : Word)
    {f : SavedFrame} (hf : f.signum = BitVec.ofNat 64 sig) :
    deliverable (sysRtSigreturn s userRsp (some f)).2 ≠ none ↔ Follows (s.tasks t) sig := by
  have htoNat : f.signum.toNat = sig := by
    rw [hf, BitVec.toNat_ofNat]
    exact Nat.mod_eq_of_lt (hs.2.trans (by decide))
  have hrange : 0 < f.signum ∧ f.signum < 64 := by
    rw [BitVec.lt_def, BitVec.lt_def, htoNat]
    exact hs
  obtain ⟨hcur, hactive, hpend, hblocked, hhandler⟩ :
      (sysRtSigreturn s userRsp (some f)).2.currentTask = some t ∧
      (sysRtSigreturn s userRsp (some f)).2.sig.active = false ∧
      ((sysRtSigreturn s userRsp (some f)).2.tasks t).sigPending =
        (s.tasks t).sigPending &&& ~~~sigBit sig ∧
      ((sysRtSigreturn s userRsp (some f)).2.tasks t).sigBlocked = (s.tasks t).sigBlocked ∧
      ((sysRtSigreturn s userRsp (some f)).2.tasks t).sigHandler = (s.tasks t).sigHandler := by
    unfold sysRtSigreturn Sys.modifyTask
    rw [hc]
    dsimp only
    simp only [Function.update_self, if_pos hrange, htoNat, and_self]
  rw [deliverable_ne_none hcur hactive, hpend, hblocked, hhandler]
  exact Iff.rfl

theorem sigreturnCall_spec (hc : s.currentTask = some t) (hexit : s.exitRequest = false)
    (hs : IsSignal sig) (ctx : UserRegs) (mem : Mem)
    (hsignum : frameSlot mem (ctx.rsp - 8) 1 = BitVec.ofNat 64 sig) (writable : Bool) :
    (SigMachine.sigreturnCall ⟨s, ctx, ctx.rsp, mem⟩ writable).1 =
      .resumed (if writable = true ∧ Follows (s.tasks t) sig then { ctx with rax := 0 }
        else loadRegs mem (ctx.rsp - 8)) := by
  have hdel := deliverable_sysRtSigreturn hc hs ctx.rsp
    (f := ⟨frameSlot mem (ctx.rsp - 8) 1, loadRegs mem (ctx.rsp - 8)⟩) hsignum
  have hsys : (sysRtSigreturn s ctx.rsp
      (some ⟨frameSlot mem (ctx.rsp - 8) 1, loadRegs mem (ctx.rsp - 8)⟩)).2.exitRequest = false ∧
      (sysRtSigreturn s ctx.rsp (some ⟨frameSlot mem (ctx.rsp - 8) 1,
        loadRegs mem (ctx.rsp - 8)⟩)).2.sig.restoreRequest = true ∧
      (sysRtSigreturn s ctx.rsp (some ⟨frameSlot mem (ctx.rsp - 8) 1,
        loadRegs mem (ctx.rsp - 8)⟩)).2.sig.framePtr = ctx.rsp - 8 := by
    unfold sysRtSigreturn
    rw [hc]
    exact ⟨hexit, rfl, rfl⟩
  unfold SigMachine.sigreturnCall
  rw [leave_of_restore _ _ _ hsys.1 hsys.2.1]
  simp only [SigMachine.sigreturn, hdel, hsys.2.2]

end WayBack

/-! ## The round trip -/

section RoundTrip

variable {wk : ℕ → WaitKind → Word → Bool} {k : SigMachine} {t sig : ℕ} {stop : Stop} {s₂ : Sys}
  {w₂ : Bool}

variable (wk) in
theorem deliver_mem_spec (h : stop.Delivers k t sig) (mem : Mem) :
    ∃ r k', stop.deliver wk { k with mem := mem } t sig = (.handler r, k') ∧ r.rdi = stop.rdi sig ∧
      r.rsp = stop.frame k t sig ∧
      k'.mem = store mem r.rsp
        (sigframe ((k.sys.tasks t).restorerFor sig) sig (stop.saved k)) := by
  have hmem : stop.Delivers { k with mem := mem } t sig := by
    cases stop with
    | syscall own rax => exact h
    | fault r scratch => exact h
  obtain ⟨r, k', hdel, hrdi, hrsp, hstore⟩ := deliver_spec wk hmem
  cases stop with
  | syscall own rax => exact ⟨r, k', hdel, hrdi, hrsp, hstore⟩
  | fault r₀ scratch => exact ⟨r, k', hdel, hrdi, hrsp, hstore⟩

section

variable (h : stop.Delivers k t sig)

include h

variable (w₂) in
theorem roundTrip_back (hc : s₂.currentTask = some t)
    (hexit : s₂.exitRequest = false) {fr restorer : Word} {mem mem₂ : Mem} (ctx₂ : UserRegs)
    (hkept : ∀ x, InRange (fr + 8#64) 136 x →
      mem₂ x = store mem fr (sigframe restorer sig (stop.saved k)) x)
    (hrsp : ctx₂.rsp = fr + 8#64) :
    (SigMachine.sigreturnCall ⟨s₂, ctx₂, ctx₂.rsp, mem₂⟩ w₂).1 =
      .resumed (if w₂ = true ∧ Follows (s₂.tasks t) sig then { ctx₂ with rax := 0 }
        else stop.saved k) := by
  have hfr : ctx₂.rsp - 8 = fr := by
    rw [hrsp]
    exact BitVec.add_sub_cancel ..
  have hsignum : frameSlot mem₂ fr 1 = BitVec.ofNat 64 sig :=
    (frameSlot_congr hkept (le_refl 1) (by decide)).trans
      (frameSlot_store mem fr restorer sig (stop.saved k) (by decide))
  have hregs : loadRegs mem₂ fr = stop.saved k :=
    (loadRegs_congr hkept).trans (loadRegs_store mem fr restorer sig (stop.saved k))
  rw [sigreturnCall_spec hc hexit h.isSignal ctx₂ mem₂ (hfr ▸ hsignum) w₂, hfr, hregs]

theorem Transparent.roundTrip (hc : s₂.currentTask = some t)
    (hexit : s₂.exitRequest = false) (hok : Transparent k t sig stop s₂ w₂) :
    RoundTrip wk k t sig stop s₂ w₂ := by
  intro mem
  obtain ⟨r, k', hdel, hrdi, hrsp, hstore⟩ := deliver_mem_spec wk h mem
  refine ⟨r, k', hdel, hrdi.trans hok.rdi, fun x hx => ?_, fun mem₂ ctx₂ hkept hctx => .inl ?_⟩
  · have hsep : Sep (stop.frame k t sig) 144 ((stop.regs k).rsp - 128#64) 128 :=
      (sep_iff (by decide) (by decide)).mpr ⟨Nat.not_lt.mpr hok.apart.1, Nat.not_lt.mpr hok.apart.2⟩
    rw [hstore]
    refine store_of_not_mem fun hin => hsep x ?_ hx
    rwa [length_sigframe, hrsp] at hin
  · rw [hstore] at hkept
    rw [roundTrip_back w₂ h hc hexit ctx₂ hkept hctx, if_neg fun hf => hok.last hf.1 hf.2, hok.saved]

theorem RoundTrip.rdi (hrt : RoundTrip wk k t sig stop s₂ w₂) :
    stop.rdi sig = BitVec.ofNat 64 sig := by
  obtain ⟨r, k', hdel, hrdi, -, -⟩ := deliver_mem_spec wk h k.mem
  obtain ⟨r₀, k₀, hdel₀, hrdi₀, -, -⟩ := hrt k.mem
  obtain ⟨hr, -⟩ := Prod.mk.inj (hdel.symm.trans hdel₀)
  rw [← hrdi, Leave.handler.inj hr, hrdi₀]

theorem RoundTrip.apart (hrt : RoundTrip wk k t sig stop s₂ w₂) :
    128 ≤ (stop.frame k t sig - ((stop.regs k).rsp - 128#64)).toNat ∧
      144 ≤ ((stop.regs k).rsp - 128#64 - stop.frame k t sig).toNat := by
  have hsep : Sep (stop.frame k t sig) 144 ((stop.regs k).rsp - 128#64) 128 := by
    intro x hx hred
    set b := store (fun _ => 0) (stop.frame k t sig)
      (sigframe ((k.sys.tasks t).restorerFor sig) sig (stop.saved k)) x with hb
    obtain ⟨r, k', hdel, -, hrsp, hstore⟩ := deliver_mem_spec wk h fun _ => b + 1
    obtain ⟨r₀, k₀, hdel₀, -, hkeep, -⟩ := hrt fun _ => b + 1
    obtain ⟨hr, rfl⟩ := Prod.mk.inj (hdel.symm.trans hdel₀)
    have hval : k'.mem x = b := by
      rw [hstore, hrsp, hb]
      exact (if_pos hx).trans (if_pos hx).symm
    have hsucc : b = b + 1 := hval.symm.trans (hkeep x hred)
    bv_omega
  obtain ⟨h₁, h₂⟩ := (sep_iff (by decide) (by decide)).mp hsep
  exact ⟨Nat.not_lt.mp h₁, Nat.not_lt.mp h₂⟩

variable (hc : s₂.currentTask = some t) (hexit : s₂.exitRequest = false)
  (hrt : RoundTrip wk k t sig stop s₂ w₂)

include hc hexit hrt

theorem RoundTrip.back (ctx₂ : UserRegs) (hctx : ctx₂.rsp = stop.frame k t sig + 8#64) :
    (if w₂ = true ∧ Follows (s₂.tasks t) sig then { ctx₂ with rax := 0 } else stop.saved k) =
      stop.regs k := by
  obtain ⟨r, k', hdel, -, hrsp, hstore⟩ := deliver_mem_spec wk h k.mem
  obtain ⟨r₀, k₀, hdel₀, -, -, hback⟩ := hrt k.mem
  obtain ⟨hr, rfl⟩ := Prod.mk.inj (hdel.symm.trans hdel₀)
  rw [← hrsp] at hctx
  have hback' := hback k'.mem ctx₂ (fun _ _ => rfl) (by rw [← Leave.handler.inj hr, hctx])
  have hspec := roundTrip_back w₂ h hc hexit ctx₂ (fun x _ => congrFun hstore x) hctx
  rcases hback' with hres | ⟨r', hhan, -⟩
  · exact Leave.resumed.inj (hspec.symm.trans hres)
  · cases hspec.symm.trans hhan

theorem RoundTrip.last : w₂ = true → ¬ Follows (s₂.tasks t) sig := by
  intro hw hf
  have hback := fun rdi : Word => hrt.back h hc hexit
    { k.ctx with rdi := rdi, rsp := stop.frame k t sig + 8#64 } rfl
  simp only [hw, hf, and_self, if_true] at hback
  have hrdi := congrArg UserRegs.rdi ((hback 0).trans (hback 1).symm)
  exact absurd hrdi (by decide : ¬ (0 : Word) = 1)

theorem RoundTrip.saved : stop.saved k = stop.regs k := by
  have hback := hrt.back h hc hexit { k.ctx with rsp := stop.frame k t sig + 8#64 } rfl
  rwa [if_neg fun hf => hrt.last h hc hexit hf.1 hf.2] at hback

end

/-- **Handlers are transparent** exactly if RDI holds the signal, the snapshot holds the registers of
the task, the frame keeps off the red zone, and no further signal can be delivered when the handler
returns. -/
theorem roundTrip_iff (h : stop.Delivers k t sig) (hc : s₂.currentTask = some t)
    (hexit : s₂.exitRequest = false) :
    RoundTrip wk k t sig stop s₂ w₂ ↔ Transparent k t sig stop s₂ w₂ :=
  ⟨fun hrt => ⟨hrt.rdi h, hrt.saved h hc hexit, hrt.apart h, hrt.last h hc hexit⟩,
    fun hok => hok.roundTrip h hc hexit⟩

theorem sub_align_lt (x : Word) : (x - (x &&& ~~~0xF#64)).toNat < 16 := by
  have hdisj : (x &&& ~~~0xF#64) &&& (x &&& 0xF#64) = 0#64 := by
    ext i hi
    simp only [BitVec.getElem_and, BitVec.getElem_not, BitVec.getElem_zero]
    cases x[i] <;> cases (0xF#64)[i] <;> rfl
  have hsplit : (x &&& ~~~0xF#64) + (x &&& 0xF#64) = x := by
    rw [BitVec.add_eq_or_of_and_eq_zero _ _ hdisj, ← BitVec.and_or_distrib_left,
      show ~~~0xF#64 ||| 0xF#64 = BitVec.allOnes 64 by decide, BitVec.and_allOnes]
  have hle : (x &&& 0xF#64).toNat ≤ 15 := by
    rw [BitVec.toNat_and]
    exact Nat.and_le_right
  bv_omega

/-- **On the ordinary stack no handler is transparent**: the frame is always in the red zone. -/
theorem not_roundTrip_of_ordinary_stack (h : stop.Delivers k t sig)
    (halt : ¬ (k.sys.tasks t).usesAltstack sig) : ¬ RoundTrip wk k t sig stop s₂ w₂ := by
  intro hrt
  have hframe : stop.frame k t sig = ((stop.regs k).rsp - 144#64) &&& ~~~0xF#64 := if_neg halt
  have hfar := (hrt.apart h).2
  have hlt := sub_align_lt ((stop.regs k).rsp - 144#64)
  rw [← hframe] at hlt
  bv_omega

end RoundTrip

def someRegs : UserRegs :=
  ⟨39, 1, 2, 3, 4, 5, 6, 0x202, 0x401500, 7, 8, 9, 10, 11, 12, 0x7FFFF000⟩

/-- The process has handlers for signals 10 and 12 with these flags, an alternate stack, and signal 10
pending. -/
def twoHandlers (flags : Word) : Sys :=
  let act := some (some ⟨0x401000, flags, 0⟩)
  let s := (sysRtSigaction (sysRtSigaction handlerForUsr1 10 true act).2 12 true act).2
  killUsr1 (sysSigaltstack s false 0x700000 0x4000)

def inSyscall (s : Sys) : SigMachine := ⟨s, someRegs, someRegs.rsp, fun _ => 0⟩

def returnsZero : Stop := .syscall (.ofUser someRegs) 0

def inHandler (s : Sys) : Sys := (returnsZero.deliver (fun _ _ _ => false) (inSyscall s) 1 10).2.sys

theorem delivers_twoHandlers {flags : Word} (h : flags = 0 ∨ flags = saOnstack) :
    returnsZero.Delivers (inSyscall (twoHandlers flags)) 1 10 := by
  rcases h with rfl | rfl
  · exact show _ ∧ _ ∧ _ by decide +kernel
  · exact show _ ∧ _ ∧ _ by decide +kernel

/-- One signal, on the alternate stack. -/
theorem roundTrip_altstack :
    RoundTrip (fun _ _ _ => false) (inSyscall (twoHandlers saOnstack)) 1 10 returnsZero
      (inHandler (twoHandlers saOnstack)) true :=
  (roundTrip_iff (delivers_twoHandlers (.inr rfl)) (by decide +kernel) (by decide +kernel)).mpr
    (by decide +kernel)

theorem not_roundTrip_ordinary_sample :
    ¬ RoundTrip (fun _ _ _ => false) (inSyscall (twoHandlers 0)) 1 10 returnsZero
      (inHandler (twoHandlers 0)) true :=
  not_roundTrip_of_ordinary_stack (delivers_twoHandlers (.inl rfl)) (by decide +kernel)

/-- **Two ways to lose.**  On the ordinary stack the frame overwrites the red zone.  On the alternate
stack, signal 12 arrives while the handler of signal 10 runs, and `rt_sigreturn` returns to itself. -/
theorem handlers_not_transparent :
    (returnsZero.Delivers (inSyscall (twoHandlers 0)) 1 10 ∧
      ¬ RoundTrip (fun _ _ _ => false) (inSyscall (twoHandlers 0)) 1 10 returnsZero
        (inHandler (twoHandlers 0)) true) ∧
    returnsZero.Delivers (inSyscall (twoHandlers saOnstack)) 1 10 ∧
      ¬ RoundTrip (fun _ _ _ => false) (inSyscall (twoHandlers saOnstack)) 1 10 returnsZero
        (sysKill (fun _ _ _ => false) (inHandler (twoHandlers saOnstack)) 1 12).2 true := by
  refine ⟨⟨delivers_twoHandlers (.inl rfl), fun hrt => ?_⟩, delivers_twoHandlers (.inr rfl),
    fun hrt => ?_⟩
  · exact absurd (hrt.apart (delivers_twoHandlers (.inl rfl))) (by decide +kernel)
  · exact hrt.last (delivers_twoHandlers (.inr rfl)) (by decide +kernel) (by decide +kernel) rfl
      (by decide +kernel)

end BananaOS.Proc
