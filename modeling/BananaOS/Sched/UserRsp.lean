import BananaOS.Lib.GuardedRun
import BananaOS.Sched.SyscallEntry

/-!
# The user RSP across a system call

The normal exit of `syscall_entry` loads RSP from the global `syscall_user_rsp`.  Between entry and
exit other tasks may have run, and each of their system calls wrote that global.  `sys_wait4` knows
this and keeps a copy in its locals; no other handler that blocks does.
-/

namespace BananaOS.Sched

open GuardedRun

/-! ## Who waits, and who writes -/

/-- Task `u` is inside call `c` and off the CPU: blocked, or woken and not yet resumed. -/
def Kernel.Waiting (k : Kernel) (u : ℕ) (c : Call) : Prop :=
  k.onCpu ≠ some u ∧ ((k.tasks u).state = .ready ∨ (k.tasks u).state = .blocked) ∧
    (k.tasks u).call = some c

def Kernel.InCall (k : Kernel) (u : ℕ) (c : Call) : Prop :=
  k.onCpu = some u ∧ (k.tasks u).call = some c

variable {k : Kernel} {t : ℕ} {c : Call}

theorem inCall_of_currentCall (h : k.currentCall = some (t, c)) : k.InCall t c := by
  unfold Kernel.currentCall at h
  obtain ⟨t', ht', hm⟩ := Option.bind_eq_some_iff.mp h
  obtain ⟨c', hc', he⟩ := Option.map_eq_some_iff.mp hm
  cases he
  exact ⟨ht', hc'⟩

/-- The value the end of call `c` writes to `syscall_user_rsp`: `rt_sigreturn` writes the RSP of its
frame, `wait4` puts its copy back. -/
def Call.rspWrite (c : Call) : Outcome → Option Word
  | .sigreturn regs => some regs.rsp
  | _ => c.savedUser.map Prod.fst

/-- The value an event writes to `syscall_user_rsp`: besides the above, every entry and the start of
a forked child write it. -/
def Kernel.rspWrite (k : Kernel) : Event → Option Word
  | .enter r _ => some r.rsp
  | .finish o _ => k.currentCall.bind fun tc => tc.2.rspWrite o
  | .dispatch t =>
    if (k.tasks t).kctxValid = false ∧ (k.tasks t).isFork = true then some (k.tasks t).forkCtx.rsp
    else none
  | _ => none

/-- The event writes nothing to `syscall_user_rsp` that a task waiting in a call other than `wait4`
would notice. -/
def Undisturbed (k : Kernel) (e : Event) : Prop :=
  ∀ v, k.rspWrite e = some v → ∀ u c, k.Waiting u c → c.nr ≠ .wait4 → c.enteredRsp = v

theorem undisturbed_of_wait4 {e : Event}
    (h : ∀ u c, k.Waiting u c → c.nr = .wait4) : Undisturbed k e :=
  fun _ _ u c hw hne => absurd (h u c hw) hne

theorem undisturbed_of_noWrite {e : Event} (h : k.rspWrite e = none) : Undisturbed k e := by
  intro v hv
  rw [h] at hv
  cases hv

/-! ## The invariant -/

/-- The entry RSP of `c` is at hand: in the locals of `wait4`, or in the global `g`. -/
def Call.Safe (c : Call) (g : Word) : Prop :=
  (c.nr = .wait4 ∧ ∃ ctx, c.savedUser = some (c.enteredRsp, ctx)) ∨
    (c.savedUser = none ∧ g = c.enteredRsp)

/-- Every call in progress has its entry RSP at hand, and a waiting `wait4` has it in its locals. -/
structure RspInv (k : Kernel) : Prop where
  waiting : ∀ u c, k.Waiting u c → c.Safe k.syscallUserRsp
  saved : ∀ u c, k.Waiting u c → c.nr = .wait4 → c.savedUser ≠ none
  inCall : ∀ u c, k.InCall u c → c.Safe k.syscallUserRsp

theorem Call.Safe.write {g g' : Word} (h : c.Safe g)
    (hsaved : c.nr = .wait4 → c.savedUser ≠ none) (hg : c.nr ≠ .wait4 → c.enteredRsp = g') :
    c.Safe g' := by
  rcases h with h | ⟨hnone, _⟩
  · exact .inl h
  · by_cases hw : c.nr = .wait4
    · exact absurd hnone (hsaved hw)
    · exact .inr ⟨hnone, (hg hw).symm⟩

theorem RspInv.of_waiting {k' : Kernel} (h : RspInv k) (hg : k'.syscallUserRsp = k.syscallUserRsp ∨
      ∀ u c, k.Waiting u c → c.nr ≠ .wait4 → c.enteredRsp = k'.syscallUserRsp)
    (hw : ∀ u c, k'.Waiting u c → k.Waiting u c)
    (hin : ∀ u c, k'.InCall u c → c.Safe k'.syscallUserRsp) : RspInv k' := by
  refine ⟨fun u c huc => ?_, fun u c huc => h.saved u c (hw u c huc), hin⟩
  have hold := h.waiting u c (hw u c huc)
  rcases hg with hg | hg
  · rwa [hg]
  · exact hold.write (h.saved u c (hw u c huc)) (hg u c (hw u c huc))

/-! ## What the parts of `finish` change -/

theorem tasks_setTask (k : Kernel) (t u : ℕ) (x : Task) :
    (k.setTask t x).tasks u = if u = t then x else k.tasks u :=
  Function.update_apply k.tasks t x u

/-- What a sequence of kernel operations leaves of a task that is not on the CPU: the task itself,
or a fresh task without a call. -/
def Kernel.Kept (k k' : Kernel) (u : ℕ) : Prop :=
  k'.tasks u = k.tasks u ∨ (k'.tasks u).call = none

section

variable (k : Kernel)

theorem kept_handlerEnd (t : ℕ) (o : Outcome) {u : ℕ} (hu : u ≠ t) :
    k.Kept (k.handlerEnd t o).2 u := by
  cases o with
  | ret rax => exact .inl rfl
  | sigreturn regs => exact .inl rfl
  | exec entry rsp => exact .inl ((tasks_setTask k t u _).trans (if_neg hu))
  | exit => exact .inl ((tasks_setTask k t u _).trans (if_neg hu))
  | spawn child =>
    by_cases huc : u = child
    · refine .inr ?_
      show (((k.spawnProcess child 0 0).setTask child _).tasks u).call = none
      rw [tasks_setTask, if_pos huc]
      show ((k.signalGlobalsReset.setTask child _).tasks child).call = none
      rw [tasks_setTask, if_pos rfl]
    · refine .inl ?_
      show ((k.spawnProcess child 0 0).setTask child _).tasks u = k.tasks u
      rw [tasks_setTask, if_neg huc]
      exact (tasks_setTask k.signalGlobalsReset child u _).trans (if_neg huc)

theorem tasks_restoreUser (c : Call) : (k.restoreUser c).tasks = k.tasks := by
  unfold Kernel.restoreUser
  split <;> rfl

theorem onCpu_restoreUser (c : Call) : (k.restoreUser c).onCpu = k.onCpu := by
  unfold Kernel.restoreUser
  split <;> rfl

theorem onCpu_handlerEnd (t : ℕ) (o : Outcome) : (k.handlerEnd t o).2.onCpu = k.onCpu := by
  cases o <;> rfl

theorem tasks_signalCheckDeliver (sig : Option SigFrame) :
    (k.signalCheckDeliver sig).tasks = k.tasks := by
  unfold Kernel.signalCheckDeliver
  split
  · split <;> rfl
  · rfl

theorem onCpu_signalCheckDeliver (sig : Option SigFrame) :
    (k.signalCheckDeliver sig).onCpu = k.onCpu := by
  unfold Kernel.signalCheckDeliver
  split
  · split <;> rfl
  · rfl

theorem syscallUserRsp_signalCheckDeliver (sig : Option SigFrame) :
    (k.signalCheckDeliver sig).syscallUserRsp = k.syscallUserRsp := by
  unfold Kernel.signalCheckDeliver
  split
  · split <;> rfl
  · rfl

theorem leave_spec (t : ℕ) (f : Frame) (rax : Word) : (k.leave t f rax).2.tasks = k.tasks ∧
      (k.leave t f rax).2.syscallUserRsp = k.syscallUserRsp ∧
      ((k.leave t f rax).2.onCpu = k.onCpu ∨ (k.leave t f rax).2.onCpu = none) := by
  unfold Kernel.leave
  split
  · exact ⟨rfl, rfl, .inr rfl⟩
  · split
    · exact ⟨rfl, rfl, .inl rfl⟩
    · split
      · exact ⟨rfl, rfl, .inl rfl⟩
      · split
        · exact ⟨rfl, rfl, .inl rfl⟩
        · exact ⟨rfl, rfl, .inl rfl⟩

theorem syscallUserRsp_handlerEnd (t : ℕ) (c : Call) (o : Outcome) :
    ((k.restoreUser c).handlerEnd t o).2.syscallUserRsp =
      (c.rspWrite o).getD k.syscallUserRsp := by
  have hr : (k.restoreUser c).syscallUserRsp =
      (c.savedUser.map Prod.fst).getD k.syscallUserRsp := by
    unfold Kernel.restoreUser
    split
    next h => rw [h]; rfl
    next h => rw [h]; rfl
  cases o with
  | sigreturn regs => rfl
  | ret rax => exact hr
  | exec entry rsp => exact hr
  | exit => exact hr
  | spawn child => exact hr

end

structure FinishOutcome (k : Kernel) (t : ℕ) (c : Call) (o : Outcome) (k' : Kernel) : Prop where
  call_none : (k'.tasks t).call = none
  kept : ∀ u, u ≠ t → k.Kept k' u
  onCpu : k'.onCpu = k.onCpu ∨ k'.onCpu = none
  rsp : k'.syscallUserRsp = (c.rspWrite o).getD k.syscallUserRsp

theorem finish_spec (k : Kernel) (t : ℕ) (c : Call) (o : Outcome) (sig : Option SigFrame) :
    FinishOutcome k t c o (k.finish t c o sig).2 := by
  set k1 := ((k.restoreUser c).handlerEnd t o).2 with hk1
  set k2 : Kernel := { k1 with
    syscallUserCtx := { k1.syscallUserCtx with rax := ((k.restoreUser c).handlerEnd t o).1 } }
    with hk2
  set k3 := ((k2.signalCheckDeliver sig).leave t c.frame
    ((k.restoreUser c).handlerEnd t o).1).2 with hk3
  have hfin : (k.finish t c o sig).2 = k3.setTask t { k3.tasks t with call := none } := rfl
  obtain ⟨ht, hrsp, hcpu⟩ := leave_spec (k2.signalCheckDeliver sig) t c.frame
    ((k.restoreUser c).handlerEnd t o).1
  have htasks : k3.tasks = k1.tasks := ht.trans (tasks_signalCheckDeliver k2 sig)
  rw [hfin]
  refine ⟨?_, fun u hu => ?_, ?_, ?_⟩
  · rw [tasks_setTask, if_pos rfl]
  · have hk := kept_handlerEnd (k.restoreUser c) t o hu
    unfold Kernel.Kept at hk ⊢
    rw [tasks_setTask, if_neg hu, htasks]
    rwa [tasks_restoreUser] at hk
  · rw [onCpu_signalCheckDeliver] at hcpu
    have h1 : k2.onCpu = k.onCpu :=
      (onCpu_handlerEnd (k.restoreUser c) t o).trans (onCpu_restoreUser k c)
    rw [h1] at hcpu
    exact hcpu
  · show k3.syscallUserRsp = _
    rw [hrsp, syscallUserRsp_signalCheckDeliver]
    exact syscallUserRsp_handlerEnd k t c o

/-! ## One step -/

theorem inv_enter (h : RspInv k) (ht : k.onCpu = some t) (r : UserRegs)
    (nr : Syscall) (hq : Undisturbed k (.enter r nr)) : RspInv (k.syscallEntry t r nr) := by
  refine h.of_waiting (.inr fun u c huc hne => hq r.rsp rfl u c huc hne) ?_ ?_
  · rintro u c ⟨hcpu, hst, hcall⟩
    have hut : u ≠ t := fun he => hcpu (he ▸ ht)
    unfold Kernel.syscallEntry at hst hcall
    rw [tasks_setTask, if_neg hut] at hst hcall
    exact ⟨hcpu, hst, hcall⟩
  · rintro u c ⟨hcpu, hcall⟩
    have hut : u = t := Option.some.inj (hcpu.symm.trans ht)
    unfold Kernel.syscallEntry at hcall
    rw [tasks_setTask, if_pos hut] at hcall
    have hc := Option.some.inj hcall
    subst hc
    exact .inr ⟨rfl, rfl⟩

theorem inv_block (h : RspInv k) (hc : k.InCall t c)
    (kind : WaitKind) : RspInv (k.blockAndSwitch t c kind) := by
  have hsafe := h.inCall t c hc
  have hsave : (k.saveUser c).Safe k.syscallUserRsp ∧
      ((k.saveUser c).nr = .wait4 → (k.saveUser c).savedUser ≠ none) := by
    unfold Kernel.saveUser
    split
    next hw =>
      obtain ⟨hnr, hnone⟩ := hw
      rcases hsafe with ⟨_, ctx, hs⟩ | ⟨_, hg⟩
      · rw [hnone] at hs
        cases hs
      · exact ⟨.inl ⟨hnr, k.syscallUserCtx, by rw [hg]⟩, by simp⟩
    next hw => exact ⟨hsafe, fun hnr hn => hw ⟨hnr, hn⟩⟩
  -- the waiting calls are the old ones and this one
  have hcase : ∀ u c', (k.blockAndSwitch t c kind).Waiting u c' →
      k.Waiting u c' ∨ c' = { k.saveUser c with blocks := c.blocks + 1 } := by
    rintro u c' ⟨hcpu, hst, hcall⟩
    unfold Kernel.blockAndSwitch at hst hcall
    by_cases hut : u = t
    · refine .inr ?_
      simp only [tasks_setTask, if_pos hut] at hcall
      exact (Option.some.inj hcall).symm
    · refine .inl ⟨fun he => hut ?_, ?_, ?_⟩
      · exact Option.some.inj (he.symm.trans hc.1)
      · simpa only [tasks_setTask, if_neg hut] using hst
      · simpa only [tasks_setTask, if_neg hut] using hcall
  refine ⟨fun u c' huc => ?_, fun u c' huc => ?_, fun u c' huc => ?_⟩
  · rcases hcase u c' huc with hold | rfl
    · exact h.waiting u c' hold
    · exact hsave.1
  · rcases hcase u c' huc with hold | rfl
    · exact h.saved u c' hold
    · exact hsave.2
  · cases huc.1

theorem inv_finish (h : RspInv k) (hc : k.InCall t c)
    (o : Outcome) (sig : Option SigFrame) (hq : Undisturbed k (.finish o sig)) :
    RspInv (k.finish t c o sig).2 := by
  have hf := finish_spec k t c o sig
  generalize (k.finish t c o sig).2 = k' at hf
  have hcall : k.currentCall = some (t, c) := by
    unfold Kernel.currentCall
    rw [hc.1, Option.bind_some, hc.2, Option.map_some]
  -- a task whose call survives is not `t`, and it was there before
  have hold : ∀ u c', (k'.tasks u).call = some c' → u ≠ t ∧ k'.tasks u = k.tasks u := by
    intro u c' hu
    have hut : u ≠ t := by
      rintro rfl
      rw [hf.call_none] at hu
      cases hu
    rcases hf.kept u hut with he | he
    · exact ⟨hut, he⟩
    · rw [he] at hu
      cases hu
  refine h.of_waiting ?_ ?_ ?_
  · rw [hf.rsp]
    cases hw : c.rspWrite o with
    | none => exact .inl rfl
    | some v =>
      refine .inr fun u c' huc hne => hq v ?_ u c' huc hne
      show k.currentCall.bind _ = some v
      rw [hcall, Option.bind_some, hw]
  · rintro u c' ⟨hcpu, hst, hcl⟩
    obtain ⟨hut, he⟩ := hold u c' hcl
    rw [he] at hst hcl
    exact ⟨fun hcon => hut (Option.some.inj (hcon.symm.trans hc.1)), hst, hcl⟩
  · rintro u c' ⟨hcpu, hcl⟩
    obtain ⟨hut, he⟩ := hold u c' hcl
    rcases hf.onCpu with ho | ho
    · rw [ho, hc.1] at hcpu
      exact absurd (Option.some.inj hcpu).symm hut
    · rw [ho] at hcpu
      cases hcpu

theorem inv_dispatch (h : RspInv k) (hcpu : k.onCpu = none)
    (hready : (k.tasks t).state = .ready) (hq : Undisturbed k (.dispatch t)) :
    RspInv (k.dispatch t) := by
  have htasks : ∀ u, ((k.dispatch t).tasks u).call = (k.tasks u).call := by
    intro u
    unfold Kernel.dispatch
    by_cases hu : u = t
    · subst hu
      split
      · simp [tasks_setTask]
      · split <;> simp [tasks_setTask]
    · split
      · simp [tasks_setTask, hu]
      · split <;> simp [tasks_setTask, hu]
  have honCpu : (k.dispatch t).onCpu = some t := by
    unfold Kernel.dispatch
    split
    · rfl
    · split <;> rfl
  have hwait : ∀ u c, (k.dispatch t).Waiting u c → k.Waiting u c := by
    rintro u c ⟨hne, hst, hcall⟩
    have hut : u ≠ t := fun he => hne (he ▸ honCpu)
    rw [htasks] at hcall
    refine ⟨by simp [hcpu], ?_, hcall⟩
    unfold Kernel.dispatch at hst
    split at hst
    · simpa [tasks_setTask, hut] using hst
    · split at hst <;> simpa [tasks_setTask, hut] using hst
  have hglob : (k.dispatch t).syscallUserRsp = k.syscallUserRsp ∨
      k.rspWrite (.dispatch t) = some (k.dispatch t).syscallUserRsp := by
    unfold Kernel.dispatch Kernel.rspWrite
    split
    next hv => exact .inl rfl
    next hv =>
      split
      next hf => simp [hf, hv]
      next hf => exact .inl rfl
  refine h.of_waiting ?_ hwait ?_
  · rcases hglob with hg | hg
    · exact .inl hg
    · exact .inr fun u c huc hne => hq _ hg u c huc hne
  · rintro u c ⟨ho, hcall⟩
    have hut : u = t := Option.some.inj (ho.symm.trans honCpu)
    subst hut
    rw [htasks] at hcall
    have hw : k.Waiting u c := ⟨by simp [hcpu], .inl hready, hcall⟩
    rcases hglob with hg | hg
    · rw [hg]
      exact h.waiting u c hw
    · exact (h.waiting u c hw).write (h.saved u c hw) (hq _ hg u c hw)

theorem inv_of_drop {k' : Kernel} (h : RspInv k) (hg : k'.syscallUserRsp = k.syscallUserRsp)
    (hcpu : k'.onCpu = k.onCpu ∨ k'.onCpu = none ∧ ∀ t, k.onCpu = some t → (k.tasks t).call = none)
    (hcall : ∀ u c, (k'.tasks u).call = some c → (k.tasks u).call = some c ∧
      ((k'.tasks u).state = .ready ∨ (k'.tasks u).state = .blocked →
        (k.tasks u).state = .ready ∨ (k.tasks u).state = .blocked)) : RspInv k' := by
  refine h.of_waiting (.inl hg) ?_ ?_
  · rintro u c ⟨hne, hst, hcl⟩
    obtain ⟨hcl', hst'⟩ := hcall u c hcl
    refine ⟨fun he => ?_, hst' hst, hcl'⟩
    rcases hcpu with ho | ⟨_, ho⟩
    · exact hne (ho.trans he)
    · rw [ho u he] at hcl'
      cases hcl'
  · rintro u c ⟨ho, hcl⟩
    rw [hg]
    rcases hcpu with hc | ⟨hc, _⟩
    · exact h.inCall u c ⟨hc ▸ ho, (hcall u c hcl).1⟩
    · rw [hc] at ho
      cases ho

/-- The call of a task, where one task has been replaced by `x`. -/
theorem call_setTask {x : Task} (hx : ∀ c, x.call = some c → (k.tasks t).call = some c ∧
      (x.state = .ready ∨ x.state = .blocked →
        (k.tasks t).state = .ready ∨ (k.tasks t).state = .blocked)) (u : ℕ) (c : Call)
    (hc : ((k.setTask t x).tasks u).call = some c) :
    (k.tasks u).call = some c ∧
      (((k.setTask t x).tasks u).state = .ready ∨ ((k.setTask t x).tasks u).state = .blocked →
        (k.tasks u).state = .ready ∨ (k.tasks u).state = .blocked) := by
  rw [tasks_setTask] at hc ⊢
  by_cases hu : u = t
  · subst hu
    simp only [if_true] at hc ⊢
    exact hx c hc
  · simp only [if_neg hu] at hc ⊢
    exact ⟨hc, id⟩

theorem step_inv {k' : Kernel} {e : Event} (h : RspInv k) (hq : Undisturbed k e)
    (hstep : step k e = some k') : RspInv k' := by
  cases e with
  | enter r nr =>
    simp only [step] at hstep
    split at hstep
    next t ht =>
      split at hstep
      · cases hstep
        exact inv_enter h ht r nr hq
      · cases hstep
    next => cases hstep
  | block =>
    simp only [step] at hstep
    split at hstep
    next t c hc =>
      split at hstep
      next kind _ =>
        split at hstep
        · cases hstep
          exact inv_block h (inCall_of_currentCall hc) kind
        · cases hstep
      next => cases hstep
    next => cases hstep
  | finish o sig =>
    simp only [step] at hstep
    split at hstep
    next t c hc =>
      split at hstep
      · cases hstep
        exact inv_finish h (inCall_of_currentCall hc) o sig hq
      · cases hstep
    next => cases hstep
  | fault o =>
    simp only [step] at hstep
    split at hstep
    next t ht =>
      split at hstep
      next hcall =>
        cases hstep
        have hzombie := call_setTask (k := k) (t := t) (x := { k.tasks t with state := .zombie })
          fun c hc => ⟨hc, by simp⟩
        have honly : ∀ t', k.onCpu = some t' → (k.tasks t').call = none := by
          intro t' ht'
          rwa [← Option.some.inj (ht.symm.trans ht')]
        cases o with
        | deliver f => exact inv_of_drop h rfl (.inl rfl) fun u c hc => ⟨hc, id⟩
        | unwritable =>
          simp only [Kernel.fault]
          by_cases hs : k.sigRequest = true
          · rw [if_pos hs]
            exact inv_of_drop h rfl (.inl rfl) fun u c hc => ⟨hc, id⟩
          · rw [if_neg hs]
            exact inv_of_drop h rfl (.inr ⟨rfl, honly⟩) fun u c hc => ⟨hc, id⟩
        | kill => exact inv_of_drop h rfl (.inr ⟨rfl, honly⟩) hzombie
      · cases hstep
    next => cases hstep
  | wake t =>
    obtain ⟨hb, ⟨⟩⟩ := Option.ite_none_right_eq_some.mp hstep
    exact inv_of_drop h rfl (.inl rfl) (call_setTask fun c hc => ⟨hc, fun _ => .inr hb⟩)
  | dispatch t =>
    obtain ⟨hd, ⟨⟩⟩ := Option.ite_none_right_eq_some.mp hstep
    exact inv_dispatch h hd.1 hd.2 hq
  | kill t =>
    obtain ⟨-, ⟨⟩⟩ := Option.ite_none_right_eq_some.mp hstep
    have hzombie := call_setTask (k := k) (t := t) (x := { k.tasks t with state := .zombie })
      fun c hc => ⟨hc, by simp⟩
    split_ifs
    · exact inv_of_drop h rfl (.inl rfl) hzombie
    · exact inv_of_drop h rfl (.inl rfl) hzombie
  | reap t =>
    obtain ⟨-, ⟨⟩⟩ := Option.ite_none_right_eq_some.mp hstep
    exact inv_of_drop h rfl (.inl rfl) (call_setTask fun c hc => ⟨hc, by simp⟩)
  | launch t entry rsp =>
    obtain ⟨-, ⟨⟩⟩ := Option.ite_none_right_eq_some.mp hstep
    exact inv_of_drop h rfl (.inl rfl) (call_setTask fun c hc => by cases hc)

theorem boot_inv : RspInv Kernel.boot where
  waiting := by
    rintro u c ⟨_, _, hc⟩
    cases hc
  saved := by
    rintro u c ⟨_, _, hc⟩
    cases hc
  inCall := by
    rintro u c ⟨hcpu, _⟩
    cases hcpu

/-! ## Whole runs -/

theorem rsp_of_sysret {o : Outcome} {sig : Option SigFrame}
    {regs : UserRegs} (h : (k.finish t c o sig).1 = .sysret regs) :
    (∀ r, o ≠ .sigreturn r) ∧ regs.rsp = (c.rspWrite o).getD k.syscallUserRsp := by
  set k2 : Kernel := { ((k.restoreUser c).handlerEnd t o).2 with
    syscallUserCtx := { ((k.restoreUser c).handlerEnd t o).2.syscallUserCtx with
      rax := ((k.restoreUser c).handlerEnd t o).1 } } with hk2
  have hleave : ((k2.signalCheckDeliver sig).leave t c.frame
      ((k.restoreUser c).handlerEnd t o).1).1 = .sysret regs := h
  unfold Kernel.leave at hleave
  split at hleave
  · cases hleave
  · split at hleave
    · cases hleave
    · split at hleave
      · cases hleave
      next hrestore =>
        split at hleave
        · cases hleave
        · refine ⟨fun r ho => hrestore ?_, ?_⟩
          · -- a successful `rt_sigreturn` has requested the restore exit
            have h2 : (k2.signalCheckDeliver sig).sigRestoreRequest = k2.sigRestoreRequest := by
              unfold Kernel.signalCheckDeliver
              split
              · split <;> rfl
              · rfl
            rw [h2, hk2, ho]
            rfl
          · have hr := congrArg UserRegs.rsp (Exit.sysret.inj hleave)
            rw [← hr]
            show (k2.signalCheckDeliver sig).syscallUserRsp = _
            rw [syscallUserRsp_signalCheckDeliver]
            exact syscallUserRsp_handlerEnd k t c o

/-- **The user RSP survives a system call** in every run from boot in which `syscall_user_rsp` is
not overwritten under a task that waits in a call other than `wait4`: whenever the task on the CPU
leaves its call through the normal exit, it gets the RSP it entered with. -/
theorem sysret_rsp_eq {es : List Event} {k : Kernel} (hrun : Run step Undisturbed .boot es k)
    {t : ℕ} {c : Call} (hcall : k.currentCall = some (t, c)) {o : Outcome}
    {sig : Option SigFrame} {regs : UserRegs} (hexit : (k.finish t c o sig).1 = .sysret regs) :
    regs.rsp = c.enteredRsp := by
  have hinv : RspInv k := hrun.invariant (fun _ _ _ h hq hs => step_inv h hq hs) boot_inv
  obtain ⟨ho, hrsp⟩ := rsp_of_sysret hexit
  have hw : c.rspWrite o = c.savedUser.map Prod.fst := by
    cases o with
    | sigreturn r => exact absurd rfl (ho r)
    | _ => rfl
  rw [hrsp, hw]
  rcases hinv.inCall t c (inCall_of_currentCall hcall) with ⟨_, ctx, hs⟩ | ⟨hs, hg⟩
  · rw [hs]
    rfl
  · rw [hs]
    exact hg

/-- A parent waits in `wait4` while its child makes a system call and exits. -/
def waitRun : List Event :=
  [.launch 0 0x400000 0x1000, .launch 1 0x400000 0x2000,
   .dispatch 0, .enter { UserRegs.zero with rsp := 0xff8 } .wait4, .block,
   .dispatch 1, .enter { UserRegs.zero with rsp := 0x1ff0 } .exit, .finish .exit none,
   .wake 0, .dispatch 0]

theorem sysret_rsp_eq_waitRun :
    ∃ k c regs, Run step Undisturbed .boot waitRun k ∧ k.currentCall = some (0, c) ∧
      (k.finish 0 c (.ret 1) none).1 = .sysret regs ∧ c.enteredRsp = 0xff8 ∧
      regs.rsp = c.enteredRsp := by
  have hrun : ∃ k, Run step Undisturbed .boot waitRun k ∧ ∃ c regs,
      k.currentCall = some (0, c) ∧ (k.finish 0 c (.ret 1) none).1 = .sysret regs ∧
      c.enteredRsp = 0xff8 := by
    refine ⟨_, .cons (undisturbed_of_noWrite rfl) rfl <| .cons (undisturbed_of_noWrite rfl) rfl <|
      .cons (undisturbed_of_noWrite rfl) rfl <| .cons (undisturbed_of_wait4 ?_) rfl <|
      .cons (undisturbed_of_noWrite rfl) rfl <| .cons (undisturbed_of_noWrite rfl) rfl <|
      .cons (undisturbed_of_wait4 ?_) rfl <| .cons (undisturbed_of_noWrite rfl) rfl <|
      .cons (undisturbed_of_noWrite rfl) rfl <| .cons (undisturbed_of_noWrite rfl) rfl <|
      .nil _, _, _, rfl, rfl, rfl⟩
    · -- nobody is inside a call yet
      rintro (_ | _ | u) c ⟨_, _, hc⟩ <;> cases hc
    · -- only the parent is
      rintro (_ | _ | u) c ⟨_, _, hc⟩ <;> cases hc
      rfl
  obtain ⟨k, hk, c, regs, hcall, hexit, hentered⟩ := hrun
  exact ⟨k, c, regs, hk, hcall, hexit, hentered, sysret_rsp_eq hk hcall hexit⟩

/-- Two programs: one blocks in a pipe read, the other writes to the pipe and then waits for the
keyboard. -/
def pipeRun : List Event :=
  [.launch 0 0x400000 0x1000, .launch 1 0x400000 0x2000,
   .dispatch 0, .enter { UserRegs.zero with rsp := 0xff8 } .pipeRead, .block,
   .dispatch 1, .enter { UserRegs.zero with rsp := 0x1ff0 } .pipeWrite, .wake 0,
   .finish (.ret 5) none, .enter { UserRegs.zero with rsp := 0x1fe0 } .ttyRead, .block,
   .dispatch 0]

/-- **The reader continues on the writer's stack.**  It entered its read with RSP `0xff8`, and the
normal exit loads `0x1fe0`, the RSP of the other program's last system call. -/
theorem pipeRead_returns_foreign_rsp :
    ((GuardedRun.exec step .boot pipeRun).bind fun k => k.currentCall.map fun tc =>
      (tc.1, tc.2.nr, tc.2.enteredRsp, (k.finish tc.1 tc.2 (.ret 5) none).1)) =
    some (0, .pipeRead, 0xff8, .sysret { UserRegs.zero with rax := 5, rsp := 0x1fe0 }) := by
  decide

end BananaOS.Sched
