import BananaOS.Proc.SignalFrame

/-!
# Which signal is delivered, and on which stack

`signal_check_deliver` chooses the lowest signal that is pending and not blocked before it looks at
the handler, so a signal that has lost its handler while pending holds up all higher ones.
`signal_setup_delivery` marks the alternate stack as in use before it knows that the frame can be
written, and `rt_sigreturn` takes the mark away only if the code that was interrupted had its own
stack pointer there.
-/

namespace BananaOS.Proc

open GuardedRun
open Sched (Word)

/-! ## Progress -/

/-- The signals that can be delivered. -/
def Task.unblocked (x : Task) : Word := x.sigPending &&& ~~~x.sigBlocked

/-- Signal `n` is pending, not blocked, and has a handler. -/
def Task.Awaits (x : Task) (n : ℕ) : Prop :=
  IsSignal n ∧ x.unblocked &&& sigBit n ≠ 0 ∧ sigIgnVal < x.sigHandler n

instance (x : Task) (n : ℕ) : Decidable (x.Awaits n) := inferInstanceAs (Decidable (_ ∧ _))

/-- Between `s` and `s'` the delivery of signal `n` to task `t` has been armed. -/
structure Arms (s s' : Sys) (t n : ℕ) : Prop where
  awaited : (s.tasks t).Awaits n
  handler : s'.sig.handler = (s.tasks t).sigHandler n
  request : s'.sig.request = true
  active : s'.sig.active = true
  taken : (s'.tasks t).sigPending = (s.tasks t).sigPending &&& ~~~sigBit n

section Progress

variable {s : Sys} {t : ℕ}

theorem lowestSig_pos {m : Word} {n : ℕ} (hn : IsSignal n) (h : m &&& sigBit n ≠ 0) :
    0 < lowestSig m := by
  unfold lowestSig
  rcases hf : (List.range' 1 63).find? fun i => decide (m &&& sigBit i ≠ 0) with _ | i
  · have hmem : n ∈ List.range' 1 63 := List.mem_range'_1.mpr hn
    exact absurd (decide_eq_true h) (List.find?_eq_none.mp hf n hmem)
  · exact (List.mem_range'_1.mp (List.mem_of_find?_eq_some hf)).1

theorem deliverable_of_handler (hc : s.currentTask = some t) (hidle : s.sig.active = false)
    (hlow : 0 < lowestSig (s.tasks t).unblocked)
    (hh : sigIgnVal < (s.tasks t).sigHandler (lowestSig (s.tasks t).unblocked)) :
    deliverable s = some (t, lowestSig (s.tasks t).unblocked) := by
  obtain ⟨⟨u, n⟩, hd⟩ := Option.ne_none_iff_exists'.mp
    ((deliverable_ne_none hc hidle).mpr ⟨hlow.ne', hh⟩)
  unfold deliverable at hd ⊢
  rw [hc] at hd ⊢
  dsimp only at hd ⊢
  split_ifs at hd ⊢
  rfl

theorem tasks_signalSetupDelivery (s : Sys) (t sig : ℕ) (userSp : Word) (writable : Bool) :
    (signalSetupDelivery s t sig userSp writable).tasks t =
      { s.tasks t with
        altstackOnstack := decide ((s.tasks t).usesAltstack sig) || (s.tasks t).altstackOnstack
        sigPending :=
          if writable then (s.tasks t).sigPending &&& ~~~sigBit sig else (s.tasks t).sigPending } := by
  unfold signalSetupDelivery
  by_cases h : (s.tasks t).usesAltstack sig
  · cases writable <;> simp [h, Sys.modifyTask]
  · cases writable <;> simp [h, Sys.modifyTask]

/-- **Progress of caught signals.**  If some signal awaits its handler and none is running, then the
end of a system call with a writable stack arms the delivery of such a signal exactly if the lowest
pending signal that is not blocked has a handler. -/
theorem awaited_delivered_iff (hc : s.currentTask = some t) (hidle : s.sig.active = false)
    (hsome : ∃ n, (s.tasks t).Awaits n) (userRsp : Word) :
    (∃ n, Arms s (signalCheckDeliver s userRsp true) t n) ↔
      sigIgnVal < (s.tasks t).sigHandler (lowestSig (s.tasks t).unblocked) := by
  obtain ⟨n, hn, hbit, -⟩ := hsome
  have hlow := lowestSig_pos hn hbit
  rw [signalCheckDeliver_eq]
  constructor
  · rintro ⟨m, harm⟩
    by_contra hh
    have hnone : deliverable s = none := by
      by_contra hd
      exact hh ((deliverable_ne_none hc hidle).mp hd).2
    rw [hnone] at harm
    exact absurd harm.active (by rw [hidle]; exact Bool.false_ne_true)
  · intro hh
    rw [deliverable_of_handler hc hidle hlow hh]
    dsimp only
    have hsig := signalSetupDelivery_sig s t (lowestSig (s.tasks t).unblocked) userRsp
    obtain ⟨h64, hmem⟩ := lowestSig_mem rfl hlow
    refine ⟨lowestSig (s.tasks t).unblocked, ⟨⟨hlow, h64⟩, hmem, hh⟩, ?_, ?_, ?_, ?_⟩
    · rw [hsig]
    · rw [hsig]
    · rw [hsig]
    · rw [tasks_signalSetupDelivery]
      rfl

end Progress

theorem awaited_delivered_iff_usr1 :
    ∃ n, Arms (twoHandlers 0) (signalCheckDeliver (twoHandlers 0) someRegs.rsp true) 1 n :=
  (awaited_delivered_iff (by decide +kernel) (by decide +kernel) ⟨10, by decide +kernel⟩ _).mpr
    (by decide +kernel)

/-- The handler of signal 10 runs.  Signal 2 gets a handler, is sent and loses the handler again,
signal 12 is sent, and the handler returns. -/
def lostHandler : Sys :=
  let action := fun s handler => (sysRtSigaction s 2 true (some (some ⟨handler, 0, 0⟩))).2
  let kill := fun s sig => (sysKill (fun _ _ _ => false) s 1 sig).2
  let s := action (kill (action (inHandler (twoHandlers 0)) 0x401000) 2) 0
  (sysRtSigreturn (kill s 12) 0x7FFFEF68 (some ⟨10, someRegs⟩)).2

/-- **Signal 12 awaits its handler, and the check does nothing**, since signal 2 comes first. -/
theorem lost_handler_stops_delivery :
    (lostHandler.tasks 1).Awaits 12 ∧ lostHandler.sig.active = false ∧
      lostHandler.currentTask = some 1 ∧
      ¬ ∃ n, Arms lostHandler (signalCheckDeliver lostHandler someRegs.rsp true) 1 n := by
  refine ⟨by decide +kernel, by decide +kernel, by decide +kernel, ?_⟩
  rintro ⟨n, harm⟩
  exact absurd harm.active (by decide +kernel)

/-! ## The alternate stack -/

/-- The kernel, and the handler that runs: whether its frame is on the alternate stack. -/
structure AltRun where
  sys : Sys
  running : Option Bool

/-- What concerns the alternate stack of a task. -/
inductive AltEvent where
  | sigaltstack (disable : Bool) (base size : Word)
  | rtSigaction (sig : Word) (oldOk : Bool) (act : Option (Option SigAction))
  /-- Signals arrive, are taken, blocked or unblocked. -/
  | masks (pending blocked : Word)
  | checkDeliver (userRsp : Word) (writable : Bool)
  | deliverNow (sig : ℕ) (faultRsp : Word) (writable : Bool)
  | rtSigreturn (userRsp : Word) (frame : Option SavedFrame)

def AltEvent.run (t : ℕ) (s : Sys) : AltEvent → Sys
  | .sigaltstack disable base size => sysSigaltstack s disable base size
  | .rtSigaction sig oldOk act => (sysRtSigaction s sig oldOk act).2
  | .masks pending blocked =>
    s.modifyTask t fun x => { x with sigPending := pending, sigBlocked := blocked }
  | .checkDeliver userRsp writable => signalCheckDeliver s userRsp writable
  | .deliverNow sig faultRsp writable => (signalDeliverNow s sig faultRsp writable).2
  | .rtSigreturn userRsp frame => (sysRtSigreturn s userRsp frame).2

/-- The signal whose frame is to be stored, and whether it can be. -/
def AltEvent.delivers (t : ℕ) (s : Sys) : AltEvent → Option (ℕ × Bool)
  | .checkDeliver _ writable => (deliverable s).map fun p => (p.2, writable)
  | .deliverNow sig _ writable => if DeliversNow s t sig then some (sig, writable) else none
  | _ => none

/-- The registers that are restored. -/
def AltEvent.restores : AltEvent → Option SavedFrame
  | .rtSigreturn _ frame => frame
  | _ => none

/-- A handler runs from the delivery of its signal to the next `rt_sigreturn`. -/
def AltRun.step (t : ℕ) (r : AltRun) (e : AltEvent) : Option AltRun :=
  some ⟨e.run t r.sys,
    match e.delivers t r.sys, e.restores with
    | some (sig, true), _ => some (decide ((r.sys.tasks t).usesAltstack sig))
    | none, some _ => none
    | _, _ => r.running⟩

/-- The stack pointer is in the alternate stack, as `sys_rt_sigreturn` tests it. -/
def Task.InAltstack (x : Task) (rsp : Word) : Prop :=
  0 < x.altstackSize ∧ x.altstackBase ≤ rsp ∧ rsp < x.altstackBase + x.altstackSize

instance (x : Task) (rsp : Word) : Decidable (x.InAltstack rsp) :=
  inferInstanceAs (Decidable (_ ∧ _))

/-- **The alternate stack is marked exactly while a handler runs on it**, so that the frame of every
other signal that asks for it is at its top. -/
structure AltstackTracked (t : ℕ) (r : AltRun) : Prop where
  marked : (r.sys.tasks t).altstackOnstack = true ↔ r.running = some true
  top : ∀ sig userSp, r.running ≠ some true → (r.sys.tasks t).sigFlags sig &&& saOnstack ≠ 0 →
    0 < (r.sys.tasks t).altstackSize → (r.sys.tasks t).frameAddr sig userSp =
      ((r.sys.tasks t).altstackBase + (r.sys.tasks t).altstackSize - sigframeSize) &&& ~~~0xF#64

/-- A frame for the alternate stack can be written, and a handler that runs there returns to code
that runs there too. -/
def KeepsTrack (t : ℕ) (r : AltRun) (e : AltEvent) : Prop :=
  (∀ p ∈ e.delivers t r.sys, (r.sys.tasks t).usesAltstack p.1 → p.2 = true) ∧
    ∀ f ∈ e.restores, (r.sys.tasks t).altstackOnstack = true →
      (r.sys.tasks t).InAltstack f.regs.rsp

instance (t : ℕ) (r : AltRun) (e : AltEvent) : Decidable (KeepsTrack t r e) :=
  inferInstanceAs (Decidable (_ ∧ _))

/-- The invariant: `t` has the CPU, and `syscall_sig_active` says that a handler runs. -/
structure AltInv (t : ℕ) (r : AltRun) : Prop where
  current : r.sys.currentTask = some t
  active : r.sys.sig.active = true ↔ r.running ≠ none
  marked : (r.sys.tasks t).altstackOnstack = true ↔ r.running = some true

section Altstack

variable {t : ℕ} {s : Sys} {r r' : AltRun} {e : AltEvent}

theorem AltInv.tracked (h : AltInv t r) : AltstackTracked t r := by
  refine ⟨h.marked, fun sig userSp hrun hflag hsize => if_pos ⟨hflag, hsize, ?_⟩⟩
  exact Bool.eq_false_iff.mpr (mt h.marked.mp hrun)

theorem delivery_effect {s₀ : Sys} (sig : ℕ) (hc : s₀.currentTask = some t)
    (hidle : s₀.sig.active = false) (userSp : Word) (writable : Bool) :
    (signalSetupDelivery s₀ t sig userSp writable).currentTask = some t ∧
      (signalSetupDelivery s₀ t sig userSp writable).sig.active = writable ∧
      ((signalSetupDelivery s₀ t sig userSp writable).tasks t).altstackOnstack =
        (decide ((s₀.tasks t).usesAltstack sig) || (s₀.tasks t).altstackOnstack) := by
  refine ⟨(edited_signalSetupDelivery ..).current.trans hc, ?_, ?_⟩
  · cases writable with
    | true => rw [signalSetupDelivery_sig]
    | false => rw [signalSetupDelivery_sig_false, hidle]
  · rw [tasks_signalSetupDelivery]

theorem AltEvent.run_of_delivers (hc : s.currentTask = some t) {sig : ℕ} {writable : Bool}
    (h : e.delivers t s = some (sig, writable)) :
    s.sig.active = false ∧ (e.run t s).currentTask = some t ∧
      (e.run t s).sig.active = writable ∧ ((e.run t s).tasks t).altstackOnstack =
        (decide ((s.tasks t).usesAltstack sig) || (s.tasks t).altstackOnstack) := by
  cases e with
  | checkDeliver userRsp w =>
    obtain ⟨⟨u, n⟩, hd, he⟩ := Option.map_eq_some_iff.mp h
    obtain ⟨rfl, rfl⟩ := Prod.mk.inj he
    obtain rfl := Option.some.inj ((deliverable_eq_some hd).1.symm.trans hc)
    have hidle : s.sig.active = false := by
      by_contra ha
      unfold deliverable at hd
      rw [hc] at hd
      simp [ha] at hd
    refine ⟨hidle, ?_⟩
    rw [AltEvent.run, signalCheckDeliver_eq, hd]
    exact delivery_effect _ hc hidle userRsp w
  | deliverNow n faultRsp w =>
    have hn : DeliversNow s t n := by
      by_contra hn
      rw [AltEvent.delivers, if_neg hn] at h
      cases h
    rw [AltEvent.delivers, if_pos hn] at h
    obtain ⟨rfl, rfl⟩ := Prod.mk.inj (Option.some.inj h)
    refine ⟨hn.2.1, ?_⟩
    rw [AltEvent.run, signalDeliverNow_of_delivers hc hn]
    have hc' : (s.modifyTask t (·.pend n)).currentTask = some t := hc
    have heff := delivery_effect n hc' hn.2.1 faultRsp w
    rw [tasks_modifyTask_self] at heff
    exact heff
  | _ => cases h

theorem AltEvent.run_of_restores (hc : s.currentTask = some t) {f : SavedFrame}
    (h : e.restores = some f) :
    e.delivers t s = none ∧ (e.run t s).currentTask = some t ∧ (e.run t s).sig.active = false ∧
      ((e.run t s).tasks t).altstackOnstack =
        if (s.tasks t).InAltstack f.regs.rsp then false else (s.tasks t).altstackOnstack := by
  cases e with
  | rtSigreturn userRsp frame =>
    obtain rfl : frame = some f := h
    refine ⟨rfl, (edited_sysRtSigreturn hc userRsp _).current.trans hc, ?_⟩
    unfold AltEvent.run sysRtSigreturn
    rw [hc]
    dsimp only
    rw [tasks_modifyTask_self]
    exact ⟨rfl, rfl⟩
  | _ => cases h

theorem AltEvent.run_of_neither (hc : s.currentTask = some t) (hd : e.delivers t s = none)
    (hr : e.restores = none) :
    (e.run t s).currentTask = some t ∧ (e.run t s).sig.active = s.sig.active ∧
      ((e.run t s).tasks t).altstackOnstack = (s.tasks t).altstackOnstack := by
  cases e with
  | sigaltstack disable base size =>
    refine ⟨(edited_sysSigaltstack hc disable base size).current.trans hc, ?_⟩
    unfold AltEvent.run sysSigaltstack
    rw [hc]
    dsimp only
    rw [tasks_modifyTask_self]
    cases disable <;> exact ⟨rfl, rfl⟩
  | rtSigaction sig oldOk act =>
    refine ⟨(edited_sysRtSigaction hc sig oldOk act).current.trans hc, ?_⟩
    unfold AltEvent.run sysRtSigaction
    rw [hc]
    dsimp only
    split_ifs
    any_goals exact ⟨rfl, rfl⟩
    rcases act with _ | _ | a
    · exact ⟨rfl, rfl⟩
    · exact ⟨rfl, rfl⟩
    · dsimp only
      rw [tasks_modifyTask_self]
      exact ⟨rfl, rfl⟩
  | masks pending blocked =>
    refine ⟨hc, rfl, ?_⟩
    rw [AltEvent.run, tasks_modifyTask_self]
  | checkDeliver userRsp w =>
    rw [AltEvent.run, signalCheckDeliver_eq, Option.map_eq_none_iff.mp hd]
    exact ⟨hc, rfl, rfl⟩
  | deliverNow n faultRsp w =>
    rcases signalDeliverNow_cases hc n faultRsp w with hnow | ⟨hdel, -⟩
    · rw [AltEvent.run, hnow]
      exact ⟨hc, rfl, rfl⟩
    · rw [AltEvent.delivers, if_pos hdel] at hd
      cases hd
  | rtSigreturn userRsp frame =>
    obtain rfl : frame = none := hr
    unfold AltEvent.run sysRtSigreturn
    rw [hc]
    exact ⟨hc, rfl, rfl⟩

theorem AltInv.idle (h : AltInv t r) {p : ℕ × Bool} (hd : e.delivers t r.sys = some p) :
    r.running = none ∧ (r.sys.tasks t).altstackOnstack = false := by
  have hidle := (AltEvent.run_of_delivers h.current hd).1
  have hnone : r.running = none := by
    by_contra hrun
    exact Bool.false_ne_true (hidle.symm.trans (h.active.mpr hrun))
  refine ⟨hnone, ?_⟩
  rw [Bool.eq_false_iff, Ne, h.marked, hnone]
  exact (Option.some_ne_none true).symm

theorem AltInv.step (h : AltInv t r) (hok : KeepsTrack t r e) (hstep : r.step t e = some r') :
    AltInv t r' := by
  obtain rfl := Option.some.inj hstep
  rcases hd : e.delivers t r.sys with _ | ⟨sig, w⟩
  · rcases hr : e.restores with _ | f
    · obtain ⟨hc, ha, hm⟩ := AltEvent.run_of_neither h.current hd hr
      refine ⟨hc, ?_, ?_⟩
      · rw [ha]
        exact h.active
      · rw [hm]
        exact h.marked
    · obtain ⟨-, hc, ha, hm⟩ := AltEvent.run_of_restores h.current hr
      refine ⟨hc, ?_, ?_⟩
      · simp [ha]
      · have hnest := hok.2 f hr
        rw [hm]
        split_ifs with hin
        · simp
        · simpa using fun hon => hin (hnest hon)
  · obtain ⟨-, hc, ha, hm⟩ := AltEvent.run_of_delivers h.current hd
    obtain ⟨hnone, hoff⟩ := h.idle hd
    rw [hoff, Bool.or_false] at hm
    have hstored := hok.1 (sig, w) hd
    cases w with
    | true =>
      refine ⟨hc, ?_, ?_⟩
      · simp [ha]
      · simp [hm]
    | false =>
      refine ⟨hc, ?_, ?_⟩
      · simp [ha, hnone]
      · simpa [hm, hnone] using fun hu => Bool.false_ne_true (hstored hu)

theorem AltInv.lost (h : AltInv t r) (hbad : ¬ KeepsTrack t r e) (hstep : r.step t e = some r') :
    ¬ AltstackTracked t r' := by
  obtain rfl := Option.some.inj hstep
  intro htr
  have hmark := htr.marked
  refine hbad ⟨?_, fun f hr hon => ?_⟩
  · rintro ⟨sig, w⟩ hd hu
    -- the mark is set, and without a frame no handler starts
    obtain ⟨-, -, -, hm⟩ := AltEvent.run_of_delivers h.current hd
    rw [Option.mem_def.mp hd, hm, decide_eq_true hu, (h.idle hd).1] at hmark
    cases w with
    | true => rfl
    | false => simp at hmark
  · obtain ⟨hd, -, -, hm⟩ := AltEvent.run_of_restores h.current hr
    by_contra hout
    rw [hd, Option.mem_def.mp hr, hm, if_neg hout, hon] at hmark
    simp at hmark

/-- **The alternate stack.**  From any state in which the mark is right, a run of the calls and
deliveries of one task keeps it right at every step exactly if every frame for the alternate stack
can be written, and every handler that runs there returns to code that runs there. -/
theorem altstack_tracked_iff {r₀ : AltRun} {es : List AltEvent} (h₀ : AltInv t r₀)
    (hrun : Run (AltRun.step t) (fun _ _ => True) r₀ es r) :
    Run (AltRun.step t) (fun r e => ∀ r', r.step t e = some r' → AltstackTracked t r') r₀ es r ↔
      Run (AltRun.step t) (KeepsTrack t) r₀ es r :=
  Run.safe_iff (fun _ h => h.tracked) (fun _ _ _ h hok hstep => h.step hok hstep)
    (fun _ _ _ h hbad hstep => h.lost hbad hstep) hrun h₀

end Altstack

/-- The process has just installed its first handler. -/
def altStart : AltRun := ⟨handlerForUsr1, none⟩

theorem altStart_inv : AltInv 1 altStart :=
  ⟨by decide +kernel, by decide +kernel, by decide +kernel⟩

/-- It sets an alternate stack, asks for it in its handler, and signal 10 arrives. -/
def onAltstack : List AltEvent :=
  [.sigaltstack false 0x700000 0x4000, .rtSigaction 10 true (some (some ⟨0x401000, saOnstack, 0⟩)),
    .masks (sigBit 10) 0]

/-- The handler runs, and returns to this stack pointer. -/
def handled (rsp : Word) : List AltEvent :=
  [.checkDeliver rsp true, .rtSigreturn 0x703F78 (some ⟨10, { someRegs with rsp := rsp }⟩)]

theorem altstack_tracked_iff_nested : ∃ r,
    Run (AltRun.step 1) (fun r e => ∀ r', r.step 1 e = some r' → AltstackTracked 1 r') altStart
      (onAltstack ++ handled 0x701000) r := by
  have hkeep : ∃ r, Run (AltRun.step 1) (KeepsTrack 1) altStart (onAltstack ++ handled 0x701000) r ∧
      True := exists_run (by decide +kernel)
  obtain ⟨r, hr, -⟩ := hkeep
  exact ⟨r, (altstack_tracked_iff altStart_inv (hr.mono fun _ _ _ => trivial)).mpr hr⟩

/-- No handler runs, but the mark is set, and the next frame goes to the ordinary stack. -/
def Stale (r : AltRun) : Prop :=
  r.running = none ∧ (r.sys.tasks 1).altstackOnstack = true ∧
    (r.sys.tasks 1).frameAddr 10 0x7FFFF000 = 0x7FFFEF70

instance : DecidablePred Stale := fun _ => inferInstanceAs (Decidable (_ ∧ _))

/-- **The mark stays** after a handler has returned to the ordinary stack, and after a frame could
not be written. -/
theorem altstack_mark_stays :
    (∃ r, Run (AltRun.step 1) (fun _ _ => True) altStart (onAltstack ++ handled 0x7FFFF000) r ∧
      Stale r) ∧
    ∃ r, Run (AltRun.step 1) (fun _ _ => True) altStart
      (onAltstack ++ [.checkDeliver 0x7FFFF000 false]) r ∧ Stale r :=
  ⟨exists_run (by decide +kernel), exists_run (by decide +kernel)⟩

end BananaOS.Proc
