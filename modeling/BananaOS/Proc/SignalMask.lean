import BananaOS.Proc.Signal

/-!
# Signal numbers at the system call boundary

A set of signals that a program passes by pointer is a word in which signal `n` is bit `n - 1`: that
is the ABI of the C libraries that run on this kernel.  Inside the kernel signal `n` is bit `n`, in
`sig_pending`, in `sig_blocked` and in every test of them.  `rt_sigprocmask`, `rt_sigpending` and
`rt_sigtimedwait` copy the words in and out as they are, so each side reads the other's sets shifted
by one.
-/

namespace BananaOS.Proc

open Function

open Sched (WaitKind Word)

/-! ## The sets of the ABI -/

/-- Signal `n` is in the set that the word stands for in a user program. -/
def InSet (w : Word) (n : ℕ) : Prop := w.getLsbD (n - 1) = true

instance (w : Word) (n : ℕ) : Decidable (InSet w n) := inferInstanceAs (Decidable (_ = _))

/-- The three operations of `rt_sigprocmask`. -/
inductive How where
  | block
  | unblock
  | setmask

def How.code : How → Word
  | .block => 0
  | .unblock => 1
  | .setmask => 2

def How.apply (old set : Word) : How → Word
  | .block => old ||| set
  | .unblock => old &&& ~~~set
  | .setmask => set

/-- A call of `rt_sigprocmask`, with what the memory of the program answers. -/
structure MaskCall where
  how : How
  oldOk : Bool
  set : Option (Option Word)

def MaskCall.run (s : Sys) (c : MaskCall) : Sys := (sysRtSigprocmask s c.how.code c.oldOk c.set).2

def MaskCall.define (mask : Word) (c : MaskCall) : Word :=
  match c.oldOk, c.set with
  | true, some (some w) => c.how.apply mask w
  | _, _ => mask

/-- The word that `sys_rt_sigprocmask` stores as the old mask. -/
def oldMask (s : Sys) : Option Word := s.currentTask.map fun t => (s.tasks t).sigBlocked

/-- The word that `sys_rt_sigpending` stores. -/
def sysRtSigpending (s : Sys) : Option Word :=
  s.currentTask.map fun t => (s.tasks t).sigPending &&& (s.tasks t).sigBlocked

/-- The two bits that `sys_rt_sigprocmask` clears. -/
def neverBlocked : Word := sigBit sigKill ||| sigBit sigStop

/-! ## The calls -/

section

variable {s : Sys} {t n : ℕ}

theorem getLsbD_neverBlocked (n : ℕ) :
    neverBlocked.getLsbD n = decide (n = sigKill ∨ n = sigStop) := by
  rw [neverBlocked, BitVec.getLsbD_or, getLsbD_sigBit, getLsbD_sigBit, Bool.decide_or]
  congr 1 <;> exact decide_eq_decide.mpr ⟨fun h => h.2.symm, fun h => ⟨by decide, h.symm⟩⟩

theorem newMask_clear (how : How) (mask set : Word) :
    newMask how.code (mask &&& ~~~neverBlocked) set = how.apply mask set &&& ~~~neverBlocked := by
  refine BitVec.eq_of_getLsbD_eq fun i hi => ?_
  rw [newMask, ← neverBlocked]
  cases how <;> simp only [How.code, How.apply, BitVec.getLsbD_and, BitVec.getLsbD_or,
    BitVec.getLsbD_not, hi, decide_true, Bool.true_and, if_true, if_false,
    show ¬ (1 : Word) = 0 by decide, show ¬ (2 : Word) = 0 by decide,
    show ¬ (2 : Word) = 1 by decide]
  · cases mask.getLsbD i <;> cases set.getLsbD i <;> cases neverBlocked.getLsbD i <;> rfl
  · cases mask.getLsbD i <;> cases set.getLsbD i <;> cases neverBlocked.getLsbD i <;> rfl

theorem MaskCall.run_spec {mask : Word} (hc : s.currentTask = some t)
    (hm : (s.tasks t).sigBlocked = mask &&& ~~~neverBlocked) (c : MaskCall) :
    (c.run s).currentTask = some t ∧
      ((c.run s).tasks t).sigBlocked = c.define mask &&& ~~~neverBlocked := by
  obtain ⟨how, oldOk, set⟩ := c
  simp only [MaskCall.run, sysRtSigprocmask, hc, MaskCall.define]
  rcases oldOk with _ | _
  · exact ⟨hc, hm⟩
  · rcases set with _ | _ | w
    · exact ⟨hc, hm⟩
    · exact ⟨hc, hm⟩
    · refine ⟨hc, ?_⟩
      simp only [Sys.modifyTask, update_self, Bool.true_eq_false, if_false]
      rw [hm, newMask_clear]

theorem foldl_run_spec (calls : List MaskCall) : ∀ {s : Sys} {mask : Word},
    s.currentTask = some t → (s.tasks t).sigBlocked = mask &&& ~~~neverBlocked →
    (calls.foldl MaskCall.run s).currentTask = some t ∧
      ((calls.foldl MaskCall.run s).tasks t).sigBlocked =
        calls.foldl MaskCall.define mask &&& ~~~neverBlocked := by
  induction calls with
  | nil => exact fun hc hm => ⟨hc, hm⟩
  | cons c calls ih =>
    intro s mask hc hm
    obtain ⟨hc', hm'⟩ := c.run_spec hc hm
    exact ih hc' hm'

/-! ## What the kernel makes of its own mask -/

/-- **The kernel treats signal `n` as blocked, or does not**, for a task with this mask that has a
handler for it: at a fault, at the end of a system call, and when the signal is sent. -/
structure TreatsAs (mask : Word) (n : ℕ) (blocked : Prop) : Prop where
  fault : ∀ s t rsp writable, s.currentTask = some t → (s.tasks t).sigBlocked = mask →
    s.sig.active = false → sigIgnVal < (s.tasks t).sigHandler n →
      ((signalDeliverNow s n rsp writable).1 = false ↔ blocked)
  sysret : ∀ s t rsp, s.currentTask = some t → (s.tasks t).sigBlocked = mask →
    s.sig.active = false → s.sig.request = false → sigIgnVal < (s.tasks t).sigHandler n →
    (s.tasks t).sigPending = sigBit n →
      ((signalCheckDeliver s rsp true).sig.request = false ↔ blocked)
  sent : ∀ wk s t, (s.tasks t).sigBlocked = mask → sigIgnVal < (s.tasks t).sigHandler n →
    ¬ Pending s t n → (¬ Pending (killOneTask wk s t n) t n ↔ blocked)

theorem sigBit_and_not (mask : Word) :
    sigBit n &&& ~~~mask = if mask.getLsbD n = true then 0 else sigBit n := by
  refine BitVec.eq_of_getLsbD_eq fun i hi => ?_
  rw [BitVec.getLsbD_and, getLsbD_sigBit, BitVec.getLsbD_not, decide_eq_true hi, Bool.true_and]
  by_cases h : n = i
  · subst h
    rcases hm : mask.getLsbD n with _ | _
    · rw [if_neg Bool.false_ne_true, getLsbD_sigBit, Bool.not_false, Bool.and_true]
    · rw [if_pos rfl, Bool.not_true, Bool.and_false]
      exact BitVec.getLsbD_zero.symm
  · rw [decide_eq_false fun hd => h hd.2, Bool.false_and]
    split_ifs
    · exact BitVec.getLsbD_zero.symm
    · rw [getLsbD_sigBit, decide_eq_false fun hd => h hd.2]

section

variable (hn : IsSignal n)

include hn

theorem lowestSig_sigBit : lowestSig (sigBit n) = n := by
  have hbit : ∀ i, sigBit n &&& sigBit i ≠ 0 → i < 64 → n = i := by
    intro i hi h64
    rw [and_sigBit_ne_zero h64, getLsbD_sigBit, decide_eq_true_iff] at hi
    exact hi.2
  have hself : sigBit n &&& sigBit n ≠ 0 := by
    rw [and_sigBit_ne_zero hn.2, getLsbD_sigBit, decide_eq_true_iff]
    exact ⟨hn.2, rfl⟩
  rw [lowestSig]
  rcases hf : (List.range' 1 63).find? fun i => decide (sigBit n &&& sigBit i ≠ 0) with _ | i
  · have hmem : n ∈ List.range' 1 63 := List.mem_range'_1.mpr ⟨hn.1, hn.2⟩
    exact absurd (decide_eq_true hself) (List.find?_eq_none.mp hf n hmem)
  · have hmem := List.mem_range'_1.mp (List.mem_of_find?_eq_some hf)
    have hi := List.find?_some hf
    exact (hbit i (of_decide_eq_true hi) hmem.2).symm

theorem signalDeliverNow_eq_false_iff (rsp : Word) (writable : Bool)
    (hc : s.currentTask = some t) (ha : s.sig.active = false)
    (hh : sigIgnVal < (s.tasks t).sigHandler n) :
    (signalDeliverNow s n rsp writable).1 = false ↔ (s.tasks t).sigBlocked.getLsbD n = true := by
  rw [← and_sigBit_ne_zero hn.2]
  simp only [signalDeliverNow, hc, ha, if_neg (not_not.mpr hn), if_neg (BitVec.not_le.mpr hh),
    Bool.false_eq_true, if_false]
  split_ifs with hb
  · exact iff_of_true rfl hb
  · exact iff_of_false not_false hb

theorem signalCheckDeliver_request_iff (rsp : Word)
    (hc : s.currentTask = some t) (ha : s.sig.active = false) (hr : s.sig.request = false)
    (hh : sigIgnVal < (s.tasks t).sigHandler n) (hp : (s.tasks t).sigPending = sigBit n) :
    (signalCheckDeliver s rsp true).sig.request = false ↔
      (s.tasks t).sigBlocked.getLsbD n = true := by
  simp only [signalCheckDeliver, hc, ha, hp, sigBit_and_not, Bool.false_eq_true, if_false]
  by_cases hb : (s.tasks t).sigBlocked.getLsbD n = true
  · rw [if_pos hb, if_pos rfl]
    exact iff_of_true hr hb
  · have h0 : sigBit n ≠ 0 := by
      intro h
      have hbit := congrArg (·.getLsbD n) h
      simp only [getLsbD_sigBit, hn.2, true_and, decide_true] at hbit
      exact absurd hbit (by simp)
    rw [if_neg hb, if_neg h0, lowestSig_sigBit hn, if_neg hn.1.ne',
      if_neg (BitVec.not_le.mpr hh)]
    exact iff_of_false Bool.noConfusion hb

theorem killOneTask_pending_iff (hk : n ≠ sigKill) (hst : n ≠ sigStop)
    (wk : ℕ → WaitKind → Word → Bool) (hh : sigIgnVal < (s.tasks t).sigHandler n)
    (hp : ¬ Pending s t n) :
    ¬ Pending (killOneTask wk s t n) t n ↔ (s.tasks t).sigBlocked.getLsbD n = true := by
  rw [Pending, and_sigBit_ne_zero hn.2] at hp ⊢
  by_cases hb : (s.tasks t).sigBlocked.getLsbD n = true
  · rw [(sigKept_killOneTask hn.2 wk s t t n).pending hb]
    exact ⟨fun _ => hb, fun _ => hp⟩
  · have hcaught : Caught (s.tasks t) n := by
      refine ⟨hk, hst, hh, ?_⟩
      rwa [← and_sigBit_ne_zero hn.2, not_not] at hb
    have hbit : ((s.tasks t).pend n).sigPending.getLsbD n = true := by
      rw [Task.pend, BitVec.getLsbD_or, getLsbD_sigBit, decide_eq_true ⟨hn.2, rfl⟩, Bool.or_true]
    have hpend : ((s.modifyTask t (·.pend n)).tasks t) = (s.tasks t).pend n :=
      update_self _ _ _
    refine iff_of_false (not_not.mpr ?_) hb
    rw [killOneTask_of_caught hn hcaught]
    split_ifs
    · rw [((quiet_schedWake _ t).tasks t).sigPending_eq, hpend]
      exact hbit
    · rw [hpend]
      exact hbit

theorem treatsAs_iff (hk : n ≠ sigKill) (hst : n ≠ sigStop) {mask : Word}
    {blocked : Prop} : TreatsAs mask n blocked ↔ (mask.getLsbD n = true ↔ blocked) := by
  constructor
  · intro h
    -- a task with this mask and a handler for every signal
    obtain ⟨s, hc, hm, ha, hh⟩ : ∃ s : Sys, s.currentTask = some 0 ∧
        (s.tasks 0).sigBlocked = mask ∧ s.sig.active = false ∧
        sigIgnVal < (s.tasks 0).sigHandler n :=
      ⟨{ blankSys with
          currentTask := some 0
          tasks := fun _ => { blankTask with sigBlocked := mask, sigHandler := fun _ => 2 } },
        rfl, rfl, rfl, show (1 : Word) < 2 by decide⟩
    rw [← h.fault s 0 0 true hc hm ha hh, signalDeliverNow_eq_false_iff hn 0 true hc ha hh, hm]
  · intro h
    refine ⟨fun s t rsp writable hc hm ha hh => ?_, fun s t rsp hc hm ha hr hh hp => ?_,
      fun wk s t hm hh hp => ?_⟩
    · rw [signalDeliverNow_eq_false_iff hn rsp writable hc ha hh, hm, h]
    · rw [signalCheckDeliver_request_iff hn rsp hc ha hr hh hp, hm, h]
    · rw [killOneTask_pending_iff hn hk hst wk hh hp, hm, h]

end

/-! ## The boundary -/

/-- **Signal `n` keeps its number at the boundary**: for task `t` in state `s`, where `mask` is the
mask the task has defined, and `set` is what it then waits for. -/
structure NumbersAgree (s : Sys) (t n : ℕ) (mask set : Word) : Prop where
  treated : TreatsAs (s.tasks t).sigBlocked n (InSet mask n)
  reported : ∀ w, oldMask s = some w → (InSet w n ↔ InSet mask n)
  pending : ∀ w, sysRtSigpending s = some w → (InSet w n ↔ Pending s t n ∧ InSet mask n)
  /-- The call returns the signal at once if it is the one that is pending. -/
  waited : ∀ deadline now, (sysRtSigtimedwait
      (s.modifyTask t fun x => { x with sigPending := sigBit n }) (some set) deadline now).1 =
    .done n ↔ InSet set n

structure NeighboursAgree (pending mask set : Word) (n : ℕ) : Prop where
  masked : InSet mask (n + 1) ↔ InSet mask n
  cleared : InSet mask n → n ≠ sigKill + 1 ∧ n ≠ sigStop + 1
  pended : InSet mask n → (InSet pending (n + 1) ↔ InSet pending n)
  awaited : InSet set n ↔ InSet set (n + 1) ∧ ¬ InSet mask (n + 1)

theorem inSet_and {v w : Word} : InSet (v &&& w) n ↔ InSet v n ∧ InSet w n := by
  rw [InSet, BitVec.getLsbD_and, Bool.and_eq_true, InSet, InSet]

theorem inSet_clear (hn : IsSignal n) {mask : Word} :
    InSet (mask &&& ~~~neverBlocked) n ↔ InSet mask n ∧ n ≠ sigKill + 1 ∧ n ≠ sigStop + 1 := by
  have hlt : n - 1 < 64 := by have := hn.2; omega
  have hpos := hn.1
  rw [inSet_and, InSet, InSet, BitVec.getLsbD_not, decide_eq_true hlt, Bool.true_and,
    getLsbD_neverBlocked, Bool.not_eq_true', decide_eq_false_iff_not, not_or]
  refine and_congr_right fun _ => and_congr (not_congr ?_) (not_congr ?_)
  · exact ⟨fun h => by omega, fun h => by omega⟩
  · exact ⟨fun h => by omega, fun h => by omega⟩

theorem sysRtSigtimedwait_eq_done_iff (hn : IsSignal n) (hk : n ≠ sigKill) (hst : n ≠ sigStop)
    (hc : s.currentTask = some t) (set : Word) (deadline now : ℕ) :
    (sysRtSigtimedwait (s.modifyTask t fun x => { x with sigPending := sigBit n }) (some set)
      deadline now).1 = .done n ↔
    InSet set (n + 1) ∧ (s.tasks t).sigBlocked.getLsbD n = false := by
  have htask : ((s.modifyTask t fun x => { x with sigPending := sigBit n }).tasks t) =
      { s.tasks t with sigPending := sigBit n } := update_self _ _ _
  have hcur : (s.modifyTask t fun x => { x with sigPending := sigBit n }).currentTask = some t := hc
  have hwant : (sigtimedWanted (s.tasks t) set).getLsbD n = true ↔
      InSet set (n + 1) ∧ (s.tasks t).sigBlocked.getLsbD n = false := by
    rw [sigtimedWanted, show sigBit 9 ||| sigBit 19 = neverBlocked from rfl, BitVec.getLsbD_and,
      BitVec.getLsbD_and, BitVec.getLsbD_not, BitVec.getLsbD_not, getLsbD_neverBlocked,
      decide_eq_true hn.2, decide_eq_false (not_or.mpr ⟨hk, hst⟩)]
    simp [InSet]
  simp only [sysRtSigtimedwait, hcur]
  rw [htask, show sigtimedWanted { s.tasks t with sigPending := sigBit n } set =
    sigtimedWanted (s.tasks t) set from rfl, ← hwant]
  by_cases hw : (sigtimedWanted (s.tasks t) set).getLsbD n = true
  · refine iff_of_true ?_ hw
    have hm : sigBit n &&& sigtimedWanted (s.tasks t) set = sigBit n := by
      have h := sigBit_and_not (n := n) (~~~sigtimedWanted (s.tasks t) set)
      rw [BitVec.not_not, BitVec.getLsbD_not, hw, if_neg (by simp)] at h
      exact h
    have h0 : sigBit n ≠ 0 := by
      intro h
      have hbit := congrArg (·.getLsbD n) h
      simp only [getLsbD_sigBit, hn.2, true_and, decide_true] at hbit
      exact absurd hbit (by simp)
    simp only [sigtimedRound, htask, hm, if_pos h0, lowestSig_sigBit hn]
  · refine iff_of_false (sigtimedRound_ne _ hn ?_ deadline now) hw
    rwa [← and_sigBit_ne_zero hn.2, not_not] at hw

/-- **The numbers agree exactly if the neighbours do**, after every sequence of calls, for every
signal that can be blocked, whatever is pending and waited for. -/
theorem signal_numbers_agree_iff (s₀ : Sys) (calls : List MaskCall) (set : Word)
    (hc₀ : s₀.currentTask = some t) (hm₀ : (s₀.tasks t).sigBlocked &&& neverBlocked = 0)
    (hc : s.currentTask = some t)
    (hm : (s.tasks t).sigBlocked = ((calls.foldl MaskCall.run s₀).tasks t).sigBlocked)
    (hn : IsSignal n) (hk : n ≠ sigKill) (hst : n ≠ sigStop) :
    NumbersAgree s t n (calls.foldl MaskCall.define (s₀.tasks t).sigBlocked) set ↔
      NeighboursAgree (s.tasks t).sigPending
        (calls.foldl MaskCall.define (s₀.tasks t).sigBlocked) set n := by
  have hclear : (s₀.tasks t).sigBlocked = (s₀.tasks t).sigBlocked &&& ~~~neverBlocked := by
    refine BitVec.eq_of_getLsbD_eq fun i hi => ?_
    have hbit := congrArg (·.getLsbD i) hm₀
    simp only [BitVec.getLsbD_and] at hbit
    rw [show (0 : Word) = 0#64 from rfl, BitVec.getLsbD_zero] at hbit
    rw [BitVec.getLsbD_and, BitVec.getLsbD_not, decide_eq_true hi, Bool.true_and]
    revert hbit
    cases (s₀.tasks t).sigBlocked.getLsbD i <;> cases neverBlocked.getLsbD i <;> simp
  rw [(foldl_run_spec calls hc₀ hclear).2] at hm
  generalize calls.foldl MaskCall.define (s₀.tasks t).sigBlocked = mask at hm ⊢
  have hbit : (s.tasks t).sigBlocked.getLsbD n = true ↔ InSet mask (n + 1) := by
    rw [hm, BitVec.getLsbD_and, BitVec.getLsbD_not, getLsbD_neverBlocked, decide_eq_true hn.2,
      decide_eq_false (not_or.mpr ⟨hk, hst⟩)]
    simp [InSet]
  have hpend : Pending s t n ↔ InSet (s.tasks t).sigPending (n + 1) :=
    and_sigBit_ne_zero hn.2 _
  have hold : oldMask s = some (mask &&& ~~~neverBlocked) := by rw [oldMask, hc, ← hm]; rfl
  have hsp : sysRtSigpending s = some ((s.tasks t).sigPending &&& (mask &&& ~~~neverBlocked)) := by
    rw [sysRtSigpending, hc, ← hm]
    rfl
  have hwait := sysRtSigtimedwait_eq_done_iff hn hk hst hc set
  rw [← Bool.not_eq_true, hbit] at hwait
  constructor
  · intro h
    have htreat := (treatsAs_iff hn hk hst).mp h.treated
    rw [hbit] at htreat
    have hrep := h.reported _ hold
    rw [inSet_clear hn] at hrep
    have hp := h.pending _ hsp
    rw [inSet_and, inSet_clear hn, hpend] at hp
    refine ⟨htreat, fun hi => (hrep.mpr hi).2, fun hi => ?_, ?_⟩
    · constructor
      · exact fun hq => (hp.mpr ⟨hq, hi⟩).1
      · exact fun hq => (hp.mp ⟨hq, hrep.mpr hi⟩).1
    · rw [← h.waited 0 0, hwait 0 0]
  · intro h
    refine ⟨(treatsAs_iff hn hk hst).mpr (hbit.trans h.masked), fun w hw => ?_, fun w hw => ?_,
      fun deadline now => (hwait deadline now).trans h.awaited.symm⟩
    · cases hold.symm.trans hw
      rw [inSet_clear hn]
      exact ⟨fun hi => hi.1, fun hi => ⟨hi, h.cleared hi⟩⟩
    · cases hsp.symm.trans hw
      rw [inSet_and, inSet_clear hn, hpend]
      constructor
      · exact fun ⟨hq, hi, _⟩ => ⟨(h.pended hi).mpr hq, hi⟩
      · exact fun ⟨hq, hi⟩ => ⟨(h.pended hi).mp hq, hi, h.cleared hi⟩

def handlersForIntr : Sys :=
  (sysRtSigaction (sysRtSigaction (schedNext (schedSpawnProcess (schedInit blankSys) true).2).2 1
    true (some (some ⟨0x401000, 0, 0⟩))).2 2 true (some (some ⟨0x401000, 0, 0⟩))).2

def blocking (w : Word) : List MaskCall := [⟨.block, true, some (some w)⟩]

/-- If the process blocks signals 2 and 3, signal 2 is blocked. -/
theorem signal_numbers_agree_two_three :
    NumbersAgree ((blocking 0b110).foldl MaskCall.run handlersForIntr) 1 2 0b110 0 :=
  (signal_numbers_agree_iff handlersForIntr (blocking 0b110) 0 (by decide) (by decide) (by decide)
    rfl (by decide) (by decide) (by decide)).mpr
    ⟨by decide, by decide, by decide, by decide⟩

/-- **If it blocks signal 2 alone**, the mask is reported as the word it passed, but signal 2 is
taken when it is sent, and signal 1, which it did not block, ends the process. -/
theorem blocks_the_neighbour :
    let s := (blocking 0b10).foldl MaskCall.run handlersForIntr
    let mask := (blocking 0b10).foldl MaskCall.define (handlersForIntr.tasks 1).sigBlocked
    handlersForIntr.currentTask = some 1 ∧ (handlersForIntr.tasks 1).sigBlocked = 0 ∧
      InSet mask 2 ∧ ¬ InSet mask 1 ∧ oldMask s = some 0b10 ∧
      (signalDeliverNow s 2 0x7ffff000 true).1 = true ∧
      Pending (killOneTask (fun _ _ _ => false) s 1 2) 1 2 ∧
      (signalDeliverNow s 1 0x7ffff000 true).1 = false ∧
      ((killOneTask (fun _ _ _ => false) s 1 1).tasks 1).state = .zombie := by
  unfold Pending
  decide +kernel

end

end BananaOS.Proc
