import BananaOS.Proc.Signal

/-!
# Sleeping

`sys_nanosleep` blocks until its deadline.  The two pollers of the main loop wake it, one at the
deadline and one for a pending signal, and it does not ask which: it reports an interruption if a
signal is pending and the caller wants the remaining time, and success otherwise.
-/

namespace BananaOS.Proc

open Sched (WaitKind Word)

/-- `timespec_to_ms`, for seconds and nanoseconds that could be read. -/
def timespecToMs (sec nsec : Word) : Word := sec * 1000 + nsec / 1000000

/-- `sys_nanosleep`, up to its return or to `sched_block_and_switch`; `req` is `none` if it cannot be
read, `start` is the time. -/
def sysNanosleep (s : Sys) (req : Option (Word × Word)) (start : Word) : Waited × Sys :=
  match s.currentTask, req with
  | some _, some (sec, nsec) =>
    if timespecToMs sec nsec = 0 then (.done 0, s)
    else (.blocked, schedBlockAndSwitch s .time (start + timespecToMs sec nsec))
  | _, _ => (.done (-14), s)

/-- The rest of it, when the task goes on: the result, and the two words stored at `rem`, which is
`none` for a null pointer and otherwise says whether it can be written. -/
def nanosleepResume (x : Task) (deadline now : Word) (rem : Option Bool) :
    ℤ × Option (Word × Word) :=
  let left := if (deadline - now).toInt < 0 then 0 else deadline - now
  match rem with
  | none => (0, none)
  | some writable =>
    if x.sigPending &&& ~~~x.sigBlocked = 0 then (0, none)
    else if writable then (-4, some (left / 1000, left % 1000 * 1000000))
    else (-14, none)

/-- A call of task `t`, from state `s` on; where it blocks, it goes on in state `s'`. -/
structure Nap where
  s : Sys
  t : ℕ
  sec : Word
  nsec : Word
  start : Word
  s' : Sys
  now : Word
  rem : Option Bool

namespace Nap

variable (c : Nap)

/-- What the call returns and stores. -/
def result : ℤ × Option (Word × Word) :=
  match (sysNanosleep c.s (some (c.sec, c.nsec)) c.start).1 with
  | .done r => (r, none)
  | .blocked =>
    nanosleepResume (c.s'.tasks c.t) (c.start + timespecToMs c.sec c.nsec) c.now c.rem

/-- The whole milliseconds asked for. -/
def requested : ℕ := c.sec.toNat * 1000 + c.nsec.toNat / 1000000

def elapsed : ℕ :=
  if (sysNanosleep c.s (some (c.sec, c.nsec)) c.start).1 = .blocked then
    c.now.toNat - c.start.toNat
  else 0

/-- **The contract**: success only after the time asked for; a call that ends earlier says that it
was interrupted, and stores the time that is left. -/
structure Ok : Prop where
  slept : c.result.1 = 0 → c.requested ≤ c.elapsed
  interrupted : c.elapsed < c.requested → c.result.1 = -4 ∧ (c.rem ≠ none →
    ∃ p, c.result.2 = some p ∧ p.1.toNat = (c.requested - c.elapsed) / 1000 ∧
      p.2.toNat = (c.requested - c.elapsed) % 1000 * 1000000)

/-- A signal is pending when the task goes on, and the time that is left can be stored as a signed
number of milliseconds at a pointer that is not null. -/
def Reports : Prop :=
  timespecToMs c.sec c.nsec ≠ 0 ∧ c.rem = some true ∧
    (c.s'.tasks c.t).sigPending &&& ~~~(c.s'.tasks c.t).sigBlocked ≠ 0 ∧
    c.requested - c.elapsed < 2 ^ 63

variable {c}

theorem toNat_timespecToMs : (timespecToMs c.sec c.nsec).toNat = c.requested % 2 ^ 64 := by
  unfold timespecToMs requested
  rw [BitVec.toNat_add, BitVec.toNat_mul, BitVec.toNat_udiv]
  show (c.sec.toNat * 1000 % 2 ^ 64 + c.nsec.toNat / 1000000) % 2 ^ 64 = _
  omega

theorem result_of_zero (hc : c.s.currentTask = some c.t) (h : timespecToMs c.sec c.nsec = 0) :
    c.result = (0, none) ∧ c.elapsed = 0 := by
  have hrun : (sysNanosleep c.s (some (c.sec, c.nsec)) c.start).1 = .done 0 := by
    unfold sysNanosleep
    rw [hc]
    dsimp only
    rw [if_pos h]
  unfold result elapsed
  rw [hrun]
  exact ⟨rfl, rfl⟩

theorem result_of_ne_zero (hc : c.s.currentTask = some c.t) (h : timespecToMs c.sec c.nsec ≠ 0) :
    c.result = nanosleepResume (c.s'.tasks c.t) (c.start + timespecToMs c.sec c.nsec) c.now c.rem ∧
      c.elapsed = c.now.toNat - c.start.toNat := by
  have hrun : (sysNanosleep c.s (some (c.sec, c.nsec)) c.start).1 = .blocked := by
    unfold sysNanosleep
    rw [hc]
    dsimp only
    rw [if_neg h]
  unfold result elapsed
  rw [hrun]
  exact ⟨rfl, rfl⟩

theorem toNat_left (hle : c.start ≤ c.now) (h : c.now.toNat - c.start.toNat ≤ c.requested) :
    (c.start + timespecToMs c.sec c.nsec - c.now).toNat =
      (c.requested - (c.now.toNat - c.start.toNat)) % 2 ^ 64 := by
  have hms := toNat_timespecToMs (c := c)
  bv_omega

theorem stored_iff {d : Word} {l : ℕ} (hd : d.toNat = l % 2 ^ 64) (hl : 0 < l) :
    (((if d.toInt < 0 then 0 else d) / 1000).toNat = l / 1000 ∧
      ((if d.toInt < 0 then 0 else d) % 1000 * 1000000).toNat = l % 1000 * 1000000) ↔
      l < 2 ^ 63 := by
  have hneg : d.toInt < 0 ↔ 2 ^ 64 ≤ 2 * d.toNat := BitVec.toInt_neg_iff
  rw [BitVec.toNat_mul, BitVec.toNat_udiv, BitVec.toNat_umod]
  split_ifs with hlt
  · show (0 = l / 1000 ∧ 0 = l % 1000 * 1000000) ↔ _
    rw [hneg] at hlt
    omega
  · show (d.toNat / 1000 = l / 1000 ∧ d.toNat % 1000 * 1000000 % 2 ^ 64 = l % 1000 * 1000000) ↔ _
    rw [hneg] at hlt
    rw [Nat.mod_eq_of_lt (by omega : d.toNat % 1000 * 1000000 < 2 ^ 64)]
    omega

/-- **Nanosleep.**  Whatever happens meanwhile, the contract holds exactly if the time asked for has
passed, or the call reports what is left of it. -/
theorem nanosleep_ok_iff (hc : c.s.currentTask = some c.t) (hle : c.start ≤ c.now) :
    c.Ok ↔ c.requested ≤ c.elapsed ∨ c.Reports := by
  rcases Nat.lt_or_ge c.elapsed c.requested with hlt | hge
  · rw [or_iff_right (Nat.not_le.mpr hlt)]
    have hno : c.result.1 ≠ -4 → ¬ c.Ok := fun h hok => h (hok.interrupted hlt).1
    by_cases h0 : timespecToMs c.sec c.nsec = 0
    · -- the request has wrapped to nothing
      have hres := (result_of_zero hc h0).1
      exact iff_of_false (hno (by rw [hres]; decide)) fun h => h.1 h0
    · obtain ⟨hres, hel⟩ := result_of_ne_zero hc h0
      have hleft := toNat_left hle (hel ▸ hlt.le)
      rw [← hel] at hleft
      have hstored := stored_iff hleft (Nat.sub_pos_of_lt hlt)
      unfold nanosleepResume at hres
      by_cases hmask : (c.s'.tasks c.t).sigPending &&& ~~~(c.s'.tasks c.t).sigBlocked = 0
      · refine iff_of_false (hno ?_) fun h => h.2.2.1 hmask
        rw [hres]
        rcases c.rem with _ | _ <;> simp [hmask]
      · rcases hrem : c.rem with _ | _ | _
        · rw [hrem] at hres
          exact iff_of_false (hno (by simp [hres])) fun h => absurd (hrem.symm.trans h.2.1) nofun
        · simp only [hrem, if_neg hmask, Bool.false_eq_true, if_false] at hres
          exact iff_of_false (hno (by rw [hres]; decide))
            fun h => absurd (hrem.symm.trans h.2.1) (by decide)
        · simp only [hrem, if_neg hmask, if_true] at hres
          constructor
          · intro h
            obtain ⟨p, hp, hsec, hnsec⟩ := (h.interrupted hlt).2 (by rw [hrem]; exact nofun)
            rw [hres] at hp
            obtain rfl := Option.some.inj hp
            exact ⟨h0, hrem, hmask, hstored.mp ⟨hsec, hnsec⟩⟩
          · intro h
            refine ⟨fun hz => ?_, fun _ => ⟨by rw [hres], fun _ => ⟨_, by rw [hres], ?_⟩⟩⟩
            · rw [hres] at hz
              exact absurd (show (-4 : ℤ) = 0 from hz) (by decide)
            · exact hstored.mpr h.2.2.2
  · exact iff_of_true ⟨fun _ => hge, fun hlt => absurd hlt (Nat.not_lt.mpr hge)⟩ (.inl hge)

end Nap

/-- The process goes to sleep at time 100 for 5 seconds, and is sent signal 10. -/
def sleeper : Sys :=
  schedPollSignals (sysKill (fun _ _ _ => false)
    { (sysNanosleep handlerForUsr1 (some (5, 0)) 100).2 with currentTask := none } 1 10).2

def napOf (sec : Word) (rem : Option Bool) : Nap :=
  ⟨handlerForUsr1, 1, sec, 0, 100, sleeper, 200, rem⟩

theorem nanosleep_ok_iff_interrupted : (napOf 5 (some true)).Ok :=
  (Nap.nanosleep_ok_iff (by decide +kernel) (by decide)).mpr (.inr (by unfold Nap.Reports; decide +kernel))

/-- **Success after 100 of 5000 milliseconds**, the signal having woken the task, **and after none**
when the request is 2 to the 61 seconds. -/
theorem nanosleep_succeeds_early :
    (sleeper.tasks 1).state = .ready ∧
      (napOf 5 none).result.1 = 0 ∧ (napOf 5 none).elapsed = 100 ∧
      (napOf 5 none).requested = 5000 ∧
      (napOf (1 <<< 61) none).result.1 = 0 ∧ (napOf (1 <<< 61) none).elapsed = 0 ∧
      0 < (napOf (1 <<< 61) none).requested := by
  decide +kernel

end BananaOS.Proc
