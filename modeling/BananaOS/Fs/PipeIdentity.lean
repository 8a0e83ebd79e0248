import BananaOS.Fs.PipeStream

/-!
# Which pipe a call is on

A call that blocks keeps the pointer `p` to a slot of the pipe table.  The last `pipe_close_op`
frees the slot without a look at who sleeps on it: nobody is woken, and the next `pipe_create_fds`
takes the slot for another pipe.  A call that goes on after that finds the new pipe behind its
pointer.
-/

namespace BananaOS.Fs

open Function RingQueue SlotTable GuardedRun
open Proc (maxTasks)

/-- Whether `pipe_close_op` frees the pipe. -/
def PipeSys.Frees (s : PipeSys) (slot : ℕ) (isRead : Bool) : Prop :=
  (slot < maxPipes ∧ (s.pipes slot).inUse = true) ∧
    ((s.pipes slot).toPipe.dropEnd isRead).readers = 0 ∧
    ((s.pipes slot).toPipe.dropEnd isRead).writers = 0

instance (s : PipeSys) (slot : ℕ) (isRead : Bool) : Decidable (s.Frees slot isRead) :=
  inferInstanceAs (Decidable (_ ∧ _))

def SpareCalls (s : PipeSys) : PipeEvent → Prop
  | .close slot isRead =>
    s.Frees slot isRead → ∀ t, (s.calls t).all (fun c => c.slot ≠ slot) = true
  | _ => True

instance (s : PipeSys) : (e : PipeEvent) → Decidable (SpareCalls s e)
  | .close slot isRead => inferInstanceAs (Decidable (s.Frees slot isRead → _))
  | .create _ => .isTrue trivial
  | .createFails _ => .isTrue trivial
  | .call .. => .isTrue trivial
  | .resume .. => .isTrue trivial
  | .wake _ => .isTrue trivial
  | .reuse .. => .isTrue trivial

/-- **Calls keep to their pipes**: what a call copies belongs to the pipe that it began on, and a
call that sleeps does so on that pipe, which is not freed. -/
structure KeepToPipe (s : PipeSys) : Prop where
  calls : ∀ t c, s.calls t = some c → ∀ b ∈ c.bytes, b.2 = c.began
  returned : ∀ r ∈ s.returned, ∀ b ∈ r.bytes, b.2 = r.began
  sleeps : ∀ t c, s.calls t = some c → c.blocked = true →
    (s.pipes c.slot).inUse = true ∧ s.number c.slot = c.began

/-! ## The invariant -/

/-- The pipe of a call is there, and the call has copied bytes of that pipe only. -/
structure Call.OnPipe (s : PipeSys) (c : Call) : Prop where
  inUse : (s.pipes c.slot).inUse = true
  number : s.number c.slot = c.began
  bytes : ∀ b ∈ c.bytes, b.2 = c.began

def Returned.OnPipe (r : Returned) : Prop := ∀ b ∈ r.bytes, b.2 = r.began

/-- **Every call is on its pipe**, and a pipe holds only bytes that were written to it. -/
structure IdentityInv (s : PipeSys) : Prop where
  stream : StreamInv s
  written : ∀ i, ∀ b ∈ s.written i, b.2 = s.number i
  traced : Traced (Call.OnPipe s) Returned.OnPipe s

variable {s s' : PipeSys} {t : Fin maxTasks} {c : Call}

theorem IdentityInv.keepToPipe (h : IdentityInv s) : KeepToPipe s where
  calls t c hc := (h.traced.calls t c hc).bytes
  returned := h.traced.returned
  sleeps t c hc _ := ⟨(h.traced.calls t c hc).inUse, (h.traced.calls t c hc).number⟩

theorem onPipe_blocked (c : Call) (blocked : Bool) (h : c.OnPipe s) :
    Call.OnPipe s { c with blocked := blocked } := ⟨h.inUse, h.number, h.bytes⟩

theorem Call.OnPipe.congr (h : c.OnPipe s) (hin : (s'.pipes c.slot).inUse = true)
    (hnum : s'.number c.slot = s.number c.slot) : c.OnPipe s' :=
  ⟨hin, hnum.trans h.number, h.bytes⟩

theorem Traced.mono {P P' : Call → Prop} {Q : Returned → Prop} (h : Traced P Q s)
    (hP : ∀ t c, s.calls t = some c → P c → P' c) : Traced P' Q s :=
  ⟨fun t c hc => hP t c hc (h.calls t c hc), h.returned⟩

theorem inUse_update {i j : ℕ} {p : PipeT} (hp : p.inUse = (s.pipes i).inUse) :
    (update s.pipes i p j).inUse = (s.pipes j).inUse := by
  by_cases hij : j = i
  · subst hij
    rw [update_self, hp]
  · rw [update_of_ne hij]

theorem Call.OnPipe.add (h : c.OnPipe s) {bytes : List PipeByte}
    (hbytes : ∀ b ∈ bytes, b.2 = c.began) (total : ℕ) :
    Call.OnPipe s { c with total := total, bytes := c.bytes ++ bytes } where
  inUse := h.inUse
  number := h.number
  bytes b hb := (List.mem_append.mp hb).elim (h.bytes b) (hbytes b)

theorem IdentityInv.mem_take (h : IdentityInv s) (hc : c.OnPipe s) {room : ℕ} {b : PipeByte}
    (hb : b ∈ ((s.pipes c.slot).take room).1) : b.2 = c.began := by
  have hq := h.stream.fifo c.slot hc.inUse
  have hmem : b ∈ s.written c.slot := by
    rw [hq.stream, hq.content_eq room]
    exact List.mem_append_right _ (List.mem_append_left _ hb)
  rw [h.written c.slot b hmem, hc.number]

theorem PipeT.mem_put {p : PipeT} {src : ℕ → PipeByte} {room : ℕ} {b : PipeByte}
    (hb : b ∈ (p.put src room).1) : ∃ k, b = src k := by
  obtain ⟨k, -, rfl⟩ := List.mem_map.mp hb
  exact ⟨k, rfl⟩

theorem Call.OnPipe.endRound (h : c.OnPipe s) {i : ℕ} {p : PipeT} {w r : ℕ → List PipeByte}
    {c' : Call} {woke : Bool} {value : Option ℤ} (hp : p.inUse = (s.pipes i).inUse) :
    c.OnPipe (PipeSys.endRound
      { s with pipes := update s.pipes i p, written := w, readOut := r }
      t c' woke value) := by
  refine h.congr ?_ ?_
  · rw [PipeSys.endRound_pipes, inUse_update hp, h.inUse]
  · rw [PipeSys.endRound_number]

section

variable (h : IdentityInv s)

include h

theorem IdentityInv.readRound (hc : c.OnPipe s) (hcount : c.Counted)
    (nonblock : Bool) : IdentityInv (s.readRound t c nonblock) where
  stream := h.stream.readRound hcount nonblock
  written i b hb := by
    simp only [PipeSys.readRound, PipeSys.endRound_written, PipeSys.endRound_number] at hb ⊢
    exact h.written i b hb
  traced := by
    have hbytes : ∀ b ∈ ((s.pipes c.slot).take (c.size - c.total)).1, b.2 = c.began :=
      fun b hb => h.mem_take hc hb
    simp only [PipeSys.readRound]
    apply Traced.endRound onPipe_blocked
    · refine ⟨fun t' c' hc' => ?_, h.traced.returned⟩
      refine (h.traced.calls t' c' hc').endRound ?_
      rfl
    · exact fun v _ => (hc.add hbytes 0).bytes
    · intro _
      refine (hc.add hbytes _).endRound ?_
      rfl

theorem IdentityInv.writeRound (hc : c.OnPipe s) (hcount : c.Counted)
    (nonblock : Bool) (src : Bytes) : IdentityInv (s.writeRound t c nonblock src) := by
  have hbytes : ∀ room, ∀ b ∈ ((s.pipes c.slot).put
      (fun k => (src (c.total + k), s.number c.slot)) room).1, b.2 = s.number c.slot := by
    intro room b hb
    obtain ⟨k, rfl⟩ := PipeT.mem_put hb
    rfl
  refine ⟨h.stream.writeRound hcount nonblock src, fun i b hb => ?_, ?_⟩
  · simp only [PipeSys.writeRound, PipeSys.endRound_written, PipeSys.endRound_number] at hb ⊢
    by_cases hi : i = c.slot
    · subst hi
      rw [update_self] at hb
      exact (List.mem_append.mp hb).elim (h.written c.slot b) (hbytes _ b)
    · rw [update_of_ne hi] at hb
      exact h.written i b hb
  · have hmine := fun b hb => (hbytes (c.size - c.total) b hb).trans hc.number
    simp only [PipeSys.writeRound]
    apply Traced.endRound onPipe_blocked
    · refine ⟨fun t' c' hc' => ?_, h.traced.returned⟩
      refine (h.traced.calls t' c' hc').endRound ?_
      rfl
    · exact fun v _ => (hc.add hmine 0).bytes
    · intro _
      refine (hc.add hmine _).endRound ?_
      rfl

theorem IdentityInv.round (hc : c.OnPipe s) (hcount : c.Counted)
    (nonblock : Bool) (src : Bytes) : IdentityInv (s.round t c nonblock src) := by
  simp only [PipeSys.round]
  split_ifs
  · exact h.readRound hc hcount nonblock
  · exact h.writeRound hc hcount nonblock src

theorem IdentityInv.finish {value : ℤ}
    (hv : 0 ≤ value → value = c.bytes.length) (hbytes : ∀ b ∈ c.bytes, b.2 = c.began) :
    IdentityInv (s.finish t c value) where
  stream := h.stream.finish hv
  written := h.written
  traced := by
    refine Traced.finish ?_ hbytes
    exact h.traced.mono fun t' c' _ hc' => hc'.congr hc'.inUse rfl

theorem IdentityInv.startCall (isRead : Bool) (slot size : ℕ) (nonblock : Bool)
    (src : Bytes) : IdentityInv (s.startCall t isRead slot size nonblock src) := by
  have hempty : ∀ b ∈ ([] : List PipeByte), b.2 = s.number slot := fun b hb =>
    absurd hb List.not_mem_nil
  simp only [PipeSys.startCall]
  split_ifs with hopen hgone hzero
  · exact h.finish (fun hneg => absurd hneg (by decide)) hempty
  · exact h.finish (fun _ => rfl) hempty
  · exact h.round ⟨hopen.2, rfl, hempty⟩ ⟨rfl, Nat.pos_of_ne_zero hzero⟩ nonblock src
  · exact h.finish (fun hneg => absurd hneg (by decide)) hempty

theorem IdentityInv.resumeCall (hc : c.OnPipe s) (hcount : c.Counted)
    (signal nonblock : Bool) (src : Bytes) :
    IdentityInv (s.resumeCall t c signal nonblock src) := by
  simp only [PipeSys.resumeCall]
  split_ifs with hsignal hzero
  · exact h.finish (fun hneg => absurd hneg (by decide)) hc.bytes
  · exact h.finish (fun _ => congrArg _ hcount.1) hc.bytes
  · exact h.round hc hcount nonblock src

theorem IdentityInv.slot_ne {i : ℕ} (hfree : (s.pipes i).inUse = false)
    (hc : s.calls t = some c) : c.slot ≠ i := by
  rintro rfl
  exact absurd (h.traced.calls t c hc).inUse (by rw [hfree]; exact Bool.false_ne_true)

theorem IdentityInv.create {buf : ℕ → PipeByte} (hs : s.create buf = some s') : IdentityInv s' := by
  have hstream := h.stream.create hs
  obtain ⟨i, hi, rfl⟩ := Option.map_eq_some_iff.mp hs
  refine ⟨hstream, fun j b hb => ?_, ⟨fun t' c' hc' => ?_, h.traced.returned⟩⟩
  · by_cases hij : j = i
    · subst hij
      simp only [update_self, List.not_mem_nil] at hb
    · simp only [update_of_ne hij] at hb ⊢
      exact h.written j b hb
  · have hne := h.slot_ne (firstFree_eq_some hi).2.2 hc'
    have hon := h.traced.calls t' c' hc'
    exact hon.congr (by simp only [update_of_ne hne, hon.inUse])
      (by simp only [update_of_ne hne])

theorem IdentityInv.update_free {i : ℕ} (hfree : (s.pipes i).inUse = false)
    {p : PipeT} (hp : p.inUse = false) :
    IdentityInv { s with pipes := update s.pipes i p } where
  stream := by
    refine ⟨fun j hj => ?_, ⟨h.stream.traced.calls, h.stream.traced.returned⟩⟩
    by_cases hij : j = i
    · subst hij
      simp only [update_self, hp, Bool.false_eq_true] at hj
    · simp only [update_of_ne hij] at hj ⊢
      exact h.stream.fifo j hj
  written := h.written
  traced := by
    refine ⟨fun t' c' hc' => ?_, h.traced.returned⟩
    have hne := h.slot_ne hfree hc'
    have hon := h.traced.calls t' c' hc'
    exact hon.congr (by simp only [update_of_ne hne, hon.inUse]) rfl

theorem IdentityInv.close {slot : ℕ} {isRead : Bool}
    (hok : SpareCalls s (.close slot isRead)) : IdentityInv (s.close slot isRead) := by
  refine ⟨h.stream.close slot isRead, ?_, ?_⟩
  · simp only [PipeSys.close]
    split_ifs <;> exact h.written
  · simp only [PipeSys.close]
    split_ifs with hopen hlast
    · refine ⟨fun t' c' hc' => ?_, h.traced.returned⟩
      have hne : c'.slot ≠ slot := by
        have hall := hok ⟨hopen, hlast⟩ t'
        rw [hc'] at hall
        exact of_decide_eq_true hall
      have hon := h.traced.calls t' c' hc'
      exact hon.congr (by simp only [update_of_ne hne, hon.inUse]) rfl
    · refine ⟨forall_wakeCond onPipe_blocked (forall_wakeCond onPipe_blocked ?_ _ _) _ _,
        h.traced.returned⟩
      intro t' c' hc'
      have hon := h.traced.calls t' c' hc'
      refine hon.congr ((inUse_update ?_).trans hon.inUse) rfl
      simp only [Pipe.dropEnd]
      split_ifs <;> rfl
    · exact h.traced

theorem IdentityInv.step {e : PipeEvent} (hok : SpareCalls s e)
    (hs : s.step e = some s') : IdentityInv s' := by
  cases e with
  | create buf => exact h.create hs
  | createFails buf =>
    obtain ⟨i, hi, rfl⟩ := Option.map_eq_some_iff.mp hs
    exact h.update_free (firstFree_eq_some hi).2.2 rfl
  | call t isRead slot size nonblock src =>
    simp only [PipeSys.step] at hs
    rcases hcall : s.calls t with _ | c
    · simp only [hcall, Option.some.injEq] at hs
      exact hs ▸ h.startCall isRead slot size nonblock src
    · simp only [hcall, reduceCtorEq] at hs
  | resume t signal nonblock src =>
    simp only [PipeSys.step] at hs
    rcases hcall : s.calls t with _ | c
    · simp only [hcall, reduceCtorEq] at hs
    · simp only [hcall] at hs
      obtain ⟨-, hs⟩ := Option.ite_none_left_eq_some.mp hs
      cases hs
      exact h.resumeCall (h.traced.calls t c hcall) (h.stream.traced.calls t c hcall) signal
        nonblock src
  | wake t =>
    have hstream := h.stream.step hs
    cases hs
    refine ⟨hstream, h.written, ⟨fun t' c' hc' => ?_, h.traced.returned⟩⟩
    by_cases ht : t' = t
    · subst ht
      simp only [update_self] at hc'
      obtain ⟨c, hc, rfl⟩ := Option.map_eq_some_iff.mp hc'
      exact onPipe_blocked c false ((h.traced.calls t' c hc).congr
        (h.traced.calls t' c hc).inUse rfl)
    · simp only [update_of_ne ht] at hc'
      exact (h.traced.calls t' c' hc').congr (h.traced.calls t' c' hc').inUse rfl
  | close slot isRead =>
    cases hs
    exact h.close hok
  | reuse slot buf =>
    obtain ⟨hfree, hs⟩ := Option.ite_none_left_eq_some.mp hs
    cases hs
    rw [Bool.not_eq_true] at hfree
    exact h.update_free hfree hfree

end

theorem identityInv_start : IdentityInv PipeSys.start where
  stream := streamInv_start
  written _ _ hb := absurd hb List.not_mem_nil
  traced := ⟨fun _ _ h => absurd h.symm (Option.some_ne_none _),
    fun _ h => absurd h List.not_mem_nil⟩

/-- **Calls keep to their pipes** in every run in which a pipe is freed only while no call is on
it. -/
theorem keepToPipe_of_spareCalls (s : PipeSys) (es : List PipeEvent)
    (hrun : Run PipeSys.step SpareCalls PipeSys.start es s) : KeepToPipe s :=
  (hrun.invariant (fun _ _ _ h hok hs => h.step hok hs) identityInv_start).keepToPipe

def readThenClose : List PipeEvent :=
  [.create fun _ => (0, 0), .call task0 true 0 1 false fun _ => 0,
    .call task1 false 0 1 false fun _ => 7,
    .resume task0 false false fun _ => 0, .close 0 true, .close 0 false]

theorem keepToPipe_read_then_close :
    ∃ s, Run PipeSys.step SpareCalls PipeSys.start readThenClose s ∧
      s.returned.length = 2 ∧ KeepToPipe s := by
  have hex : ∃ s, Run PipeSys.step SpareCalls PipeSys.start readThenClose s ∧
      s.returned.length = 2 := exists_run (by decide +kernel)
  obtain ⟨s, hrun, hlen⟩ := hex
  exact ⟨s, hrun, hlen, keepToPipe_of_spareCalls s _ hrun⟩

/-! ## A pipe that is freed under a call -/

/-- Task 0 sleeps in a read of pipe 0.  The write end is closed, which wakes it, but before its turn
comes the read end is closed too, the slot is taken for pipe 1, and task 1 writes a byte there. -/
def reusedSlot : List PipeEvent :=
  [.create fun _ => (0, 0), .call task0 true 0 1 false fun _ => 0, .close 0 false,
    .close 0 true, .create fun _ => (0, 0), .call task1 false 0 1 false fun _ => 7,
    .resume task0 false false fun _ => 0]

/-- Task 0 sleeps in a read.  The read end is closed, which wakes it; it finds the write end open
and sleeps again; the write end is closed, and nobody wakes it. -/
def freedPipe : List PipeEvent :=
  [.create fun _ => (0, 0), .call task0 true 0 1 false fun _ => 0, .close 0 true,
    .resume task0 false false fun _ => 0, .close 0 false]

/-- **The read on pipe 0 returns the byte that was written to pipe 1**, and in another run a task
sleeps on a pipe that was freed. -/
theorem reused_slot_and_freed_pipe :
    (∃ s, Run PipeSys.step (fun _ _ => True) PipeSys.start reusedSlot s ∧
      (⟨true, 0, 1, [(7, 1)]⟩ : Returned) ∈ s.returned ∧ ¬ KeepToPipe s) ∧
    ∃ s, Run PipeSys.step (fun _ _ => True) PipeSys.start freedPipe s ∧
      (s.calls task0 = some ⟨true, 0, 0, 1, 0, [], true⟩ ∧ (s.pipes 0).inUse = false) ∧
      ¬ KeepToPipe s := by
  constructor
  · have hex : ∃ s, Run PipeSys.step (fun _ _ => True) PipeSys.start reusedSlot s ∧
        (⟨true, 0, 1, [(7, 1)]⟩ : Returned) ∈ s.returned := exists_run (by decide +kernel)
    obtain ⟨s, hrun, hmem⟩ := hex
    refine ⟨s, hrun, hmem, fun h => ?_⟩
    exact absurd (h.returned _ hmem _ (List.mem_singleton.mpr rfl)) one_ne_zero
  · have hex : ∃ s, Run PipeSys.step (fun _ _ => True) PipeSys.start freedPipe s ∧
        s.calls task0 = some ⟨true, 0, 0, 1, 0, [], true⟩ ∧
        (s.pipes 0).inUse = false := exists_run (by decide +kernel)
    obtain ⟨s, hrun, hcall, hfree⟩ := hex
    refine ⟨s, hrun, ⟨hcall, hfree⟩, fun h => ?_⟩
    exact absurd (h.sleeps _ _ hcall rfl).1 (by rw [hfree]; exact Bool.false_ne_true)

end BananaOS.Fs
