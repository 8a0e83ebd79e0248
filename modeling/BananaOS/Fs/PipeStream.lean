import BananaOS.Fs.Pipe
import BananaOS.Lib.Bytes
import BananaOS.Lib.GuardedRun
import BananaOS.Proc.Scheduler

/-!
# A pipe is a queue of bytes

`pipe_read_op` and `pipe_write_op` copy as much as they can, in at most two pieces, and then block
until the other side has moved on.  A call that blocks keeps a pointer to its pipe and the number of
bytes it has copied, and goes on from there.  So a call is a sequence of *segments*, each of them
one round of its loop, and between two segments of one call the other tasks may do anything.
-/

namespace BananaOS.Fs

open Function RingQueue SlotTable GuardedRun
open Proc (maxTasks)

def pipeBufSz : ℕ := 32768

abbrev PipeByte := Byte × ℕ

structure PipeT extends Pipe where
  buf : ℕ → PipeByte
  head : ℕ
  tail : ℕ
  count : ℕ

/-! ## Copying -/

/-- The copy of `pipe_read_op`, of at most `room` bytes: what is copied, and the pipe. -/
def PipeT.take (p : PipeT) (room : ℕ) : List PipeByte × PipeT :=
  let n := min room p.count
  (readBlock pipeBufSz p.buf p.head n,
    { p with head := (p.head + n) % pipeBufSz, count := p.count - n })

/-- The copy of `pipe_write_op`, of at most `room` bytes. -/
def PipeT.put (p : PipeT) (src : ℕ → PipeByte) (room : ℕ) : List PipeByte × PipeT :=
  let n := min room (pipeBufSz - p.count)
  ((List.range n).map src,
    { p with
      buf := writeBlock pipeBufSz p.buf p.tail src n
      tail := (p.tail + n) % pipeBufSz
      count := p.count + n })

/-- How a round ends, where `total` of `size` bytes are copied: with a value, or blocked.  `gone` is
what is returned if the other side is closed. -/
def roundEnd (otherEnd : ℕ) (gone : ℤ) (nonblock : Bool) (size total : ℕ) : Option ℤ :=
  if total = size then some total
  else if otherEnd = 0 then some gone
  else if nonblock then if total = 0 then some (-11) else some total
  else none

/-! ## The system -/

structure Call where
  isRead : Bool
  /-- The pointer `p`. -/
  slot : ℕ
  /-- The pipe that the call began on. -/
  began : ℕ
  size : ℕ
  total : ℕ
  bytes : List PipeByte
  /-- The task is `BLOCKED`; otherwise it was woken and waits for its turn. -/
  blocked : Bool
  deriving DecidableEq

structure Returned where
  isRead : Bool
  began : ℕ
  value : ℤ
  bytes : List PipeByte
  deriving DecidableEq

structure PipeSys where
  pipes : ℕ → PipeT
  /-- The number of the pipe in a slot. -/
  number : ℕ → ℕ
  /-- How many pipes were created. -/
  created : ℕ
  calls : Fin maxTasks → Option Call
  written : ℕ → List PipeByte
  readOut : ℕ → List PipeByte
  returned : List Returned

def PipeSys.start : PipeSys where
  pipes := fun _ => ⟨⟨0, 0, false⟩, fun _ => (0, 0), 0, 0, 0⟩
  number := fun _ => 0
  created := 0
  calls := fun _ => none
  written := fun _ => []
  readOut := fun _ => []
  returned := []

inductive PipeEvent where
  /-- `pipe_create_fds`, with what was in the pages of the new buffer. -/
  | create (buf : ℕ → PipeByte)
  /-- The same, where there is no file object for an end and the pipe is freed again. -/
  | createFails (buf : ℕ → PipeByte)
  /-- Task `t` calls `pipe_read_op` or `pipe_write_op`; `src` is what its buffer holds. -/
  | call (t : Fin maxTasks) (isRead : Bool) (slot size : ℕ) (nonblock : Bool) (src : Bytes)
  /-- A task that was woken goes on; `signal` says whether a signal is pending. -/
  | resume (t : Fin maxTasks) (signal nonblock : Bool) (src : Bytes)
  /-- A signal wakes a task. -/
  | wake (t : Fin maxTasks)
  /-- `pipe_close_op`. -/
  | close (slot : ℕ) (isRead : Bool)
  /-- The pages of a freed buffer are used for something else. -/
  | reuse (slot : ℕ) (buf : ℕ → PipeByte)

namespace PipeSys

/-- `sched_wake_cond`, for the readers or the writers of a pipe. -/
def wakeCond (calls : Fin maxTasks → Option Call) (isRead : Bool) (slot : ℕ) :
    Fin maxTasks → Option Call := fun t =>
  (calls t).map fun c =>
    if c.isRead = isRead ∧ c.slot = slot then { c with blocked := false } else c

def finish (s : PipeSys) (t : Fin maxTasks) (c : Call) (value : ℤ) : PipeSys :=
  { s with
    calls := update s.calls t none
    returned := s.returned ++ [⟨c.isRead, c.began, value, c.bytes⟩] }

/-- The end of a round: the other side is woken if something was copied, and the call returns or
blocks. -/
def endRound (s : PipeSys) (t : Fin maxTasks) (c : Call) (woke : Bool) (value : Option ℤ) :
    PipeSys :=
  let s := if woke then { s with calls := wakeCond s.calls (!c.isRead) c.slot } else s
  match value with
  | some v => s.finish t c v
  | none => { s with calls := update s.calls t (some { c with blocked := true }) }

/-- A round of the loop of `pipe_read_op`. -/
def readRound (s : PipeSys) (t : Fin maxTasks) (c : Call) (nonblock : Bool) : PipeSys :=
  let p := s.pipes c.slot
  let (bytes, p') := p.take (c.size - c.total)
  let total := c.total + bytes.length
  endRound
    { s with
      pipes := update s.pipes c.slot p'
      readOut := update s.readOut c.slot (s.readOut c.slot ++ bytes) }
    t { c with total := total, bytes := c.bytes ++ bytes } (0 < p.count)
    (roundEnd p.writers total nonblock c.size total)

/-- A round of the loop of `pipe_write_op`. -/
def writeRound (s : PipeSys) (t : Fin maxTasks) (c : Call) (nonblock : Bool) (src : Bytes) :
    PipeSys :=
  let p := s.pipes c.slot
  let (bytes, p') := p.put (fun k => (src (c.total + k), s.number c.slot)) (c.size - c.total)
  let total := c.total + bytes.length
  endRound
    { s with
      pipes := update s.pipes c.slot p'
      written := update s.written c.slot (s.written c.slot ++ bytes) }
    t { c with total := total, bytes := c.bytes ++ bytes } (p.count < pipeBufSz)
    (roundEnd p.readers (-32) nonblock c.size total)

def round (s : PipeSys) (t : Fin maxTasks) (c : Call) (nonblock : Bool) (src : Bytes) : PipeSys :=
  if c.isRead then s.readRound t c nonblock else s.writeRound t c nonblock src

/-- The start of `pipe_read_op` and `pipe_write_op`. -/
def startCall (s : PipeSys) (t : Fin maxTasks) (isRead : Bool) (slot size : ℕ) (nonblock : Bool)
    (src : Bytes) : PipeSys :=
  let c : Call := ⟨isRead, slot, s.number slot, size, 0, [], false⟩
  if slot < maxPipes ∧ (s.pipes slot).inUse = true then
    if isRead = false ∧ (s.pipes slot).readers = 0 then s.finish t c (-32)
    else if size = 0 then s.finish t c 0
    else s.round t c nonblock src
  else s.finish t c (-9)

def resumeCall (s : PipeSys) (t : Fin maxTasks) (c : Call) (signal nonblock : Bool) (src : Bytes) :
    PipeSys :=
  if signal then s.finish t c (if c.total = 0 then -4 else c.total)
  else s.round t c nonblock src

/-- `pipe_alloc` and the counts that `pipe_create_fds` sets. -/
def create (s : PipeSys) (buf : ℕ → PipeByte) : Option PipeSys :=
  (firstFree (fun i => (s.pipes i).inUse) 0 maxPipes).map fun i =>
    { s with
      pipes := update s.pipes i ⟨⟨1, 1, true⟩, buf, 0, 0, 0⟩
      number := update s.number i s.created
      created := s.created + 1
      written := update s.written i []
      readOut := update s.readOut i [] }

/-- `pipe_create_fds` that frees the pipe it has allocated. -/
def createFails (s : PipeSys) (buf : ℕ → PipeByte) : Option PipeSys :=
  (firstFree (fun i => (s.pipes i).inUse) 0 maxPipes).map fun i =>
    { s with pipes := update s.pipes i ⟨⟨0, 0, false⟩, buf, 0, 0, 0⟩ }

/-- `pipe_close_op` on an end of the pipe in `slot`. -/
def close (s : PipeSys) (slot : ℕ) (isRead : Bool) : PipeSys :=
  if slot < maxPipes ∧ (s.pipes slot).inUse = true then
    let p := (s.pipes slot).toPipe.dropEnd isRead
    if p.readers = 0 ∧ p.writers = 0 then
      let freed : PipeT := { s.pipes slot with toPipe := { p with inUse := false } }
      { s with pipes := update s.pipes slot freed }
    else
      let left : PipeT := { s.pipes slot with toPipe := p }
      { s with
        pipes := update s.pipes slot left
        calls := wakeCond (wakeCond s.calls true slot) false slot }
  else s

def step (s : PipeSys) : PipeEvent → Option PipeSys
  | .create buf => s.create buf
  | .createFails buf => s.createFails buf
  | .call t isRead slot size nonblock src =>
    match s.calls t with
    | none => some (s.startCall t isRead slot size nonblock src)
    | some _ => none
  | .resume t signal nonblock src =>
    match s.calls t with
    | none => none
    | some c => if c.blocked then none else some (s.resumeCall t c signal nonblock src)
  | .wake t =>
    let woken := (s.calls t).map fun c => { c with blocked := false }
    some { s with calls := update s.calls t woken }
  | .close slot isRead => some (s.close slot isRead)
  | .reuse slot buf =>
    if (s.pipes slot).inUse then none
    else some { s with pipes := update s.pipes slot { s.pipes slot with buf := buf } }

end PipeSys

/-! ## One pipe -/

def PipeT.content (p : PipeT) : List PipeByte := window pipeBufSz p.buf p.head 0 p.count

/-- **The pipe is a queue**, where `written` went in and `readOut` came out. -/
structure Fifo (p : PipeT) (written readOut : List PipeByte) : Prop where
  head_lt : p.head < pipeBufSz
  tail_eq : p.tail = (p.head + p.count) % pipeBufSz
  count_le : p.count ≤ pipeBufSz
  stream : written = readOut ++ p.content

variable {p : PipeT} {written readOut : List PipeByte}

theorem Fifo.content_eq (h : Fifo p written readOut) (room : ℕ) :
    p.content = (p.take room).1 ++ (p.take room).2.content := by
  have hle := h.count_le
  simp only [PipeT.content, PipeT.take]
  rw [readBlock_eq_window h.head_lt (by omega), window_split p.buf p.head (Nat.min_le_right room _)]
  refine congrArg (_ ++ ·) (window_shift fun j _ => congrArg p.buf ?_)
  rw [Nat.zero_add, Nat.mod_add_mod, Nat.add_assoc]

theorem Fifo.take (h : Fifo p written readOut) (room : ℕ) :
    Fifo (p.take room).2 written (readOut ++ (p.take room).1) where
  head_lt := Nat.mod_lt _ (by decide)
  tail_eq := by
    simp only [PipeT.take]
    rw [h.tail_eq, Nat.mod_add_mod]
    congr 1
    omega
  count_le := (Nat.sub_le ..).trans h.count_le
  stream := by rw [List.append_assoc, ← h.content_eq room, h.stream]

theorem Fifo.put (h : Fifo p written readOut) (src : ℕ → PipeByte) (room : ℕ) :
    Fifo (p.put src room).2 (written ++ (p.put src room).1) readOut where
  head_lt := h.head_lt
  tail_eq := by
    simp only [PipeT.put]
    rw [h.tail_eq, Nat.mod_add_mod, Nat.add_assoc]
  count_le := by
    have hle := h.count_le
    simp only [PipeT.put]
    omega
  stream := by
    have hle := h.count_le
    have hroom : p.count + min room (pipeBufSz - p.count) ≤ pipeBufSz := by omega
    simp only [PipeT.put, PipeT.content]
    rw [window_writeBlock h.head_lt h.tail_eq hroom, h.stream, List.append_assoc]
    rfl

theorem Fifo.new (q : Pipe) (buf : ℕ → PipeByte) : Fifo ⟨q, buf, 0, 0, 0⟩ [] [] :=
  ⟨Nat.zero_lt_succ _, rfl, Nat.zero_le _, rfl⟩

/-! ## Calls -/

section Traced

variable {P : Call → Prop} {Q : Returned → Prop} {s : PipeSys} {t : Fin maxTasks} {c : Call}

/-- What is true of the calls in progress, and of those that have returned. -/
structure Traced (P : Call → Prop) (Q : Returned → Prop) (s : PipeSys) : Prop where
  calls : ∀ t c, s.calls t = some c → P c
  returned : ∀ r ∈ s.returned, Q r

theorem Traced.finish (h : Traced P Q s) {value : ℤ} (hQ : Q ⟨c.isRead, c.began, value, c.bytes⟩) :
    Traced P Q (s.finish t c value) where
  calls t' c' hc' := by
    by_cases ht : t' = t
    · subst ht
      simp only [PipeSys.finish, update_self, reduceCtorEq] at hc'
    · simp only [PipeSys.finish, update_of_ne ht] at hc'
      exact h.calls t' c' hc'
  returned r hr := by
    rcases List.mem_append.mp hr with hr | hr
    · exact h.returned r hr
    · rw [List.mem_singleton] at hr
      exact hr ▸ hQ

theorem forall_wakeCond (hP : ∀ c blocked, P c → P { c with blocked := blocked })
    {calls : Fin maxTasks → Option Call} (h : ∀ t c, calls t = some c → P c) (isRead : Bool)
    (slot : ℕ) : ∀ t c, PipeSys.wakeCond calls isRead slot t = some c → P c := by
  intro t c hc
  obtain ⟨c', hc', rfl⟩ := Option.map_eq_some_iff.mp hc
  split_ifs
  · exact hP c' false (h t c' hc')
  · exact h t c' hc'

theorem Traced.endRound (hP : ∀ c blocked, P c → P { c with blocked := blocked })
    (h : Traced P Q s) {woke : Bool} {value : Option ℤ}
    (hdone : ∀ v, value = some v → Q ⟨c.isRead, c.began, v, c.bytes⟩)
    (hblock : value = none → P c) : Traced P Q (s.endRound t c woke value) := by
  have hwoken : Traced P Q
      (if woke then { s with calls := PipeSys.wakeCond s.calls (!c.isRead) c.slot } else s) := by
    split_ifs
    · exact ⟨forall_wakeCond hP h.calls _ _, h.returned⟩
    · exact h
  cases value with
  | some v => exact hwoken.finish (hdone v rfl)
  | none =>
    refine ⟨fun t' c' hc' => ?_, hwoken.returned⟩
    by_cases ht : t' = t
    · subst ht
      simp only [PipeSys.endRound, update_self, Option.some.injEq] at hc'
      exact hc' ▸ hP c true (hblock rfl)
    · simp only [PipeSys.endRound, update_of_ne ht] at hc'
      exact hwoken.calls t' c' hc'

end Traced

/-! ## What a round leaves alone -/

section EndRound

variable (s : PipeSys) (t : Fin maxTasks) (c : Call) (woke : Bool) (value : Option ℤ)

@[simp] theorem PipeSys.endRound_pipes : (s.endRound t c woke value).pipes = s.pipes := by
  cases woke <;> cases value <;> rfl

@[simp] theorem PipeSys.endRound_number : (s.endRound t c woke value).number = s.number := by
  cases woke <;> cases value <;> rfl

@[simp] theorem PipeSys.endRound_written : (s.endRound t c woke value).written = s.written := by
  cases woke <;> cases value <;> rfl

@[simp] theorem PipeSys.endRound_readOut : (s.endRound t c woke value).readOut = s.readOut := by
  cases woke <;> cases value <;> rfl

end EndRound

/-! ## The invariant -/

/-- A call in progress has copied what it has counted, and has more to do. -/
def Call.Counted (c : Call) : Prop := c.total = c.bytes.length ∧ c.total < c.size

def Returned.Exact (r : Returned) : Prop := 0 ≤ r.value → r.value = r.bytes.length

/-- **Every pipe in use is a queue**, and calls count right. -/
structure StreamInv (s : PipeSys) : Prop where
  fifo : ∀ i, (s.pipes i).inUse = true → Fifo (s.pipes i) (s.written i) (s.readOut i)
  traced : Traced Call.Counted Returned.Exact s

variable {s s' : PipeSys} {t : Fin maxTasks} {c : Call}

theorem roundEnd_eq_some {otherEnd size total : ℕ} {gone v : ℤ} {nonblock : Bool}
    (h : roundEnd otherEnd gone nonblock size total = some v) (hv : 0 ≤ v)
    (hgone : 0 ≤ gone → gone = total) : v = total := by
  simp only [roundEnd] at h
  split_ifs at h <;> cases h
  · rfl
  · exact hgone hv
  · omega
  · rfl

theorem roundEnd_eq_none {otherEnd size total : ℕ} {gone : ℤ} {nonblock : Bool}
    (h : roundEnd otherEnd gone nonblock size total = none) : total ≠ size := by
  intro heq
  rw [roundEnd, if_pos heq] at h
  cases h

theorem PipeT.length_take (p : PipeT) (room : ℕ) : (p.take room).1.length ≤ room := by
  simp only [PipeT.take, length_readBlock]
  exact Nat.min_le_left _ _

theorem PipeT.length_put (p : PipeT) (src : ℕ → PipeByte) (room : ℕ) :
    (p.put src room).1.length ≤ room := by
  simp only [PipeT.put, List.length_map, List.length_range]
  exact Nat.min_le_left _ _

theorem Call.Counted.add (h : c.Counted) {bytes : List PipeByte}
    (hlen : bytes.length ≤ c.size - c.total) (hne : c.total + bytes.length ≠ c.size) :
    Call.Counted { c with total := c.total + bytes.length, bytes := c.bytes ++ bytes } := by
  obtain ⟨htotal, hlt⟩ := h
  refine ⟨?_, ?_⟩
  · simp only [List.length_append, htotal]
  · simp only
    omega

theorem counted_blocked (c : Call) (blocked : Bool) (h : c.Counted) :
    Call.Counted { c with blocked := blocked } := h

section

variable (h : StreamInv s)

include h

theorem StreamInv.readRound (hc : c.Counted) (nonblock : Bool) :
    StreamInv (s.readRound t c nonblock) where
  fifo i hi := by
    simp only [PipeSys.readRound, PipeSys.endRound_pipes, PipeSys.endRound_written,
      PipeSys.endRound_readOut] at hi ⊢
    by_cases hslot : i = c.slot
    · subst hslot
      rw [update_self] at hi ⊢
      rw [update_self]
      exact (h.fifo c.slot hi).take _
    · rw [update_of_ne hslot] at hi ⊢
      rw [update_of_ne hslot]
      exact h.fifo i hi
  traced := by
    have hlen := PipeT.length_take (s.pipes c.slot) (c.size - c.total)
    simp only [PipeSys.readRound]
    apply Traced.endRound counted_blocked
    · exact ⟨h.traced.calls, h.traced.returned⟩
    · intro v hv hpos
      have heq := roundEnd_eq_some hv hpos fun _ => rfl
      simp only [heq, List.length_append, hc.1]
    · exact fun hnone => hc.add hlen (roundEnd_eq_none hnone)

theorem StreamInv.writeRound (hc : c.Counted) (nonblock : Bool) (src : Bytes) :
    StreamInv (s.writeRound t c nonblock src) where
  fifo i hi := by
    simp only [PipeSys.writeRound, PipeSys.endRound_pipes, PipeSys.endRound_written,
      PipeSys.endRound_readOut] at hi ⊢
    by_cases hslot : i = c.slot
    · subst hslot
      rw [update_self] at hi ⊢
      rw [update_self]
      exact (h.fifo c.slot hi).put _ _
    · rw [update_of_ne hslot] at hi ⊢
      rw [update_of_ne hslot]
      exact h.fifo i hi
  traced := by
    have hlen := PipeT.length_put (s.pipes c.slot)
      (fun k => (src (c.total + k), s.number c.slot)) (c.size - c.total)
    simp only [PipeSys.writeRound]
    apply Traced.endRound counted_blocked
    · exact ⟨h.traced.calls, h.traced.returned⟩
    · intro v hv hpos
      have heq := roundEnd_eq_some hv hpos fun hneg => absurd hneg (by decide)
      simp only [heq, List.length_append, hc.1]
    · exact fun hnone => hc.add hlen (roundEnd_eq_none hnone)

theorem StreamInv.round (hc : c.Counted) (nonblock : Bool) (src : Bytes) :
    StreamInv (s.round t c nonblock src) := by
  simp only [PipeSys.round]
  split_ifs
  · exact h.readRound hc nonblock
  · exact h.writeRound hc nonblock src

theorem StreamInv.finish {value : ℤ} (hv : 0 ≤ value → value = c.bytes.length) :
    StreamInv (s.finish t c value) :=
  ⟨h.fifo, h.traced.finish hv⟩

theorem StreamInv.startCall (isRead : Bool) (slot size : ℕ) (nonblock : Bool)
    (src : Bytes) : StreamInv (s.startCall t isRead slot size nonblock src) := by
  simp only [PipeSys.startCall]
  split_ifs with hopen hgone hzero
  · exact h.finish fun hneg => absurd hneg (by decide)
  · exact h.finish fun _ => rfl
  · exact h.round ⟨rfl, Nat.pos_of_ne_zero hzero⟩ nonblock src
  · exact h.finish fun hneg => absurd hneg (by decide)

theorem StreamInv.resumeCall (hc : c.Counted) (signal nonblock : Bool)
    (src : Bytes) : StreamInv (s.resumeCall t c signal nonblock src) := by
  simp only [PipeSys.resumeCall]
  split_ifs with hsignal hzero
  · exact h.finish fun hneg => absurd hneg (by decide)
  · exact h.finish fun _ => congrArg _ hc.1
  · exact h.round hc nonblock src

theorem StreamInv.create {buf : ℕ → PipeByte} (hs : s.create buf = some s') : StreamInv s' := by
  obtain ⟨i, -, rfl⟩ := Option.map_eq_some_iff.mp hs
  refine ⟨fun j hj => ?_, ⟨h.traced.calls, h.traced.returned⟩⟩
  by_cases hij : j = i
  · subst hij
    simp only [update_self]
    exact .new _ _
  · simp only [update_of_ne hij] at hj ⊢
    exact h.fifo j hj

theorem StreamInv.createFails {buf : ℕ → PipeByte}
    (hs : s.createFails buf = some s') : StreamInv s' := by
  obtain ⟨i, -, rfl⟩ := Option.map_eq_some_iff.mp hs
  refine ⟨fun j hj => ?_, ⟨h.traced.calls, h.traced.returned⟩⟩
  by_cases hij : j = i
  · subst hij
    simp only [update_self, Bool.false_eq_true] at hj
  · simp only [update_of_ne hij] at hj ⊢
    exact h.fifo j hj

theorem StreamInv.close (slot : ℕ) (isRead : Bool) : StreamInv (s.close slot isRead) := by
  simp only [PipeSys.close]
  split_ifs with hopen hlast
  · refine ⟨fun j hj => ?_, ⟨h.traced.calls, h.traced.returned⟩⟩
    by_cases hslot : j = slot
    · subst hslot
      simp only [update_self] at hj
      cases hj
    · simp only [update_of_ne hslot] at hj ⊢
      exact h.fifo j hj
  · refine ⟨fun j hj => ?_, ⟨?_, h.traced.returned⟩⟩
    · by_cases hslot : j = slot
      · subst hslot
        simp only [update_self]
        have hq := h.fifo j hopen.2
        exact ⟨hq.head_lt, hq.tail_eq, hq.count_le, hq.stream⟩
      · simp only [update_of_ne hslot] at hj ⊢
        exact h.fifo j hj
    · exact forall_wakeCond counted_blocked
        (forall_wakeCond counted_blocked h.traced.calls _ _) _ _
  · exact h

theorem StreamInv.step {e : PipeEvent} (hs : s.step e = some s') : StreamInv s' := by
  cases e with
  | create buf => exact h.create hs
  | createFails buf => exact h.createFails hs
  | call t isRead slot size nonblock src =>
    simp only [PipeSys.step] at hs
    rcases hcall : s.calls t with _ | c
    · simp only [hcall, Option.some.injEq] at hs
      exact hs ▸ h.startCall isRead slot size nonblock src
    · simp only [hcall, reduceCtorEq] at hs
  | resume t signal nonblock src =>
    simp only [PipeSys.step] at hs
    rcases hcall : s.calls t with _ | c
    · simp only [hcall, reduceCtorEq] at hs
    · simp only [hcall] at hs
      obtain ⟨-, hs⟩ := Option.ite_none_left_eq_some.mp hs
      cases hs
      exact h.resumeCall (h.traced.calls t c hcall) signal nonblock src
  | wake t =>
    cases hs
    refine ⟨h.fifo, ⟨fun t' c' hc' => ?_, h.traced.returned⟩⟩
    by_cases ht : t' = t
    · subst ht
      simp only [update_self] at hc'
      obtain ⟨c, hc, rfl⟩ := Option.map_eq_some_iff.mp hc'
      exact h.traced.calls t' c hc
    · simp only [update_of_ne ht] at hc'
      exact h.traced.calls t' c' hc'
  | close slot isRead =>
    cases hs
    exact h.close slot isRead
  | reuse slot buf =>
    obtain ⟨hfree, hs⟩ := Option.ite_none_left_eq_some.mp hs
    cases hs
    refine ⟨fun j hj => ?_, ⟨h.traced.calls, h.traced.returned⟩⟩
    by_cases hslot : j = slot
    · subst hslot
      simp only [update_self] at hj
      exact absurd hj hfree
    · simp only [update_of_ne hslot] at hj ⊢
      exact h.fifo j hj

end

theorem streamInv_start : StreamInv PipeSys.start :=
  ⟨fun _ h => absurd h Bool.false_ne_true,
    ⟨fun _ _ h => absurd h.symm (Option.some_ne_none _), fun _ h => absurd h List.not_mem_nil⟩⟩

/-- **A pipe is a stream of bytes**, in every state of every run: the three numbers fit together,
what went in is what came out followed by what is still there, and a call that returns a number of
bytes has copied that many. -/
theorem pipe_stream (s : PipeSys) (es : List PipeEvent)
    (hrun : Run PipeSys.step (fun _ _ => True) PipeSys.start es s) :
    (∀ i, (s.pipes i).inUse = true →
      (s.pipes i).tail = ((s.pipes i).head + (s.pipes i).count) % pipeBufSz ∧
      (s.pipes i).count ≤ pipeBufSz ∧ s.written i = s.readOut i ++ (s.pipes i).content) ∧
    ∀ r ∈ s.returned, 0 ≤ r.value → r.value = r.bytes.length := by
  have hinv : StreamInv s := hrun.invariant (fun _ _ _ h _ hs => h.step hs) streamInv_start
  exact ⟨fun i hi => ⟨(hinv.fifo i hi).tail_eq, (hinv.fifo i hi).count_le, (hinv.fifo i hi).stream⟩,
    hinv.traced.returned⟩

def task0 : Fin maxTasks := ⟨0, by decide⟩

@[inherit_doc task0]
def task1 : Fin maxTasks := ⟨1, by decide⟩

def writeThenRead : List PipeEvent :=
  [.create fun _ => (0, 0), .call task0 false 0 3 false fun _ => 7,
    .call task1 true 0 2 false fun _ => 0]

theorem pipe_stream_write_then_read :
    ∃ s, Run PipeSys.step (fun _ _ => True) PipeSys.start writeThenRead s ∧
      (s.readOut 0).length = 2 ∧ s.written 0 = s.readOut 0 ++ (s.pipes 0).content := by
  have hex : ∃ s, Run PipeSys.step (fun _ _ => True) PipeSys.start writeThenRead s ∧
      (s.pipes 0).inUse = true ∧ (s.readOut 0).length = 2 := exists_run (by decide +kernel)
  obtain ⟨s, hrun, hin, hout⟩ := hex
  exact ⟨s, hrun, hout, ((pipe_stream s _ hrun).1 0 hin).2.2⟩

end BananaOS.Fs
