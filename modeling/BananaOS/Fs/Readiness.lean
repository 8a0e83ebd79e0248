import BananaOS.Ext2.OpenFile
import BananaOS.Fs.LoopStream
import BananaOS.Fs.PipeStream

/-!
# Readiness

`poll_check_one` says whether a descriptor is ready; `vfs_read` and `vfs_write` go to the operations
of the file.  The two sides were written apart from each other, and for three kinds of files they
answer different questions.
-/

namespace BananaOS.Fs

open Function Ext2
open Proc (maxTasks)

/-! ## The keyboard and the terminal -/

def newline : Byte := 10

def backspace : Byte := 8

/-- What fits into `kbd_buf`, where one slot always stays empty. -/
def kbdRoom : ℕ := 255

def bufPut (keys : List Byte) (c : Byte) : List Byte :=
  if keys.length < kbdRoom then keys ++ [c] else keys

/-- A byte of the serial line, as `kbd_poll` takes it. -/
def fromSerial (c : Byte) : Byte :=
  if c = 13 then newline else if c = 0x7F then backspace else c

/-- `kbd_poll`: the bytes on the serial line, and the character of the PS/2 keyboard if there is one
(its scan codes are translated before). -/
def kbdPoll (keys serial : List Byte) (ps2 : Option Byte) : List Byte :=
  let keys := serial.foldl (fun keys c => bufPut keys (fromSerial c)) keys
  match ps2 with
  | none => keys
  | some c => bufPut keys c

/-- The size of `tty_ibuf`. -/
def ttyIbufSize : ℕ := 256

/-- The terminal: its mode, what is in `tty_ibuf`, and the keys that wait. -/
structure Tty where
  /-- Whether `TTY_ICANON` is in `tty_c_lflag`. -/
  canonical : Bool
  vmin : ℕ
  /-- The first `tty_ibuf_len` bytes of `tty_ibuf`. -/
  ibuf : List Byte
  pos : ℕ
  keys : List Byte

/-- `devfs_tty_readable`. -/
def ttyReadable (t : Tty) (serial : List Byte) (ps2 : Option Byte) : Bool × Tty :=
  if t.pos < t.ibuf.length then (true, t)
  else
    let keys := kbdPoll t.keys serial ps2
    (!keys.isEmpty, { t with keys := keys })

def ibufPut (ibuf : List Byte) (c : Byte) : List Byte :=
  if ibuf.length < ttyIbufSize then ibuf ++ [c] else ibuf

/-- The loop of `tty_read` in canonical mode: whether a newline came, the buffer, and the keys
left. -/
def canonLoop : List Byte → List Byte → Bool × List Byte × List Byte
  | [], ibuf => (false, ibuf, [])
  | c :: keys, ibuf =>
    if c = newline then (true, ibufPut ibuf c, keys)
    else if c = backspace then canonLoop keys ibuf.dropLast
    else canonLoop keys (ibufPut ibuf c)

/-- The loop of `tty_read` in raw mode, until there are `need` bytes. -/
def rawLoop (need : ℤ) : List Byte → List Byte → Bool × List Byte × List Byte
  | [], ibuf => (decide (need ≤ ibuf.length), ibuf, [])
  | c :: keys, ibuf =>
    if (ibuf.length : ℤ) < need then rawLoop need keys (ibuf ++ [c]) else (true, ibuf, c :: keys)

/-- The number of bytes that `tty_read` waits for in raw mode. -/
def rawNeed (vmin size : ℕ) : ℤ :=
  let need : ℤ := if 1 ≤ vmin then vmin else 1
  let need := if (ttyIbufSize : ℤ) < need then (ttyIbufSize : ℤ) else need
  if toInt32 size < need then toInt32 size else need

inductive Outcome where
  | returns (value : ℤ)
  | blocks
  /-- Something is copied whose length is a negative `int`. -/
  | overruns

/-- The end of `tty_read`: `size` bytes at most are handed out from `pos` on. -/
def ttyHandOut (t : Tty) (pos size : ℕ) : Outcome × Tty :=
  let n := min (t.ibuf.length - pos) size
  if t.ibuf.length ≤ pos + n then (.returns n, { t with ibuf := [], pos := 0 })
  else (.returns n, { t with pos := pos + n })

/-- `tty_read`, up to the first time it blocks. -/
def ttyRead (t : Tty) (size : ℕ) : Outcome × Tty :=
  if size = 0 then (.returns 0, t)
  else if t.pos < t.ibuf.length then ttyHandOut t t.pos size
  else
    let r := if t.canonical = true then canonLoop t.keys t.ibuf
      else rawLoop (rawNeed t.vmin size) t.keys t.ibuf
    let t := { t with ibuf := r.2.1, keys := r.2.2 }
    if r.1 = true then ttyHandOut t 0 size else (.blocks, t)

/-! ## UDP sockets -/

def udpMaxBinds : ℕ := 8

/-- `udp_bind_t`, with the payloads that wait. -/
structure UdpBind where
  used : Bool
  port : ℕ
  queue : List (List Byte)

/-- `udp_sock_t`. -/
structure UdpSock where
  used : Bool
  port : ℕ
  peerIp : ℕ

def udpFind (binds : ℕ → UdpBind) (port : ℕ) : Option ℕ :=
  (List.range udpMaxBinds).find? fun b => (binds b).used && ((binds b).port == port)

def udpRecv (binds : ℕ → UdpBind) (port : ℕ) (max : ℤ) : ℤ × (ℕ → UdpBind) :=
  match udpFind binds port with
  | none => (-1, binds)
  | some b =>
    match (binds b).queue with
    | [] => (0, binds)
    | first :: rest =>
      (min (first.length : ℤ) max, update binds b { binds b with queue := rest })

/-- `udp_file_read`, up to the first time it blocks, for the socket that the file object has. -/
def udpFileRead (binds : ℕ → UdpBind) (sock : Option UdpSock) (nonblock : Bool) (size : ℕ) :
    Outcome × (ℕ → UdpBind) :=
  match sock with
  | none => (.returns (-9), binds)
  | some s =>
    if s.used = false ∨ s.port = 0 then (.returns (-9), binds)
    else
      let r := udpRecv binds s.port (toInt32 size)
      if 0 < r.1 then (.returns r.1, r.2)
      else if r.1 < 0 then
        -- there is no binding, or the length that was copied was negative
        (if udpFind binds s.port = none then .returns (-9) else .overruns, r.2)
      else if nonblock = true then (.returns (-11), r.2)
      else (.blocks, r.2)

/-- `udp_file_write`, where `sent` says whether `udp_send` gets the packet out. -/
def udpFileWrite (sock : Option UdpSock) (size : ℕ) (sent : Bool) : Outcome :=
  match sock with
  | none => .returns (-9)
  | some s =>
    if s.used = false then .returns (-9)
    else if s.peerIp = 0 then .returns (-107)
    else if sent = false then .returns (-5)
    else .returns size

/-! ## Files of all kinds -/

inductive FileKind where
  | pipeRead (slot : ℕ) (nonblock : Bool)
  | pipeWrite (slot : ℕ) (nonblock : Bool)
  | tty
  | udp (sock : Option ℕ) (nonblock : Bool)
  | loop (i : ℕ)
  | regular (f : FileT)

structure IoSys where
  pipes : PipeSys
  tty : Tty
  udpSocks : ℕ → UdpSock
  udpBinds : ℕ → UdpBind
  loop : StreamNet
  mount : Mount
  fs : Ext2.Fs

structure Revents where
  pollin : Bool
  pollout : Bool
  pollerr : Bool
  pollhup : Bool
  pollnval : Bool

namespace IoSys

/-- The pipe that `pipe_find` finds. -/
def pipeFind (s : IoSys) (slot : ℕ) : Option PipeT :=
  if slot < maxPipes ∧ (s.pipes.pipes slot).inUse = true then some (s.pipes.pipes slot) else none

/-- `poll_check_one`, with what the keyboard delivers meanwhile. -/
def pollCheckOne (s : IoSys) (f : Option FileKind) (wantIn wantOut : Bool) (serial : List Byte)
    (ps2 : Option Byte) : Revents × IoSys :=
  match f with
  | none => (⟨false, false, false, false, true⟩, s)
  | some (.pipeRead slot _) =>
    match s.pipeFind slot with
    | none => (⟨false, false, false, true, false⟩, s)
    | some p =>
      (⟨wantIn && (decide (0 < p.count) || decide (p.writers = 0)), false, false,
        decide (p.writers = 0), false⟩, s)
  | some (.pipeWrite slot _) =>
    match s.pipeFind slot with
    | none => (⟨false, false, true, true, false⟩, s)
    | some p =>
      (⟨false, wantOut && (decide (p.count < pipeBufSz) || decide (p.readers = 0)),
        decide (p.readers = 0), decide (p.readers = 0), false⟩, s)
  | some .tty =>
    if wantIn = true then
      let r := ttyReadable s.tty serial ps2
      (⟨r.1, wantOut, false, false, false⟩, { s with tty := r.2 })
    else (⟨false, wantOut, false, false, false⟩, s)
  | some _ => (⟨wantIn, wantOut, false, false, false⟩, s)

/-- The end of a call on a pipe: it is in progress, or its value is the last one noted. -/
def pipeOutcome (p : PipeSys) (t : Fin maxTasks) : Outcome :=
  match p.calls t with
  | some _ => .blocks
  | none => .returns ((p.returned.getLast?.map Returned.value).getD 0)

/-- `vfs_read` by task `t`, up to the first time it blocks. -/
def read (s : IoSys) (k : FileKind) (t : Fin maxTasks) (size : ℕ) : Outcome × IoSys :=
  match k with
  | .pipeRead slot nonblock =>
    let p := s.pipes.startCall t true slot size nonblock fun _ => 0
    (pipeOutcome p t, { s with pipes := p })
  | .pipeWrite _ _ => (.returns (-1), s)
  | .tty =>
    let r := ttyRead s.tty size
    (r.1, { s with tty := r.2 })
  | .udp sock nonblock =>
    let r := udpFileRead s.udpBinds (sock.map s.udpSocks) nonblock size
    (r.1, { s with udpBinds := r.2 })
  | .loop i =>
    let r := s.loop.recv i size
    (.returns r.1.length, { s with loop := r.2 })
  | .regular f =>
    let r := ext2ReadOp s.mount f size s.fs
    (.returns r.1, { s with fs := r.2.2.2 })

/-- `vfs_write` by task `t` of `size` bytes of `src`, up to the first time it blocks; `sent` says
whether a UDP packet gets out. -/
def write (s : IoSys) (k : FileKind) (t : Fin maxTasks) (src : Bytes) (size : ℕ) (sent : Bool) :
    Outcome × IoSys :=
  match k with
  | .pipeRead _ _ => (.returns (-1), s)
  | .pipeWrite slot nonblock =>
    let p := s.pipes.startCall t false slot size nonblock src
    (pipeOutcome p t, { s with pipes := p })
  | .tty => (.returns size, s)
  | .udp sock _ => (udpFileWrite (sock.map s.udpSocks) size sent, s)
  | .loop i =>
    let r := s.loop.send i ((List.range size).map src)
    (.returns r.1, { s with loop := r.2 })
  | .regular f =>
    let r := ext2WriteOp s.mount f src size s.fs
    (.returns r.1, { s with fs := r.2.2 })

end IoSys

/-! ## One kind at a time -/

def Outcome.Returns (o : Outcome) : Prop := ∃ v, o = .returns v

variable {size : ℕ} {nonblock : Bool}

section Pipe

variable {s : PipeSys} {t : Fin maxTasks} {c : Call}

theorem pipeOutcome_returns : (IoSys.pipeOutcome s t).Returns ↔ s.calls t = none := by
  rw [IoSys.pipeOutcome]
  rcases s.calls t with _ | c
  · exact iff_of_true ⟨_, rfl⟩ rfl
  · exact iff_of_false nofun nofun

theorem calls_finish (value : ℤ) : (s.finish t c value).calls t = none :=
  update_self ..

theorem calls_endRound (woke : Bool) (value : Option ℤ) :
    (s.endRound t c woke value).calls t = none ↔ value ≠ none := by
  rcases value with _ | v
  · refine iff_of_false (fun h => ?_) fun h => h rfl
    simp only [PipeSys.endRound, update_self] at h
    cases h
  · exact iff_of_true (update_self ..) (Option.some_ne_none v)

theorem roundEnd_blocks_iff {otherEnd total : ℕ} {gone : ℤ} :
    roundEnd otherEnd gone nonblock size total = none ↔
      total ≠ size ∧ otherEnd ≠ 0 ∧ nonblock = false := by
  rw [roundEnd]
  split_ifs with h1 h2 h3 h4
  · exact iff_of_false not_false fun h => h.1 h1
  · exact iff_of_false not_false fun h => h.2.1 h2
  · exact iff_of_false not_false fun h => Bool.false_ne_true (h.2.2.symm.trans h3)
  · exact iff_of_false not_false fun h => Bool.false_ne_true (h.2.2.symm.trans h3)
  · exact iff_of_true rfl ⟨h1, h2, Bool.not_eq_true _ ▸ h3⟩

theorem pipe_read_returns {slot : ℕ} (src : Bytes) (hsize : 1 ≤ size)
    (hpipe : slot < maxPipes ∧ (s.pipes slot).inUse = true) :
    (s.startCall t true slot size nonblock src).calls t = none ↔
      size ≤ (s.pipes slot).count ∨ (s.pipes slot).writers = 0 ∨ nonblock = true := by
  rw [PipeSys.startCall, if_pos hpipe, if_neg (fun h => Bool.false_ne_true h.1.symm),
    if_neg (by omega), PipeSys.round, if_pos rfl, PipeSys.readRound]
  dsimp only
  rw [calls_endRound, Ne, roundEnd_blocks_iff]
  have hlen : ((s.pipes slot).take (size - 0)).1.length = min size (s.pipes slot).count := by
    simp only [PipeT.take, RingQueue.length_readBlock, Nat.sub_zero]
  rw [hlen]
  cases nonblock with
  | true => exact iff_of_true (fun h => Bool.false_ne_true h.2.2.symm) (.inr (.inr rfl))
  | false =>
    constructor
    · intro h
      by_contra hn
      exact h ⟨by omega, by omega, rfl⟩
    · rintro (h | h | h) hn
      · exact hn.1 (by omega)
      · exact hn.2.1 h
      · cases h

theorem pipe_write_returns {slot : ℕ} (src : Bytes)
    (hpipe : slot < maxPipes ∧ (s.pipes slot).inUse = true)
    (hready : (s.pipes slot).count < pipeBufSz ∨ (s.pipes slot).readers = 0) :
    (s.startCall t false slot 1 nonblock src).calls t = none := by
  rw [PipeSys.startCall, if_pos hpipe]
  by_cases hgone : (s.pipes slot).readers = 0
  · rw [if_pos ⟨rfl, hgone⟩]
    exact calls_finish _
  · have hroom := hready.resolve_right hgone
    rw [if_neg (fun h => hgone h.2), if_neg (by decide), PipeSys.round,
      if_neg Bool.false_ne_true, PipeSys.writeRound]
    dsimp only
    rw [calls_endRound, Ne, roundEnd_blocks_iff]
    have hlen : ((s.pipes slot).put (fun k => (src (0 + k), s.number slot))
        (1 - 0)).1.length = 1 := by
      simp only [PipeT.put, List.length_map, List.length_range]
      omega
    rw [hlen]
    exact fun h => h.1 rfl

end Pipe

section Terminal

theorem ttyHandOut_returns (t : Tty) (pos size : ℕ) : (ttyHandOut t pos size).1.Returns := by
  rw [ttyHandOut]
  split_ifs
  · exact ⟨_, rfl⟩
  · exact ⟨_, rfl⟩

theorem canonLoop_done (keys ibuf : List Byte) :
    (canonLoop keys ibuf).1 = true ↔ newline ∈ keys := by
  induction keys generalizing ibuf with
  | nil => exact iff_of_false Bool.false_ne_true List.not_mem_nil
  | cons c keys ih =>
    rw [canonLoop]
    split_ifs with hc hb
    · exact iff_of_true rfl (hc ▸ List.mem_cons_self)
    · rw [ih, List.mem_cons, or_iff_right fun h => hc h.symm]
    · rw [ih, List.mem_cons, or_iff_right fun h => hc h.symm]

theorem rawLoop_done (need : ℤ) (keys ibuf : List Byte) :
    (rawLoop need keys ibuf).1 = true ↔ need ≤ ibuf.length + keys.length := by
  induction keys generalizing ibuf with
  | nil => simp [rawLoop]
  | cons c keys ih =>
    rw [rawLoop]
    split_ifs with hlt
    · rw [ih]
      simp only [List.length_append, List.length_cons, List.length_nil]
      push_cast
      omega
    · refine iff_of_true rfl ?_
      have hlen : (0 : ℤ) ≤ ((c :: keys).length : ℕ) := Int.natCast_nonneg _
      omega

theorem ttyRead_returns (t : Tty) (hsize : 1 ≤ size) :
    (ttyRead t size).1.Returns ↔ t.pos < t.ibuf.length ∨
      (if t.canonical = true then newline ∈ t.keys
        else rawNeed t.vmin size ≤ t.ibuf.length + t.keys.length) := by
  rw [ttyRead, if_neg (by omega)]
  by_cases hleft : t.pos < t.ibuf.length
  · rw [if_pos hleft]
    exact iff_of_true (ttyHandOut_returns ..) (.inl hleft)
  rw [if_neg hleft, or_iff_right hleft]
  dsimp only
  by_cases hcanon : t.canonical = true
  · rw [if_pos hcanon, if_pos hcanon, ← canonLoop_done t.keys t.ibuf]
    split_ifs with hdone
    · exact iff_of_true (ttyHandOut_returns ..) hdone
    · exact iff_of_false nofun hdone
  · rw [if_neg hcanon, if_neg hcanon, ← rawLoop_done (rawNeed t.vmin size) t.keys t.ibuf]
    split_ifs with hdone
    · exact iff_of_true (ttyHandOut_returns ..) hdone
    · exact iff_of_false nofun hdone

end Terminal

/-- A read of a bound socket does not return: the queue is empty, the first datagram is, or the size
is too large for an `int`. -/
def UdpSock.Waits (s : UdpSock) (binds : ℕ → UdpBind) (size : ℕ) (nonblock : Bool) : Prop :=
  match udpFind binds s.port with
  | none => False
  | some b =>
    match (binds b).queue with
    | [] => nonblock = false
    | first :: _ => toInt32 size < 0 ∨ ((first.length = 0 ∨ toInt32 size = 0) ∧ nonblock = false)

theorem udpFileRead_returns (binds : ℕ → UdpBind) (s : UdpSock) (nonblock : Bool) (size : ℕ) :
    (udpFileRead binds (some s) nonblock size).1.Returns ↔
      (s.used = false ∨ s.port = 0) ∨ ¬ s.Waits binds size nonblock := by
  rw [udpFileRead]
  dsimp only
  by_cases hoff : s.used = false ∨ s.port = 0
  · rw [if_pos hoff]
    exact iff_of_true ⟨_, rfl⟩ (.inl hoff)
  rw [if_neg hoff, or_iff_right hoff, UdpSock.Waits]
  rcases hfind : udpFind binds s.port with _ | b
  · have hrecv : udpRecv binds s.port (toInt32 size) = (-1, binds) := by rw [udpRecv, hfind]
    rw [hrecv]
    exact iff_of_true ⟨_, rfl⟩ id
  dsimp only
  rcases hqueue : (binds b).queue with _ | ⟨first, rest⟩
  · have hrecv : udpRecv binds s.port (toInt32 size) = (0, binds) := by
      simp only [udpRecv, hfind, hqueue]
    rw [hrecv]
    cases nonblock with
    | true => exact iff_of_true ⟨_, rfl⟩ nofun
    | false => exact iff_of_false nofun fun h => h rfl
  · have hrecv : (udpRecv binds s.port (toInt32 size)).1 =
        min (first.length : ℤ) (toInt32 size) := by
      simp only [udpRecv, hfind, hqueue]
    have hlen : (0 : ℤ) ≤ first.length := Int.natCast_nonneg _
    dsimp only
    rw [hrecv]
    split_ifs with hpos hneg hnil hblock
    · exact iff_of_true ⟨_, rfl⟩ (by omega)
    · cases hnil
    · exact iff_of_false nofun fun h => h (.inl (by omega))
    · refine iff_of_true ⟨_, rfl⟩ ?_
      rw [hblock]
      rintro (h | h)
      · omega
      · cases h.2
    · exact iff_of_false nofun fun h => h (.inr ⟨by omega, Bool.not_eq_true _ ▸ hblock⟩)

/-! ## Readiness and the calls -/

/-- **What POLLIN has to mean for a `read` of `size` bytes**, besides what it does mean: there is
nothing to report, or what there is is enough for the call. -/
def IoSys.EnoughToRead (s : IoSys) (k : FileKind) (serial : List Byte) (ps2 : Option Byte)
    (size : ℕ) : Prop :=
  match k with
  | .pipeRead slot nonblock =>
    slot < maxPipes ∧ (s.pipes.pipes slot).inUse = true → (s.pipes.pipes slot).count = 0 ∨
      size ≤ (s.pipes.pipes slot).count ∨ (s.pipes.pipes slot).writers = 0 ∨ nonblock = true
  | .tty =>
    s.tty.pos < s.tty.ibuf.length ∨ kbdPoll s.tty.keys serial ps2 = [] ∨
      (if s.tty.canonical = true then newline ∈ kbdPoll s.tty.keys serial ps2
        else rawNeed s.tty.vmin size ≤
          s.tty.ibuf.length + (kbdPoll s.tty.keys serial ps2).length)
  | .udp sock nonblock =>
    ∀ k, sock = some k → ((s.udpSocks k).used = false ∨ (s.udpSocks k).port = 0) ∨
      ¬ (s.udpSocks k).Waits s.udpBinds size nonblock
  | _ => True

/-- **POLLIN is right about a `read` of `size` bytes, and POLLOUT about a `write` of one**, if the
calls are the next thing that happens. -/
def IoSys.Agrees (s : IoSys) (k : FileKind) (t : Fin maxTasks) (wantIn wantOut : Bool)
    (serial : List Byte) (ps2 : Option Byte) (size : ℕ) (src : Bytes) (sent : Bool) : Prop :=
  let r := s.pollCheckOne (some k) wantIn wantOut serial ps2
  (r.1.pollin = true → (r.2.read k t size).1.Returns) ∧
    (r.1.pollout = true → (r.2.write k t src 1 sent).1.Returns)

theorem pollout_right (s : IoSys) (k : FileKind) (t : Fin maxTasks) (wantIn wantOut : Bool)
    (serial : List Byte) (ps2 : Option Byte) (src : Bytes) (sent : Bool)
    (hout : (s.pollCheckOne (some k) wantIn wantOut serial ps2).1.pollout = true) :
    ((s.pollCheckOne (some k) wantIn wantOut serial ps2).2.write k t src 1 sent).1.Returns := by
  cases k with
  | pipeRead slot nonblock => exact ⟨_, rfl⟩
  | pipeWrite slot nonblock =>
    simp only [IoSys.pollCheckOne, IoSys.pipeFind] at hout ⊢
    split_ifs at hout ⊢ with hpipe
    · rw [Bool.and_eq_true, Bool.or_eq_true, decide_eq_true_eq, decide_eq_true_eq] at hout
      exact pipeOutcome_returns.mpr (pipe_write_returns src hpipe hout.2)
  | tty => exact ⟨_, rfl⟩
  | udp sock nonblock =>
    simp only [IoSys.write, udpFileWrite]
    rcases Option.map _ sock with _ | u
    · exact ⟨_, rfl⟩
    · dsimp only
      split_ifs
      all_goals exact ⟨_, rfl⟩
  | loop i => exact ⟨_, rfl⟩
  | regular f => exact ⟨_, rfl⟩

theorem pollin_right_iff (s : IoSys) (k : FileKind) (t : Fin maxTasks) (wantOut : Bool)
    (serial : List Byte) (ps2 : Option Byte) (hsize : 1 ≤ size) :
    ((s.pollCheckOne (some k) true wantOut serial ps2).1.pollin = true →
      ((s.pollCheckOne (some k) true wantOut serial ps2).2.read k t size).1.Returns) ↔
    s.EnoughToRead k serial ps2 size := by
  cases k with
  | pipeRead slot nonblock =>
    simp only [IoSys.EnoughToRead, IoSys.pollCheckOne, IoSys.pipeFind]
    split_ifs with hpipe
    · simp only [IoSys.read, pipeOutcome_returns, pipe_read_returns _ hsize hpipe, Bool.true_and,
        Bool.or_eq_true, decide_eq_true_eq]
      constructor
      · intro h _
        rcases Nat.eq_zero_or_pos (s.pipes.pipes slot).count with h0 | hpos
        · exact .inl h0
        · exact .inr (h (.inl hpos))
      · rintro h (hpos | hgone)
        · exact (h hpipe).resolve_left hpos.ne'
        · exact .inr (.inl hgone)
    · exact iff_of_true nofun fun h => absurd h hpipe
  | pipeWrite slot nonblock => exact iff_of_true (fun _ => ⟨_, rfl⟩) trivial
  | tty =>
    simp only [IoSys.EnoughToRead, IoSys.pollCheckOne, IoSys.read, ttyReadable]
    by_cases hleft : s.tty.pos < s.tty.ibuf.length
    · rw [if_pos hleft]
      exact iff_of_true (fun _ => (ttyRead_returns s.tty hsize).mpr (.inl hleft)) (.inl hleft)
    · rw [if_neg hleft, or_iff_right hleft]
      simp only [if_true]
      rw [ttyRead_returns _ hsize, or_iff_right hleft]
      rcases hkeys : kbdPoll s.tty.keys serial ps2 with _ | ⟨c, keys⟩
      · exact iff_of_true nofun (.inl rfl)
      · rw [or_iff_right (List.cons_ne_nil c keys)]
        exact ⟨fun h => h rfl, fun h _ => h⟩
  | udp sock nonblock =>
    simp only [IoSys.EnoughToRead, IoSys.pollCheckOne, IoSys.read]
    rcases sock with _ | k
    · exact iff_of_true (fun _ => ⟨_, rfl⟩) nofun
    · rw [Option.map_some, udpFileRead_returns]
      exact ⟨fun h k' hk' => Option.some.inj hk' ▸ h trivial, fun h _ => h k rfl⟩
  | loop i => exact iff_of_true (fun _ => ⟨_, rfl⟩) trivial
  | regular f => exact iff_of_true (fun _ => ⟨_, rfl⟩) trivial

theorem pollin_not_wanted (s : IoSys) (k : FileKind) (wantOut : Bool) (serial : List Byte)
    (ps2 : Option Byte) :
    (s.pollCheckOne (some k) false wantOut serial ps2).1.pollin = false := by
  cases k with
  | pipeRead slot nonblock =>
    simp only [IoSys.pollCheckOne]
    cases s.pipeFind slot with
    | none => rfl
    | some p => rfl
  | pipeWrite slot nonblock =>
    simp only [IoSys.pollCheckOne]
    cases s.pipeFind slot with
    | none => rfl
    | some p => rfl
  | tty => rfl
  | udp sock nonblock => rfl
  | loop i => rfl
  | regular f => rfl

/-- **Readiness agrees with reading and writing if and only if POLLIN is not asked for or what there
is is enough**, in every state, for every kind of file and every size. -/
theorem readiness_agrees_iff (s : IoSys) (k : FileKind) (t : Fin maxTasks) (wantIn wantOut : Bool)
    (serial : List Byte) (ps2 : Option Byte) {size : ℕ} (hsize : 1 ≤ size) (src : Bytes)
    (sent : Bool) :
    s.Agrees k t wantIn wantOut serial ps2 size src sent ↔
      (wantIn = true → s.EnoughToRead k serial ps2 size) := by
  rw [IoSys.Agrees, and_iff_left (pollout_right s k t wantIn wantOut serial ps2 src sent)]
  cases wantIn with
  | true =>
    rw [pollin_right_iff s k t wantOut serial ps2 hsize]
    exact ⟨fun h _ => h, fun h => h rfl⟩
  | false =>
    rw [pollin_not_wanted]
    exact iff_of_true nofun nofun

def quietSys (p : PipeSys) : IoSys where
  pipes := p
  tty := ⟨true, 1, [], 0, []⟩
  udpSocks := fun _ => ⟨false, 0, 0⟩
  udpBinds := fun _ => ⟨false, 0, []⟩
  loop := Traffic.boot.kern
  mount := sampleVolume.m
  fs := sampleFs

/-- A line was typed. -/
theorem readiness_agrees_line : 1 ≤ 80 ∧
    (quietSys .start).Agrees .tty task0 true true [104, 105, 13] none 80 (fun _ => 0) true :=
  have hsize : 1 ≤ 80 := by decide
  ⟨hsize, (readiness_agrees_iff (quietSys .start) .tty task0 true true [104, 105, 13] none hsize
    (fun _ => 0) true).mpr fun _ => .inr (.inr (by decide))⟩

/-- **POLLIN promises too much.**  A pipe with one byte is ready, and a `read` of two waits; the
terminal is ready after the first key of a line, and a `read` of one byte waits. -/
theorem poll_promises_too_much :
    (∃ p, GuardedRun.Run PipeSys.step (fun _ _ => True) PipeSys.start
        [.create fun _ => (0, 0), .call task0 false 0 1 false fun _ => 7] p ∧
      ¬ (quietSys p).Agrees (.pipeRead 0 false) task0 true false [] none 2 (fun _ => 0) true) ∧
    ¬ (quietSys .start).Agrees .tty task0 true false [104] none 1 (fun _ => 0) true := by
  constructor
  · have hex : ∃ p, GuardedRun.Run PipeSys.step (fun _ _ => True) PipeSys.start
        [.create fun _ => (0, 0), .call task0 false 0 1 false fun _ => 7] p ∧
        ((p.pipes 0).inUse = true ∧ (p.pipes 0).count = 1 ∧ (p.pipes 0).writers = 1) :=
      GuardedRun.exists_run (by decide +kernel)
    obtain ⟨p, hrun, hpipe, hcount, hwriters⟩ := hex
    refine ⟨p, hrun, fun h => ?_⟩
    have henough := (pollin_right_iff (quietSys p) (.pipeRead 0 false) task0 false [] none
      (show 0 < 2 by decide)).mp h.1
    have hfour := henough ⟨by decide, hpipe⟩
    simp only [quietSys, hcount, hwriters] at hfour
    revert hfour
    decide
  · intro h
    have henough := (pollin_right_iff (quietSys .start) .tty task0 false [104] none
      (show 0 < 1 by decide)).mp h.1
    revert henough
    rw [IoSys.EnoughToRead]
    decide

end BananaOS.Fs
