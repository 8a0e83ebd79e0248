import BananaOS.Fs.Loopback
import BananaOS.Lib.Bytes
import BananaOS.Lib.GuardedRun

/-!
# Streams over loopback sockets

`Fs.Loopback` has the pools of `loopback.c` and says who holds what; it has no bytes.  Here every
endpoint gets its receive ring, and `send`, `recv` and `shutdown` join the calls.
-/

namespace BananaOS.Fs

open Function SlotTable RingQueue Ownership GuardedRun

/-! ## Rings -/

def loopBufSize : ℕ := 256

theorem loopBufSize_pos : 0 < loopBufSize := by decide

/-- `loop_rbuf_t`. -/
abbrev RBuf := Ring Byte loopBufSize

def rbufPut (r : RBuf) (src : List Byte) : ℕ × RBuf :=
  let n := min src.length (loopBufSize - r.count)
  (n, r.enqueueAll (src.take n))

def rbufGet (r : RBuf) (n : ℕ) : List Byte × RBuf := r.dequeueMany (min n r.count)

/-- The loop of `loop_recv_io`, where `left` bytes are still asked for.  An empty ring ends it: at
once if one side is closed, after the spinning if not. -/
def recvLoop : ℕ → RBuf → ℕ → List Byte × RBuf
  | 0, r, _ => ([], r)
  | fuel + 1, r, left =>
    if left = 0 then ([], r)
    else if r.count = 0 then ([], r)
    else
      let piece := rbufGet r (min left loopBufSize)
      if piece.1.length = 0 then piece
      else
        let rest := recvLoop fuel piece.2 (left - piece.1.length)
        (piece.1 ++ rest.1, rest.2)

/-- The loop of `loop_send_io`, where `src` is still to be sent, with the number of bytes that the
ring takes. -/
def sendLoop : ℕ → RBuf → List Byte → ℕ × RBuf
  | 0, r, _ => (0, r)
  | fuel + 1, r, src =>
    if src.length = 0 then (0, r)
    else if loopBufSize ≤ r.count then (0, r)
    else
      let piece := rbufPut r (src.take loopBufSize)
      if piece.1 = 0 then piece
      else
        let rest := sendLoop fuel piece.2 (src.drop piece.1)
        (piece.1 + rest.1, rest.2)

theorem rbufGet_eq (r : RBuf) (n : ℕ) :
    (rbufGet r n).1 = r.toList.take n ∧ (rbufGet r n).2.toList = r.toList.drop n := by
  obtain ⟨hbytes, hrest⟩ := r.dequeueMany_eq (min n r.count)
  have hlen := r.length_toList
  refine ⟨hbytes.trans ?_, hrest.trans ?_⟩
  · rw [← hlen, ← List.take_take, List.take_length]
  · rcases le_total n r.count with hle | hle
    · rw [min_eq_left hle]
    · rw [min_eq_right hle, List.drop_eq_nil_of_le hlen.le,
        List.drop_eq_nil_of_le (hlen.le.trans hle)]

theorem recvLoop_eq (fuel : ℕ) (r : RBuf) {left : ℕ} (h : left ≤ fuel) :
    (recvLoop fuel r left).1 = r.toList.take left ∧
      (recvLoop fuel r left).2.toList = r.toList.drop left := by
  induction fuel generalizing r left with
  | zero =>
    obtain rfl : left = 0 := Nat.le_zero.mp h
    exact ⟨rfl, rfl⟩
  | succ fuel ih =>
    rw [recvLoop]
    dsimp only
    split_ifs with h0 hempty hpiece
    · rw [h0]
      exact ⟨rfl, rfl⟩
    · have hnil : r.toList = [] := List.length_eq_zero_iff.mp (r.length_toList.trans hempty)
      rw [hnil]
      exact ⟨List.take_nil.symm, List.drop_nil.symm⟩
    · -- a ring that is not empty gives at least one byte
      exfalso
      rw [(rbufGet_eq r _).1, List.length_take, r.length_toList] at hpiece
      have := loopBufSize_pos
      omega
    · obtain ⟨hbytes, hrest⟩ := rbufGet_eq r (min left loopBufSize)
      generalize rbufGet r (min left loopBufSize) = piece at hbytes hrest hpiece
      have hle : piece.1.length ≤ left := by
        rw [hbytes, List.length_take]
        omega
      have hn : piece.1 = r.toList.take piece.1.length ∧
          piece.2.toList = r.toList.drop piece.1.length := by
        rw [hrest, hbytes, List.length_take]
        rcases le_total (min left loopBufSize) r.toList.length with hl | hl
        · rw [min_eq_left hl]
          exact ⟨rfl, rfl⟩
        · rw [min_eq_right hl, List.take_length, List.drop_length, List.take_of_length_le hl,
            List.drop_eq_nil_of_le hl]
          exact ⟨rfl, rfl⟩
      obtain ⟨ihb, ihr⟩ := ih piece.2 (show left - piece.1.length ≤ fuel by omega)
      have hsplit : left = piece.1.length + (left - piece.1.length) := by omega
      rw [ihb, ihr, hn.2]
      constructor
      · conv_rhs => rw [hsplit, List.take_add, ← hn.1]
      · rw [List.drop_drop, ← hsplit]

theorem sendLoop_eq (fuel : ℕ) (r : RBuf) {src : List Byte} (h : src.length ≤ fuel) :
    (sendLoop fuel r src).2.toList = r.toList ++ src.take (sendLoop fuel r src).1 := by
  induction fuel generalizing r src with
  | zero => exact (List.append_nil _).symm
  | succ fuel ih =>
    rw [sendLoop]
    have hput : (rbufPut r (src.take loopBufSize)).2.toList =
        r.toList ++ src.take (rbufPut r (src.take loopBufSize)).1 := by
      have hcount := r.count_le
      simp only [rbufPut]
      rw [Ring.toList_enqueueAll, List.take_take, List.length_take]
      · congr 2
        omega
      · rw [List.length_take]
        omega
    dsimp only
    split_ifs with h0 hfull hpiece
    · exact (List.append_nil _).symm
    · exact (List.append_nil _).symm
    · exact hput
    · generalize rbufPut r (src.take loopBufSize) = piece at hput hpiece
      have hlen : (src.drop piece.1).length ≤ fuel := by
        rw [List.length_drop]
        omega
      have hrest := ih piece.2 hlen
      rw [hrest, hput, List.append_assoc, List.take_add]

/-! ## The calls -/

/-- The endpoint that `loop_recv_io`, `loop_send_io` and `loop_shutdown` find behind file object
`i`. -/
def sockConn (N : LoopNet) (i : ℕ) : Option ℕ :=
  match (N.files i).sock with
  | none => none
  | some k => if (N.socks k).kind = .connected then (N.socks k).conn else none

def sockStream : ℕ := 1

/-- `loop_socket`, with the file object of the new descriptor; `fd` says whether `vfs_fd_alloc`
finds one. -/
def loopSocket (N : LoopNet) (domain type : ℕ) (fd : Bool) : Option ℕ × LoopNet :=
  if domain ≠ afInet then (none, N)
  else if type ≠ sockStream then (none, N)
  else
    match loopSocketFile N with
    | (none, N₁) => (none, N₁)
    | (some i, N₁) => if fd = true then (some i, N₁) else (none, loopUndo N₁ i)

/-- `loop_accept`, with the file object of the new descriptor. -/
def loopAccept (N : LoopNet) (i : ℕ) (fd : Bool) : Option ℕ × LoopNet :=
  match acceptFrom N i with
  | .error _ => (none, N)
  | .ok l =>
    match loopAcceptFile N l with
    | (none, N₁) => (none, N₁)
    | (some j, N₁) => if fd = true then (some j, N₁) else (none, loopUndo N₁ j)

/-- `loop_shutdown`.  The endpoint is released and the descriptor stays. -/
def loopShutdown (N : LoopNet) (i : ℕ) : ℤ × LoopNet :=
  match (N.files i).sock with
  | none => (-9, N)
  | some k =>
    match (N.socks k).kind, (N.socks k).conn with
    | .connected, some c =>
      let N₁ := tellPeer N c
      (0, (N₁.setConn c { N₁.conns c with closed := true, used := false }).setSock k
        { N.socks k with conn := none })
    | _, _ => (0, N)

structure StreamNet where
  net : LoopNet
  rbuf : ℕ → RBuf

namespace StreamNet

/-- `loop_conn_alloc`: the ring is reset, its array is not. -/
def connAlloc (S : StreamNet) : Option ℕ × StreamNet :=
  match loopConnAlloc S.net with
  | (none, N) => (none, ⟨N, S.rbuf⟩)
  | (some c, N) => (some c, ⟨N, update S.rbuf c (.empty (S.rbuf c).slots loopBufSize_pos)⟩)

/-- `loop_connect`.  It allocates two endpoints before it succeeds, and before it fails with
`ENOMEM`. -/
def connect (S : StreamNet) (i : ℕ) (addr : SockAddr) : ℤ × StreamNet :=
  let r := loopConnect S.net i addr
  (r.1, ⟨r.2, if r.1 = 0 ∨ r.1 = -12 then S.connAlloc.2.connAlloc.2.rbuf else S.rbuf⟩)

/-- `loop_recv_io`, with the bytes that it stores. -/
def recv (S : StreamNet) (i size : ℕ) : List Byte × StreamNet :=
  match sockConn S.net i with
  | none => ([], S)
  | some c =>
    let r := recvLoop size (S.rbuf c) size
    (r.1, ⟨S.net, update S.rbuf c r.2⟩)

/-- `loop_send_io`, with the number of bytes that it accepts. -/
def send (S : StreamNet) (i : ℕ) (src : List Byte) : ℕ × StreamNet :=
  match sockConn S.net i with
  | none => (0, S)
  | some c =>
    if (S.net.conns c).closed = true then (0, S)
    else
      match (S.net.conns c).peer with
      | none => (0, S)
      | some d =>
        if (S.net.conns d).closed = true then (0, S)
        else
          let r := sendLoop src.length (S.rbuf d) src
          (r.1, ⟨S.net, update S.rbuf d r.2⟩)

end StreamNet

/-! ## Connections and their ends -/

inductive Side where
  | client
  | server
  deriving DecidableEq

def Side.other : Side → Side
  | .client => .server
  | .server => .client

abbrev End := ℕ × Side

def otherEnd (e : End) : End := (e.1, e.2.other)

@[simp] theorem otherEnd_otherEnd (e : End) : otherEnd (otherEnd e) = e := by
  obtain ⟨n, side⟩ := e
  cases side with
  | client => rfl
  | server => rfl

/-- The endpoint behind file object `i`, where everything on the way is in use. -/
def LoopNet.connOf (N : LoopNet) (i : ℕ) : Option ℕ :=
  (N.fileSock i).bind fun k => (N.socks k).heldConn

structure Traffic where
  kern : StreamNet
  /-- The number of connections that were made. -/
  made : ℕ
  /-- The end that a slot of the pool of endpoints was allocated for. -/
  endAt : ℕ → End
  /-- The end that a descriptor is. -/
  role : ℕ → Option End
  /-- What `send` accepted at an end. -/
  sent : End → List Byte
  /-- What `recv` returned at an end. -/
  got : End → List Byte

inductive SockCall where
  | socket (domain type : ℕ) (fd : Bool)
  | bind (i : ℕ) (addr : SockAddr)
  | listen (i : ℕ)
  | connect (i : ℕ) (addr : SockAddr)
  | accept (i : ℕ) (fd : Bool)
  | send (i : ℕ) (src : List Byte)
  | recv (i size : ℕ)
  | shutdown (i : ℕ)
  | close (i : ℕ)

def note (log : End → List Byte) (e : Option End) (bytes : List Byte) : End → List Byte :=
  match e with
  | none => log
  | some e => update log e (log e ++ bytes)

namespace Traffic

def boot : Traffic where
  kern :=
    ⟨⟨fun _ => ⟨false, none⟩, fun _ => ⟨false, .fresh, none, none⟩,
      fun _ => ⟨false, false, 0, .empty (fun _ => none) loopBacklog_pos⟩,
      fun _ => ⟨false, false, 0, none⟩⟩, fun _ => .empty (fun _ => 0) loopBufSize_pos⟩
  made := 0
  endAt := fun _ => (0, .client)
  role := fun _ => none
  sent := fun _ => []
  got := fun _ => []

/-- A connection was made for file object `i`: the next number is given to its endpoint and to the
peer of that. -/
def connected (T : Traffic) (i : ℕ) (S : StreamNet) : Traffic :=
  match S.net.connOf i with
  | none => { T with kern := S }
  | some c =>
    match (S.net.conns c).peer with
    | none => { T with kern := S }
    | some d =>
      { T with
        kern := S
        made := T.made + 1
        endAt := update (update T.endAt c (T.made, .client)) d (T.made, .server)
        role := update T.role i (some (T.made, .client)) }

def call (T : Traffic) : SockCall → Traffic
  | .socket domain type fd =>
    { T with kern := ⟨(loopSocket T.kern.net domain type fd).2, T.kern.rbuf⟩ }
  | .bind i addr => { T with kern := ⟨(loopBind T.kern.net i addr).2, T.kern.rbuf⟩ }
  | .listen i => { T with kern := ⟨(loopListen T.kern.net i).2, T.kern.rbuf⟩ }
  | .connect i addr =>
    let r := T.kern.connect i addr
    if r.1 = 0 then T.connected i r.2 else { T with kern := r.2 }
  | .accept i fd =>
    let r := loopAccept T.kern.net i fd
    { T with
      kern := ⟨r.2, T.kern.rbuf⟩
      role := match r.1 with
        | none => T.role
        | some j => update T.role j ((r.2.connOf j).map T.endAt) }
  | .send i src =>
    let r := T.kern.send i src
    { T with kern := r.2, sent := note T.sent (T.role i) (src.take r.1) }
  | .recv i size =>
    let r := T.kern.recv i size
    { T with kern := r.2, got := note T.got (T.role i) r.1 }
  | .shutdown i =>
    { T with
      kern := ⟨(loopShutdown T.kern.net i).2, T.kern.rbuf⟩
      role := update T.role i none }
  | .close i =>
    { T with
      kern := ⟨loopClose T.kern.net i, T.kern.rbuf⟩
      role := update T.role i none }

end Traffic

def SockCall.file : SockCall → Option ℕ
  | .socket _ _ _ => none
  | .bind i _ => some i
  | .listen i => some i
  | .connect i _ => some i
  | .accept i _ => some i
  | .send i _ => some i
  | .recv i _ => some i
  | .shutdown i => some i
  | .close i => some i

def Traffic.step (T : Traffic) (e : SockCall) : Option Traffic :=
  match e.file with
  | none => some (T.call e)
  | some i => if (T.kern.net.files i).ops = true then some (T.call e) else none

end BananaOS.Fs
