import BananaOS.Fs.Readiness

/-!
# The line discipline of the terminal

`tty_read` takes keys out of the keyboard ring one at a time, and blocks whenever the ring is empty.
Keys arrive meanwhile, so one call is not one step: here it is a start, which serves what an earlier
line left over, and then one step for each key that `tty_getc` delivers.  Between any two of these
steps keys may be put into the ring.
-/

namespace BananaOS.Fs

open RingQueue GuardedRun

/-! ## The keyboard ring -/

def kbdBufSize : ℕ := 256

/-- `kbd_buf`, `kbd_head` and `kbd_tail`. -/
structure KbdRing where
  buf : ℕ → Byte
  head : ℕ
  tail : ℕ
  head_lt : head < kbdBufSize
  tail_lt : tail < kbdBufSize

variable {k : KbdRing} {c : Byte}

namespace KbdRing

theorem next_lt (i : ℕ) : (i + 1) % kbdBufSize < kbdBufSize := Nat.mod_lt _ (by decide)

/-- `buf_put`. -/
def put (k : KbdRing) (c : Byte) : Bool × KbdRing :=
  let next := (k.tail + 1) % kbdBufSize
  if next = k.head then (false, k)
  else
    (true, { k with
      buf := Function.update k.buf k.tail c
      tail := next
      tail_lt := next_lt k.tail })

/-- `buf_get`. -/
def get (k : KbdRing) : Option (Byte × KbdRing) :=
  if k.head = k.tail then none
  else
    some (k.buf k.head, { k with
      head := (k.head + 1) % kbdBufSize
      head_lt := next_lt k.head })

def count (k : KbdRing) : ℕ := (k.tail + kbdBufSize - k.head) % kbdBufSize

theorem count_lt (k : KbdRing) : k.count < kbdBufSize := Nat.mod_lt _ (by decide)

theorem tail_eq (k : KbdRing) : k.tail = (k.head + k.count) % kbdBufSize := by
  have hh := k.head_lt
  have ht := k.tail_lt
  simp only [count, kbdBufSize] at hh ht ⊢
  omega

def ring (k : KbdRing) : Ring Byte kbdBufSize where
  slots := k.buf
  head := k.head
  tail := k.tail
  count := k.count
  head_lt := k.head_lt
  tail_eq := k.tail_eq
  count_le := k.count_lt.le

def toList (k : KbdRing) : List Byte := k.ring.toList

theorem toList_put (h : (k.put c).1 = true) : (k.put c).2.toList = k.toList ++ [c] := by
  have hh := k.head_lt
  have ht := k.tail_lt
  by_cases hfull : (k.tail + 1) % kbdBufSize = k.head
  · rw [put, if_pos hfull] at h
    cases h
  · have hroom : k.ring.count < kbdBufSize := k.count_lt
    obtain ⟨hslots, hhead, hcount⟩ := Ring.enqueue_fields hroom c
    rw [put, if_neg hfull, toList, toList, ← Ring.toList_enqueue hroom c, Ring.toList, Ring.toList,
      hslots, hhead, hcount]
    congr 1
    simp only [ring, count, kbdBufSize] at hh ht hfull ⊢
    omega

theorem put_of_full (h : (k.put c).1 = false) : (k.put c).2 = k := by
  by_cases hfull : (k.tail + 1) % kbdBufSize = k.head
  · rw [put, if_pos hfull]
  · rw [put, if_neg hfull] at h
    cases h

theorem toList_get {k' : KbdRing} (h : k.get = some (c, k')) : k.toList = c :: k'.toList := by
  have hh := k.head_lt
  have ht := k.tail_lt
  by_cases hempty : k.head = k.tail
  · rw [get, if_pos hempty] at h
    cases h
  · rw [get, if_neg hempty] at h
    cases Option.some.inj h
    have hpos : 0 < k.ring.count := by
      simp only [ring, count, kbdBufSize] at hh ht ⊢
      omega
    obtain ⟨hslots, hhead, hcount⟩ := Ring.dequeue_fields hpos
    obtain ⟨a, r', hd, hlist⟩ := Ring.dequeue_of_pos hpos
    rw [hd] at hslots hhead hcount
    have ha : k.buf k.head = a := by
      rw [Ring.dequeue, dif_neg hpos.ne'] at hd
      exact Option.some.inj (congrArg Prod.fst hd)
    rw [toList, hlist, ha, toList, Ring.toList, Ring.toList, hslots, hhead, hcount]
    congr 2
    simp only [ring, count, kbdBufSize] at hh ht ⊢
    omega

theorem toList_of_get_none (h : k.get = none) : k.toList = [] := by
  by_cases hempty : k.head = k.tail
  · refine List.length_eq_zero_iff.mp ((k.ring.length_toList).trans ?_)
    show (k.tail + kbdBufSize - k.head) % kbdBufSize = 0
    rw [hempty, Nat.add_sub_cancel_left, Nat.mod_self]
  · rw [get, if_neg hempty] at h
    cases h

/-- The ring after `kbd_init`. -/
def init (buf : ℕ → Byte) : KbdRing where
  buf := buf
  head := 0
  tail := 0
  head_lt := by decide
  tail_lt := by decide

end KbdRing

/-! ## Calls of `tty_read`, key by key -/

/-- A call that collects: what it was called with, its mode, and how many bytes it needs in raw
mode. -/
structure TtyCall where
  size : ℕ
  canonical : Bool
  need : ℤ

structure Terminal where
  ring : KbdRing
  /-- Whether `TTY_ICANON` is in `tty_c_lflag`. -/
  canonical : Bool
  vmin : Byte
  /-- The first `tty_ibuf_len` bytes of `tty_ibuf`. -/
  ibuf : List Byte
  pos : ℕ
  /-- The call that waits for keys. -/
  call : Option TtyCall

namespace Terminal

/-- The bytes from `pos` on that fit into the buffer of the caller are handed out. -/
def handOut (t : Terminal) (pos size : ℕ) : List Byte × Terminal :=
  let bytes := (t.ibuf.drop pos).take size
  let pos := pos + bytes.length
  if t.ibuf.length ≤ pos then (bytes, { t with ibuf := [], pos := 0, call := none })
  else (bytes, { t with pos := pos, call := none })

/-- `tty_read` up to its loops: what is left over is handed out at once. -/
def read (t : Terminal) (size : ℕ) : Option (List Byte) × Terminal :=
  if size = 0 then (some [], t)
  else if t.pos < t.ibuf.length then
    let r := t.handOut t.pos size
    (some r.1, r.2)
  else
    let need := rawNeed t.vmin.toNat size
    if t.canonical = false ∧ need ≤ t.ibuf.length then
      let r := t.handOut 0 size
      (some r.1, r.2)
    else (none, { t with call := some ⟨size, t.canonical, need⟩ })

/-- A key for a call that collects: the body of the loop, and the end of `tty_read` when the loop
ends. -/
def collect (t : Terminal) (call : TtyCall) (c : Byte) : Option (List Byte) × Terminal :=
  if call.canonical = true then
    if c = newline then
      let r := { t with ibuf := ibufPut t.ibuf c }.handOut 0 call.size
      (some r.1, r.2)
    else if c = backspace then (none, { t with ibuf := t.ibuf.dropLast })
    else (none, { t with ibuf := ibufPut t.ibuf c })
  else
    let t := { t with ibuf := t.ibuf ++ [c] }
    if (t.ibuf.length : ℤ) < call.need then (none, t)
    else
      let r := t.handOut 0 call.size
      (some r.1, r.2)

/-! ### The call as a whole

`ttyRead` takes all the keys that wait in one go.  Key by key, the call does the same. -/

def getcs (call : TtyCall) : ℕ → Terminal → Option (List Byte) × Terminal
  | 0, t => (none, t)
  | n + 1, t =>
    match t.ring.get with
    | none => (none, t)
    | some (c, ring) =>
      match { t with ring := ring }.collect call c with
      | (some bytes, t') => (some bytes, t')
      | (none, t') => getcs call n t'

/-- `tty_read`, up to the first time it blocks. -/
def readAll (t : Terminal) (size : ℕ) : Option (List Byte) × Terminal :=
  match t.read size with
  | (some bytes, t') => (some bytes, t')
  | (none, t') => t'.getcs ⟨size, t.canonical, rawNeed t.vmin.toNat size⟩ t.ring.toList.length

def toTty (t : Terminal) : Tty := ⟨t.canonical, t.vmin.toNat, t.ibuf, t.pos, t.ring.toList⟩

def outcome : Option (List Byte) → Outcome
  | none => .blocks
  | some bytes => .returns bytes.length

theorem ttyHandOut_toTty (t : Terminal) (pos size : ℕ) :
    ttyHandOut t.toTty pos size =
      (.returns (t.handOut pos size).1.length, (t.handOut pos size).2.toTty) := by
  have hlen : min (t.ibuf.length - pos) size = ((t.ibuf.drop pos).take size).length := by
    rw [List.length_take, List.length_drop, Nat.min_comm]
  simp only [ttyHandOut, handOut, toTty, hlen]
  by_cases hall : t.ibuf.length ≤ pos + ((t.ibuf.drop pos).take size).length
  · rw [if_pos hall, if_pos hall]
  · rw [if_neg hall, if_neg hall]

theorem rawLoop_of_le {need : ℤ} {ibuf : List Byte} (h : need ≤ ibuf.length) (keys : List Byte) :
    rawLoop need keys ibuf = (true, ibuf, keys) := by
  cases keys with
  | nil => rw [rawLoop, decide_eq_true h]
  | cons c keys => rw [rawLoop, if_neg (not_lt.mpr h)]

/-- The loops of `ttyRead`, and what comes after them. -/
def ttyLoop (call : TtyCall) (t : Tty) : Outcome × Tty :=
  let r := if call.canonical = true then canonLoop t.keys t.ibuf else rawLoop call.need t.keys t.ibuf
  let t := { t with ibuf := r.2.1, keys := r.2.2 }
  if r.1 = true then ttyHandOut t 0 call.size else (.blocks, t)

/-- A call that is not done: in raw mode there are still bytes to come. -/
def Waits (t : Terminal) (call : TtyCall) : Prop :=
  call.canonical = false → (t.ibuf.length : ℤ) < call.need

variable {t : Terminal} {call : TtyCall}

theorem ttyLoop_nil (h : t.Waits call) (hkeys : t.ring.toList = []) :
    ttyLoop call t.toTty = (.blocks, t.toTty) := by
  rw [ttyLoop, toTty, hkeys]
  by_cases hcanon : call.canonical = true
  · rw [if_pos hcanon]
    rfl
  · have hmore := not_le.mpr (h (Bool.eq_false_of_not_eq_true hcanon))
    simp only [if_neg hcanon, rawLoop, decide_eq_false hmore, Bool.false_eq_true, if_false]

/-- One key: the call is done, or goes on in the loop. -/
theorem ttyLoop_collect (h : t.Waits call) (c : Byte) :
    (∃ bytes t', t.collect call c = (some bytes, t') ∧
      ttyLoop call { t.toTty with keys := c :: t.ring.toList } = (.returns bytes.length, t'.toTty)) ∨
    ∃ t', t.collect call c = (none, t') ∧ t'.Waits call ∧ t'.ring = t.ring ∧
      ttyLoop call { t.toTty with keys := c :: t.ring.toList } = ttyLoop call t'.toTty := by
  by_cases hcanon : call.canonical = true
  · have hwaits : ∀ t' : Terminal, t'.Waits call := fun _ hfalse => nomatch hcanon.symm.trans hfalse
    simp only [collect, ttyLoop, if_pos hcanon, canonLoop]
    by_cases hnew : c = newline
    · simp only [if_pos hnew, if_true]
      exact .inl ⟨_, _, rfl, ttyHandOut_toTty { t with ibuf := ibufPut t.ibuf c } 0 call.size⟩
    · simp only [if_neg hnew]
      by_cases hback : c = backspace
      · simp only [if_pos hback]
        exact .inr ⟨_, rfl, hwaits _, rfl, rfl⟩
      · simp only [if_neg hback]
        exact .inr ⟨_, rfl, hwaits _, rfl, rfl⟩
  · have hraw : rawLoop call.need (c :: t.ring.toList) t.toTty.ibuf =
        rawLoop call.need t.ring.toList (t.ibuf ++ [c]) := by
      rw [rawLoop]
      exact if_pos (h (Bool.eq_false_of_not_eq_true hcanon))
    simp only [collect, ttyLoop, if_neg hcanon, hraw]
    by_cases hmore : ((t.ibuf ++ [c]).length : ℤ) < call.need
    · rw [if_pos hmore]
      exact .inr ⟨_, rfl, fun _ => hmore, rfl, rfl⟩
    · rw [if_neg hmore, rawLoop_of_le (not_lt.mp hmore)]
      exact .inl ⟨_, _, rfl, ttyHandOut_toTty { t with ibuf := t.ibuf ++ [c] } 0 call.size⟩

theorem ttyLoop_eq_getcs {n : ℕ} (hn : t.ring.toList.length ≤ n) (h : t.Waits call) :
    ttyLoop call t.toTty = (outcome (getcs call n t).1, (getcs call n t).2.toTty) := by
  induction n generalizing t with
  | zero => exact ttyLoop_nil h (List.length_eq_zero_iff.mp (Nat.le_zero.mp hn))
  | succ n ih =>
    rw [getcs]
    rcases hget : t.ring.get with _ | ⟨c, ring⟩
    · exact ttyLoop_nil h (KbdRing.toList_of_get_none hget)
    · have hlist := KbdRing.toList_get hget
      have hkeys : t.toTty = { toTty { t with ring := ring } with keys := c :: ring.toList } := by
        rw [toTty, hlist]
        rfl
      rw [hlist, List.length_cons] at hn
      rcases ttyLoop_collect (t := { t with ring := ring }) h c with
        ⟨bytes, t', hcollect, hloop⟩ | ⟨t', hcollect, hwaits, hring, hloop⟩
      · simp only [hcollect]
        exact hkeys ▸ hloop
      · simp only [hcollect]
        rw [hkeys]
        refine hloop.trans (ih ?_ hwaits)
        rw [hring]
        exact Nat.le_of_succ_le_succ hn

/-- **Key by key or in one go**, `tty_read` returns the same bytes and leaves the same terminal. -/
theorem readAll_eq_ttyRead (t : Terminal) (size : ℕ) :
    ttyRead t.toTty size = (outcome (t.readAll size).1, (t.readAll size).2.toTty) := by
  by_cases hzero : size = 0
  · rw [ttyRead, if_pos hzero, readAll, read, if_pos hzero]
    rfl
  by_cases hpos : t.pos < t.ibuf.length
  · rw [ttyRead, if_neg hzero, if_pos (show t.toTty.pos < t.toTty.ibuf.length from hpos), readAll,
      read, if_neg hzero, if_pos hpos]
    exact ttyHandOut_toTty t t.pos size
  have hloop : ttyRead t.toTty size =
      ttyLoop ⟨size, t.canonical, rawNeed t.vmin.toNat size⟩ t.toTty := by
    rw [ttyRead, if_neg hzero, if_neg (show ¬ t.toTty.pos < t.toTty.ibuf.length from hpos)]
    rfl
  rw [hloop, readAll, read, if_neg hzero, if_neg hpos]
  by_cases hraw : t.canonical = false ∧ rawNeed t.vmin.toNat size ≤ t.ibuf.length
  · have hdone : rawLoop (rawNeed t.vmin.toNat size) t.toTty.keys t.toTty.ibuf = _ :=
      rawLoop_of_le hraw.2 _
    simp only [ttyLoop, if_neg (ne_true_of_eq_false hraw.1), hdone, if_pos hraw]
    exact ttyHandOut_toTty t 0 size
  · rw [if_neg hraw]
    exact ttyLoop_eq_getcs (t := { t with call := some _ }) le_rfl fun hfalse =>
      not_le.mp fun hle => hraw ⟨hfalse, hle⟩

end Terminal

/-! ## Sessions -/

/-- The line that keys make: a backspace takes back the character before it. -/
def applyBackspaces (keys : List Byte) : List Byte :=
  keys.foldl (fun line c => if c = backspace then line.dropLast else line ++ [c]) []

structure TtyRead where
  canonical : Bool
  size : ℕ
  /-- Whether it returned what an earlier line left over. -/
  leftover : Bool
  /-- The keys it took. -/
  keys : List Byte
  bytes : List Byte

def TtyRead.text (r : TtyRead) : List Byte :=
  if r.canonical = true then applyBackspaces r.keys else r.keys

/-- A terminal with its past: the keys that the ring stored, the keys that the call under way has
taken, and the calls that have returned. -/
structure Session where
  tty : Terminal
  stored : List Byte
  taken : List Byte
  reads : List TtyRead

inductive TtyEvent where
  /-- A key arrives. -/
  | key (c : Byte)
  /-- `devfs_tty_set_flags`, for the one flag that matters. -/
  | setCanonical (on : Bool)
  /-- `devfs_tty_set_vmin_vtime`. -/
  | setVmin (v : Byte)
  /-- `tty_read` is called. -/
  | read (size : ℕ)
  /-- The call under way gets a key. -/
  | getc

namespace Session

/-- `tty_read` is called. -/
def beginRead (s : Session) (size : ℕ) : Session :=
  match s.tty.read size with
  | (none, tty) => { s with tty := tty }
  | (some bytes, tty) =>
    { s with tty := tty, reads := s.reads ++ [⟨s.tty.canonical, size, true, [], bytes⟩] }

/-- `tty_getc` has taken the key `c` for the call under way. -/
def gotKey (s : Session) (call : TtyCall) (c : Byte) (ring : KbdRing) : Session :=
  let taken := s.taken ++ [c]
  match { s.tty with ring := ring }.collect call c with
  | (none, tty) => { s with tty := tty, taken := taken }
  | (some bytes, tty) =>
    { s with
      tty := tty
      taken := []
      reads := s.reads ++ [⟨call.canonical, call.size, false, taken, bytes⟩] }

/-- One event.  A call begins, and a mode changes, only while no call is under way. -/
def step (s : Session) : TtyEvent → Option Session
  | .key c =>
    let r := s.tty.ring.put c
    some { s with
      tty := { s.tty with ring := r.2 }
      stored := if r.1 = true then s.stored ++ [c] else s.stored }
  | .setCanonical on =>
    if s.tty.call.isSome = true then none
    else some { s with tty := { s.tty with canonical := on } }
  | .setVmin v =>
    if s.tty.call.isSome = true then none else some { s with tty := { s.tty with vmin := v } }
  | .read size => if s.tty.call.isSome = true then none else some (s.beginRead size)
  | .getc =>
    match s.tty.call, s.tty.ring.get with
    | none, _ => none
    | some _, none => some s
    | some call, some (c, ring) => some (s.gotKey call c ring)

/-- The sizes that a call is made with, and the lines: none is longer than 255 characters, at any
moment. -/
def Allowed (s : Session) : TtyEvent → Prop
  | .read size => 1 ≤ size ∧ size < 2 ^ 31
  | .getc =>
    ∀ call ∈ s.tty.call, call.canonical = true → ∀ c ∈ s.tty.ring.toList.head?, c ≠ newline →
      (applyBackspaces (s.taken ++ [c])).length ≤ 255
  | _ => True

instance (s : Session) : (e : TtyEvent) → Decidable (s.Allowed e)
  | .read size => inferInstanceAs (Decidable (1 ≤ size ∧ size < 2 ^ 31))
  | .getc =>
    inferInstanceAs (Decidable (∀ call ∈ s.tty.call, call.canonical = true →
      ∀ c ∈ s.tty.ring.toList.head?, c ≠ newline →
        (applyBackspaces (s.taken ++ [c])).length ≤ 255))
  | .key _ => inferInstanceAs (Decidable True)
  | .setCanonical _ => inferInstanceAs (Decidable True)
  | .setVmin _ => inferInstanceAs (Decidable True)

def boot (buf : ℕ → Byte) (canonical : Bool) (vmin : Byte) : Session where
  tty :=
    { ring := KbdRing.init buf
      canonical := canonical
      vmin := vmin
      ibuf := []
      pos := 0
      call := none }
  stored := []
  taken := []
  reads := []

def unread (s : Session) : List Byte :=
  if s.tty.call.isSome = true then [] else s.tty.ibuf.drop s.tty.pos

/-- **What the terminal promises.** -/
structure Faithful (s : Session) : Prop where
  /-- No key is lost or taken twice. -/
  keys : s.stored = (s.reads.map TtyRead.keys).flatten ++ s.taken ++ s.tty.ring.toList
  /-- No byte is lost or returned twice. -/
  bytes : (s.reads.map TtyRead.bytes).flatten ++ s.unread = (s.reads.map TtyRead.text).flatten
  /-- A call that serves a remainder takes no key. -/
  leftover : ∀ r ∈ s.reads, r.leftover = true → r.keys = []
  /-- A canonical call returns the beginning of one line. -/
  line : ∀ r ∈ s.reads, r.canonical = true → r.leftover = false →
    ∃ typed, newline ∉ typed ∧ r.keys = typed ++ [newline] ∧
      r.bytes = (applyBackspaces typed ++ [newline]).take r.size
  /-- A raw call returns the keys it took. -/
  raw : ∀ r ∈ s.reads, r.canonical = false → r.leftover = false → r.bytes = r.keys
  /-- A call under way has not got what it waits for. -/
  waiting : ∀ call ∈ s.tty.call,
    if call.canonical = true then newline ∉ s.taken else (s.taken.length : ℤ) < call.need

/-! ## Lines -/

theorem applyBackspaces_concat (keys : List Byte) (c : Byte) :
    applyBackspaces (keys ++ [c]) =
      if c = backspace then (applyBackspaces keys).dropLast else applyBackspaces keys ++ [c] := by
  simp only [applyBackspaces, List.foldl_append, List.foldl_cons, List.foldl_nil]

/-- What a call has collected in `tty_ibuf`. -/
structure Collects (s : Session) (call : TtyCall) : Prop where
  ibuf : s.tty.ibuf = if call.canonical = true then applyBackspaces s.taken else s.taken
  size : 1 ≤ call.size
  need : call.need ≤ call.size
  short : call.canonical = true → s.tty.ibuf.length ≤ 255

structure Idle (s : Session) : Prop where
  taken : s.taken = []
  rest : s.tty.pos < s.tty.ibuf.length ∨ s.tty.ibuf = []

structure Inv (s : Session) : Prop extends Faithful s where
  collects : ∀ call ∈ s.tty.call, s.Collects call
  idle : s.tty.call = none → s.Idle

/-! ## Handing out -/

theorem handOut_spec {t : Terminal} {pos : ℕ} (size : ℕ) (hpos : pos < t.ibuf.length) :
    (t.handOut pos size).1 = (t.ibuf.drop pos).take size ∧
      (t.handOut pos size).1 ++ (t.handOut pos size).2.ibuf.drop (t.handOut pos size).2.pos =
        t.ibuf.drop pos ∧
      (t.handOut pos size).2.call = none ∧ (t.handOut pos size).2.ring = t.ring ∧
      ((t.handOut pos size).2.pos < (t.handOut pos size).2.ibuf.length ∨
        (t.handOut pos size).2.ibuf = []) := by
  have hlen : ((t.ibuf.drop pos).take size).length = min size (t.ibuf.length - pos) := by
    rw [List.length_take, List.length_drop]
  by_cases hall : t.ibuf.length ≤ pos + ((t.ibuf.drop pos).take size).length
  · have heq : t.handOut pos size =
        ((t.ibuf.drop pos).take size, { t with ibuf := [], pos := 0, call := none }) := by
      simp only [Terminal.handOut, if_pos hall]
    have htake : (t.ibuf.drop pos).take size = t.ibuf.drop pos :=
      List.take_of_length_le (by rw [List.length_drop]; omega)
    rw [heq]
    exact ⟨rfl, by rw [List.drop_nil, List.append_nil, htake], rfl, rfl, Or.inr rfl⟩
  · have heq : t.handOut pos size = ((t.ibuf.drop pos).take size,
        { t with pos := pos + ((t.ibuf.drop pos).take size).length, call := none }) := by
      simp only [Terminal.handOut, if_neg hall]
    have hdrop : t.ibuf.drop (pos + ((t.ibuf.drop pos).take size).length) =
        (t.ibuf.drop pos).drop size := by
      rw [List.drop_drop, hlen, Nat.min_eq_left (by omega)]
    rw [heq]
    refine ⟨rfl, ?_, rfl, rfl, Or.inl (by dsimp only; omega)⟩
    show (t.ibuf.drop pos).take size ++ t.ibuf.drop _ = _
    rw [hdrop, List.take_append_drop]

theorem rawNeed_bounds (vmin : ℕ) {size : ℕ} (h1 : 1 ≤ size) (h2 : size < 2 ^ 31) :
    1 ≤ rawNeed vmin size ∧ rawNeed vmin size ≤ size := by
  simp only [rawNeed, Ext2.toInt32_of_lt h2, ttyIbufSize]
  split_ifs <;> omega

/-! ## One step -/

theorem Inv.returns {s s' : Session} {r : TtyRead} (hs : s.Inv) (hstored : s'.stored = s.stored)
    (htaken : s'.taken = []) (hreads : s'.reads = s.reads ++ [r]) (hcall : s'.tty.call = none)
    (hkeys : s.taken ++ s.tty.ring.toList = r.keys ++ s'.tty.ring.toList)
    (hbytes : r.bytes ++ s'.tty.ibuf.drop s'.tty.pos = s.unread ++ r.text)
    (hrest : s'.tty.pos < s'.tty.ibuf.length ∨ s'.tty.ibuf = [])
    (hleft : r.leftover = true → r.keys = [])
    (hline : r.canonical = true → r.leftover = false → ∃ typed, newline ∉ typed ∧
      r.keys = typed ++ [newline] ∧ r.bytes = (applyBackspaces typed ++ [newline]).take r.size)
    (hraw : r.canonical = false → r.leftover = false → r.bytes = r.keys) : s'.Inv := by
  have hmem : ∀ {P : TtyRead → Prop}, (∀ x ∈ s.reads, P x) → P r → ∀ x ∈ s'.reads, P x := by
    intro P hold hnew x hx
    rw [hreads, List.mem_append, List.mem_singleton] at hx
    rcases hx with hx | rfl
    · exact hold x hx
    · exact hnew
  have hunread : s'.unread = s'.tty.ibuf.drop s'.tty.pos := by
    rw [unread, hcall]
    rfl
  refine ⟨⟨?_, ?_, hmem hs.leftover hleft, hmem hs.line hline, hmem hs.raw hraw, ?_⟩, ?_,
    fun _ => ⟨htaken, hrest⟩⟩
  · rw [hstored, hs.keys, List.append_assoc, hkeys, hreads, htaken]
    simp only [List.map_append, List.map_cons, List.map_nil, List.flatten_append,
      List.flatten_cons, List.flatten_nil, List.append_nil, List.append_assoc]
  · rw [hunread, hreads]
    simp only [List.map_append, List.map_cons, List.map_nil, List.flatten_append,
      List.flatten_cons, List.flatten_nil, List.append_nil, List.append_assoc]
    rw [hbytes, ← List.append_assoc, hs.bytes]
  · intro call hmemc
    rw [hcall] at hmemc
    cases hmemc
  · intro call hmemc
    rw [hcall] at hmemc
    cases hmemc

theorem Inv.key {s s' : Session} (hs : s.Inv) (h : s.step (.key c) = some s') : s'.Inv := by
  cases Option.some.inj h
  refine ⟨⟨?_, hs.bytes, hs.leftover, hs.line, hs.raw, hs.waiting⟩,
    fun call hcall => ⟨(hs.collects call hcall).ibuf, (hs.collects call hcall).size,
      (hs.collects call hcall).need, (hs.collects call hcall).short⟩,
    fun hnone => ⟨(hs.idle hnone).taken, (hs.idle hnone).rest⟩⟩
  dsimp only
  rcases hput : (s.tty.ring.put c).1 with _ | _
  · rw [KbdRing.put_of_full hput]
    exact hs.keys
  · rw [KbdRing.toList_put hput, if_pos rfl, hs.keys, List.append_assoc]

variable {s s' : Session}

theorem idle_of_ite {s₁ : Session}
    (h : (if s.tty.call.isSome = true then none else some s₁) = some s') :
    s.tty.call = none ∧ s₁ = s' := by
  split_ifs at h with hcall
  exact ⟨Option.not_isSome_iff_eq_none.mp hcall, Option.some.inj h⟩

theorem Inv.setMode (hs : s.Inv) (hcall : s.tty.call = none) (on : Bool) (v : Byte) :
    Inv { s with tty := { s.tty with canonical := on, vmin := v } } := by
  refine ⟨⟨hs.keys, hs.bytes, hs.leftover, hs.line, hs.raw, hs.waiting⟩, fun call hmem => ?_,
    fun _ => ⟨(hs.idle hcall).taken, (hs.idle hcall).rest⟩⟩
  rw [show s.tty.call = some call from hmem] at hcall
  cases hcall

theorem text_of_keys_nil {r : TtyRead} (h : r.keys = []) : r.text = [] := by
  rw [TtyRead.text, h]
  split_ifs <;> rfl

theorem Inv.read {size : ℕ} (hs : s.Inv) (h1 : 1 ≤ size) (h2 : size < 2 ^ 31)
    (h : s.step (.read size) = some s') : s'.Inv := by
  obtain ⟨hcall, rfl⟩ := idle_of_ite h
  have hidle := hs.idle hcall
  by_cases hrest : s.tty.pos < s.tty.ibuf.length
  · obtain ⟨-, hall, hnone, hring, hafter⟩ := handOut_spec size hrest
    have hread : s.tty.read size =
        (some (s.tty.handOut s.tty.pos size).1, (s.tty.handOut s.tty.pos size).2) := by
      rw [Terminal.read, if_neg (by omega), if_pos hrest]
    simp only [beginRead, hread]
    refine hs.returns rfl hidle.taken rfl hnone ?_ ?_ hafter (fun _ => rfl)
      (fun _ hleft => nomatch hleft) (fun _ hleft => nomatch hleft)
    · dsimp only
      rw [hring, hidle.taken]
    · dsimp only
      rw [hall, text_of_keys_nil rfl, List.append_nil, unread, hcall]
      rfl
  · have hempty : s.tty.ibuf = [] := hidle.rest.resolve_left hrest
    obtain ⟨hneed, hfits⟩ := rawNeed_bounds s.tty.vmin.toNat h1 h2
    have hread : s.tty.read size = (none, { s.tty with
        call := some ⟨size, s.tty.canonical, rawNeed s.tty.vmin.toNat size⟩ }) := by
      rw [Terminal.read, if_neg (by omega), if_neg hrest, if_neg]
      rintro ⟨-, hle⟩
      rw [hempty] at hle
      exact absurd (hneed.trans hle) (by decide)
    simp only [beginRead, hread]
    refine ⟨⟨hs.keys, ?_, hs.leftover, hs.line, hs.raw, ?_⟩, ?_, fun hnone => nomatch hnone⟩
    · have hbytes := hs.bytes
      rw [unread, hcall, hempty, List.drop_nil] at hbytes
      exact hbytes
    · rintro call ⟨⟩
      dsimp only
      rw [hidle.taken]
      split_ifs
      · exact List.not_mem_nil
      · exact Int.lt_of_lt_of_le Int.zero_lt_one hneed
    · rintro call ⟨⟩
      refine ⟨?_, h1, hfits, fun _ => ?_⟩
      · dsimp only
        rw [hempty, hidle.taken]
        split_ifs <;> rfl
      · dsimp only
        rw [hempty]
        exact Nat.zero_le _

theorem ibufPut_of_short {ibuf : List Byte} (h : ibuf.length ≤ 255) (c : Byte) :
    ibufPut ibuf c = ibuf ++ [c] := by
  rw [ibufPut, if_pos (show ibuf.length < ttyIbufSize from Nat.lt_succ_of_le h)]

theorem collect_spec {t : Terminal} {call : TtyCall} {taken : List Byte}
    (hibuf : t.ibuf = if call.canonical = true then applyBackspaces taken else taken)
    (hshort : call.canonical = true → t.ibuf.length ≤ 255) :
    let done := if call.canonical = true then c = newline else call.need ≤ taken.length + 1
    let ibuf := if call.canonical = true then applyBackspaces (taken ++ [c]) else taken ++ [c]
    t.collect call c =
      if done then
        (some ({ t with ibuf := ibuf }.handOut 0 call.size).1,
          ({ t with ibuf := ibuf }.handOut 0 call.size).2)
      else (none, { t with ibuf := ibuf }) := by
  intro done ibuf
  by_cases hcanon : call.canonical = true
  · have hold : t.ibuf = applyBackspaces taken := by rw [hibuf, if_pos hcanon]
    have hput := ibufPut_of_short (hold ▸ hshort hcanon) c
    simp only [done, ibuf, if_pos hcanon, Terminal.collect, applyBackspaces_concat, hold,
      hput]
    by_cases hnew : c = newline
    · have hne : c ≠ backspace := by
        rw [hnew]
        decide
      rw [if_pos hnew, if_neg hne, if_pos hnew]
    · by_cases hback : c = backspace
      · rw [if_neg hnew, if_pos hback, if_pos hback, if_neg hnew]
      · rw [if_neg hnew, if_neg hback, if_neg hback, if_neg hnew]
  · have hold : t.ibuf = taken := by rw [hibuf, if_neg hcanon]
    simp only [done, ibuf, if_neg hcanon, Terminal.collect, hold, List.length_append,
      List.length_singleton]
    by_cases hdone : call.need ≤ taken.length + 1
    · rw [if_neg (by push_cast; omega), if_pos hdone]
    · rw [if_pos (by push_cast; omega), if_neg hdone]

theorem Inv.getc (hs : s.Inv) (hok : s.Allowed .getc) (h : s.step .getc = some s') : s'.Inv := by
  rcases hcall : s.tty.call with _ | call
  · rw [step, hcall] at h
    cases h
  rcases hget : s.tty.ring.get with _ | ⟨c, ring⟩
  · rw [step, hcall, hget] at h
    exact Option.some.inj h ▸ hs
  have heq : s' = s.gotKey call c ring := by
    rw [step, hcall, hget] at h
    exact (Option.some.inj h).symm
  subst heq
  have hcol := hs.collects call hcall
  have hwait := hs.waiting call hcall
  have hlist := KbdRing.toList_get hget
  have hunread : s.unread = [] := by
    rw [unread, hcall]
    rfl
  have hspec := collect_spec (t := { s.tty with ring := ring }) (c := c) hcol.ibuf hcol.short
  dsimp only at hspec
  by_cases hdone : if call.canonical = true then c = newline else call.need ≤ s.taken.length + 1
  · -- the call returns
    rw [if_pos hdone] at hspec
    simp only [gotKey, hspec]
    have hne : 0 < (if call.canonical = true then applyBackspaces (s.taken ++ [c])
        else s.taken ++ [c]).length := by
      by_cases hcanon : call.canonical = true
      · rw [if_pos hcanon] at hdone ⊢
        rw [applyBackspaces_concat, if_neg (by rw [hdone]; decide), List.length_append]
        exact Nat.succ_pos _
      · rw [if_neg hcanon, List.length_append]
        exact Nat.succ_pos _
    obtain ⟨hbytes, hall, hnone, hring, hafter⟩ := handOut_spec
      (t := { s.tty with
        ring := ring
        ibuf := if call.canonical = true then applyBackspaces (s.taken ++ [c])
          else s.taken ++ [c] }) call.size hne
    rw [List.drop_zero] at hbytes hall
    refine hs.returns rfl rfl rfl hnone ?_ ?_ hafter (fun hleft => nomatch hleft)
      (fun hcanon _ => ?_) (fun hraw _ => ?_)
    · dsimp only
      rw [hring, hlist, List.append_assoc]
      rfl
    · rw [hunread]
      exact hall
    · dsimp only at hcanon ⊢
      rw [if_pos hcanon] at hdone hwait
      refine ⟨s.taken, hwait, by rw [hdone], hbytes.trans ?_⟩
      dsimp only
      rw [if_pos hcanon, applyBackspaces_concat, if_neg (by rw [hdone]; decide), hdone]
    · dsimp only at hraw ⊢
      have hcanon : ¬ call.canonical = true := by rw [hraw]; decide
      rw [if_neg hcanon] at hdone hwait
      refine hbytes.trans ?_
      dsimp only
      rw [if_neg hcanon]
      -- the call has taken one key less than it needs, so that the caller has room for all
      refine List.take_of_length_le ?_
      have hfits := hcol.need
      rw [List.length_append, List.length_singleton]
      omega
  · -- the call goes on
    rw [if_neg hdone] at hspec
    simp only [gotKey, hspec]
    refine ⟨⟨?_, ?_, hs.leftover, hs.line, hs.raw, ?_⟩, ?_,
      fun hnone => nomatch hcall.symm.trans hnone⟩
    · dsimp only
      rw [hs.keys, hlist]
      simp only [List.append_assoc, List.cons_append, List.nil_append]
    · have hsame := hs.bytes
      rw [hunread] at hsame
      rw [unread, hcall]
      exact hsame
    · intro call' hmem
      cases Option.some.inj (hcall.symm.trans hmem)
      by_cases hcanon : call.canonical = true
      · rw [if_pos hcanon] at hdone hwait ⊢
        rw [List.mem_append, List.mem_singleton]
        exact fun hin => hin.elim hwait fun heq => hdone heq.symm
      · rw [if_neg hcanon] at hdone hwait ⊢
        dsimp only
        rw [List.length_append, List.length_singleton]
        push_cast
        omega
    · intro call' hmem
      cases Option.some.inj (hcall.symm.trans hmem)
      refine ⟨rfl, hcol.size, hcol.need, fun hcanon => ?_⟩
      dsimp only
      rw [if_pos hcanon] at hdone ⊢
      exact hok call hcall hcanon c (by rw [hlist]; rfl) hdone

theorem inv_boot (buf : ℕ → Byte) (canonical : Bool) (vmin : Byte) :
    (boot buf canonical vmin).Inv := by
  have hnone : (boot buf canonical vmin).tty.ring.toList = [] :=
    KbdRing.toList_of_get_none (if_pos rfl)
  refine ⟨⟨?_, rfl, ?_, ?_, ?_, ?_⟩, ?_, fun _ => ⟨rfl, Or.inr rfl⟩⟩
  · rw [hnone]
    rfl
  · exact fun r hr => nomatch hr
  · exact fun r hr => nomatch hr
  · exact fun r hr => nomatch hr
  · exact fun call hcall => nomatch hcall
  · exact fun call hcall => nomatch hcall

theorem Inv.step {e : TtyEvent} (hs : s.Inv) (hok : s.Allowed e)
    (h : s.step e = some s') : s'.Inv := by
  cases e with
  | key c => exact hs.key h
  | setCanonical on =>
    obtain ⟨hcall, rfl⟩ := idle_of_ite h
    exact hs.setMode hcall on s.tty.vmin
  | setVmin v =>
    obtain ⟨hcall, rfl⟩ := idle_of_ite h
    exact hs.setMode hcall s.tty.canonical v
  | read size => exact hs.read hok.1 hok.2 h
  | getc => exact hs.getc hok h

/-- **The line discipline.**  Whatever is typed while the terminal is read, in whatever mode and
with buffers of whatever size, no key and no byte is lost, doubled or out of order, and a canonical
call returns the beginning of one line. -/
theorem read_returns_typed {buf : ℕ → Byte} {canonical : Bool} {vmin : Byte}
    {events : List TtyEvent} {s : Session}
    (hrun : Run Session.step Session.Allowed (boot buf canonical vmin) events s) : s.Faithful :=
  (hrun.invariant (I := Session.Inv) (fun _ _ _ hs hok h => hs.step hok h)
    (inv_boot buf canonical vmin)).toFaithful

/-- A line with a backspace is read in two pieces, and a key that was typed in between in raw mode
after them. -/
theorem read_returns_typed_pieces : ∃ s : Session, s.Faithful ∧
    s.stored = [97, 98, backspace, newline, 99] ∧
    s.reads.map TtyRead.bytes = [[97], [newline], [99]] := by
  have hex : ∃ s : Session, Run Session.step Session.Allowed (boot (fun _ => 0) true 0)
      [.key 97, .read 1, .getc, .key 98, .getc, .key backspace, .key newline, .getc, .getc,
        .key 99, .read 7, .setCanonical false, .read 7, .getc] s ∧
      s.stored = [97, 98, backspace, newline, 99] ∧
      s.reads.map TtyRead.bytes = [[97], [newline], [99]] :=
    exists_run (by decide +kernel)
  obtain ⟨s, hrun, hwhat⟩ := hex
  exact ⟨s, read_returns_typed hrun, hwhat⟩

end Session

end BananaOS.Fs
