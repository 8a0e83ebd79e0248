import BananaOS.Fs.Loopback
import BananaOS.Fs.Pipe
import BananaOS.Proc.Effects

/-!
# The descriptor table

The global table of `vfs.c` over the pools of file objects: ext2 files, pipes, `/proc` files, loopback
and UDP sockets, and the devices, which are not pooled.  The operations are those that put a file
object into a slot, add a slot for it, or empty a slot.
-/

namespace BananaOS.Fs

open Function SlotTable
open Proc (maxFds)

def ext2PoolSize : ℕ := 64

def procPool : ℕ := 16

def udpSockMax : ℕ := 16

inductive FileId where
  | dev (i : ℕ)
  | ext2 (i : ℕ)
  | pipe (i : ℕ)
  | proc (i : ℕ)
  | loop (i : ℕ)
  | udp (i : ℕ)
  deriving DecidableEq

structure FileTable where
  fdTable : ℕ → Option FileId
  fdOwner : ℕ → ℤ
  refCount : FileId → ℕ
  ext2Used : ℕ → Bool
  pipes : PipePool
  procBusy : ℕ → Bool
  loop : LoopNet
  udpFiles : ℕ → SockFile
  udpUsed : ℕ → Bool

namespace FileTable

/-! ## Slots -/

def setFd (s : FileTable) (pid : ℤ) (fd : ℕ) (f : FileId) : FileTable :=
  { s with
    fdTable := update s.fdTable fd (some f), fdOwner := update s.fdOwner fd pid }

def vfsFdFree (s : FileTable) (fd : ℕ) : FileTable :=
  { s with fdTable := update s.fdTable fd none, fdOwner := update s.fdOwner fd (-1) }

def vfsFdGet (s : FileTable) (fd : ℕ) : Option FileId := if fd < maxFds then s.fdTable fd else none

def freeFd (s : FileTable) (m : ℕ) : Option ℕ := firstFree (fun fd => (s.fdTable fd).isSome) m maxFds

def vfsFdAlloc (s : FileTable) (pid : ℤ) (f : FileId) : Option ℕ × FileTable :=
  match s.freeFd 3 with
  | none => (none, s)
  | some fd => (some fd, s.setFd pid fd f)

def addRef (s : FileTable) (f : FileId) : FileTable :=
  if 0 < s.refCount f then { s with refCount := update s.refCount f (s.refCount f + 1) } else s

def vfsFdAllocMin (s : FileTable) (pid : ℤ) (f : FileId) (m : ℕ) : Option ℕ × FileTable :=
  match s.freeFd (max m 3) with
  | none => (none, s)
  | some fd => (some fd, (s.setFd pid fd f).addRef f)

/-! ## Closing -/

def ext2CloseOp (s : FileTable) (i : ℕ) : FileTable :=
  if 0 < s.refCount (.ext2 i) then
    { s with
      refCount := update s.refCount (.ext2 i) (s.refCount (.ext2 i) - 1)
      ext2Used :=
        if s.refCount (.ext2 i) - 1 = 0 then update s.ext2Used i false else s.ext2Used }
  else s

def udpFileClose (s : FileTable) (i : ℕ) : FileTable :=
  let used :=
    match (s.udpFiles i).sock with
    | none => s.udpUsed
    | some k => update s.udpUsed k false
  { s with udpUsed := used, udpFiles := update s.udpFiles i ⟨false, none⟩ }

def vfsClose (s : FileTable) : FileId → FileTable
  | .dev _ => s
  | .ext2 i => s.ext2CloseOp i
  | .pipe i => { s with pipes := pipeCloseOp s.pipes i }
  | .proc i => { s with procBusy := update s.procBusy i false }
  | .loop i => if (s.loop.files i).ops then { s with loop := loopClose s.loop i } else s
  | .udp i => if (s.udpFiles i).ops then s.udpFileClose i else s

def closeSlot (s : FileTable) (fd : ℕ) (f : FileId) : FileTable := (s.vfsClose f).vfsFdFree fd

def sysClose (s : FileTable) (fd : ℕ) : ℤ × FileTable :=
  match s.vfsFdGet fd with
  | none => (-9, s)
  | some f => (0, s.closeSlot fd f)

/-- One round of the loop of `vfs_fd_close_all`. -/
def closeRound (pid : ℤ) (s : FileTable) (fd : ℕ) : FileTable :=
  match s.fdTable fd with
  | none => s
  | some f => if s.fdOwner fd = pid then s.closeSlot fd f else s

def vfsFdCloseAll (s : FileTable) (pid : ℤ) : FileTable :=
  if pid ≤ 0 then s else (List.range maxFds).foldl (closeRound pid) s

/-! ## Adding a slot -/

def sysDup (s : FileTable) (pid : ℤ) (fd : ℕ) : ℤ × FileTable :=
  match s.vfsFdGet fd with
  | none => (-9, s)
  | some f =>
    match s.vfsFdAlloc pid f with
    | (none, s₁) => (-24, s₁)
    | (some nfd, s₁) => (nfd, s₁.addRef f)

/-- `sys_fcntl` with `F_DUPFD`. -/
def sysDupfd (s : FileTable) (pid : ℤ) (fd m : ℕ) : ℤ × FileTable :=
  match s.vfsFdGet fd with
  | none => (-9, s)
  | some f =>
    match s.vfsFdAllocMin pid f m with
    | (none, s₁) => (-24, s₁)
    | (some nfd, s₁) => (nfd, s₁)

/-- `vfs_fd_dup2`.  What `newfd` refers to is closed first, also if it is the same file object. -/
def vfsFdDup2 (s : FileTable) (pid : ℤ) (oldfd newfd : ℕ) : ℤ × FileTable :=
  if maxFds ≤ oldfd ∨ maxFds ≤ newfd then (-1, s)
  else
    match s.fdTable oldfd with
    | none => (-1, s)
    | some f =>
      let s₁ :=
        match s.fdTable newfd with
        | none => s
        | some g =>
          { s.vfsClose g with fdTable := update (s.vfsClose g).fdTable newfd none }
      (newfd, (s₁.setFd pid newfd f).addRef f)

def sysDup2 (s : FileTable) (pid : ℤ) (oldfd newfd : ℕ) : ℤ × FileTable :=
  let r := s.vfsFdDup2 pid oldfd newfd
  (if r.1 < 0 then -9 else r.1, r.2)

/-! ## New file objects -/

def setRef (s : FileTable) (f : FileId) : FileTable :=
  { s with refCount := update s.refCount f 1 }

/-- A descriptor for `f`; without one, `sys_open` returns and leaves `f` as it is. -/
def openFd (s : FileTable) (pid : ℤ) (f : FileId) : ℤ × FileTable :=
  match s.vfsFdAlloc pid f with
  | (none, s₁) => (-24, s₁)
  | (some fd, s₁) => (fd, s₁)

/-- `sys_open` of a path on the disk; `denied` is whether `vfs_check_perm` refuses it. -/
def openExt2 (s : FileTable) (pid : ℤ) (denied : Bool) : ℤ × FileTable :=
  match firstFree s.ext2Used 0 ext2PoolSize with
  | none => (-2, s)
  | some i =>
    let s₁ := { s.setRef (.ext2 i) with ext2Used := update s.ext2Used i true }
    if denied then (-13, s₁.vfsClose (.ext2 i)) else s₁.openFd pid (.ext2 i)

/-- `sys_open` of a path under `/proc`; `known` is whether there is such a file.  `proc_busy` is
cleared, but never set. -/
def openProc (s : FileTable) (pid : ℤ) (known : Bool) : ℤ × FileTable :=
  match firstFree s.procBusy 0 procPool with
  | none => (-2, s)
  | some i =>
    if known then (s.setRef (.proc i)).openFd pid (.proc i)
    else (-2, { s with procBusy := update s.procBusy i false })

/-- `sys_open` of a device. -/
def openDev (s : FileTable) (pid : ℤ) (i : ℕ) : ℤ × FileTable := s.openFd pid (.dev i)

/-- `sys_pipe`.  Without two descriptors the pipe and its file objects stay allocated. -/
def sysPipe (s : FileTable) (pid : ℤ) (mem : Bool) : ℤ × FileTable :=
  match pipeCreate s.pipes mem with
  | (none, P) => (-1, { s with pipes := P })
  | (some (r, w), P) =>
    let s₁ := ({ s with pipes := P }.setRef (.pipe r)).setRef (.pipe w)
    let rfd := s₁.vfsFdAlloc pid (.pipe r)
    let wfd := rfd.2.vfsFdAlloc pid (.pipe w)
    match rfd.1, wfd.1 with
    | some _, some _ => (0, wfd.2)
    | some r, none => (-1, wfd.2.vfsFdFree r)
    | none, some w => (-1, wfd.2.vfsFdFree w)
    | none, none => (-1, wfd.2)

/-- `sys_socket` with `SOCK_STREAM`. -/
def socketStream (s : FileTable) (pid : ℤ) : ℤ × FileTable :=
  match loopSocketFile s.loop with
  | (none, N) => (-24, { s with loop := N })
  | (some i, N) =>
    match ({ s with loop := N }.setRef (.loop i)).vfsFdAlloc pid (.loop i) with
    | (none, s₁) => (-24, { s₁ with loop := loopUndo s₁.loop i })
    | (some fd, s₁) => (fd, s₁)

/-- `sys_socket` with `SOCK_DGRAM`. -/
def socketDgram (s : FileTable) (pid : ℤ) : ℤ × FileTable :=
  match firstFree s.udpUsed 0 udpSockMax, firstFree (fun i => (s.udpFiles i).ops) 0 udpSockMax with
  | some k, some i =>
    let s₁ := { s.setRef (.udp i) with
      udpUsed := update s.udpUsed k true
      udpFiles := update s.udpFiles i ⟨true, some k⟩ }
    match s₁.vfsFdAlloc pid (.udp i) with
    | (none, s₂) =>
      (-24, { s₂ with
        udpUsed := update s₂.udpUsed k false
        udpFiles := update s₂.udpFiles i { s₂.udpFiles i with ops := false } })
    | (some fd, s₂) => (fd, s₂)
  | _, _ => (-24, s)

/-- `loop_accept`, for file object `i`.  The endpoint has left the queue before the rest can fail. -/
def accept (s : FileTable) (pid : ℤ) (i : ℕ) : ℤ × FileTable :=
  match acceptFrom s.loop i with
  | .error e => (e, s)
  | .ok l =>
    match loopAcceptFile s.loop l with
    | (none, N) => (-24, { s with loop := N })
    | (some j, N) =>
      match ({ s with loop := N }.setRef (.loop j)).vfsFdAlloc pid (.loop j) with
      | (none, s₁) => (-24, { s₁ with loop := loopUndo s₁.loop j })
      | (some fd, s₁) => (fd, s₁)

def wireStd (s : FileTable) (pid : ℤ) : FileTable :=
  (List.range 3).foldl (fun s fd => if s.fdTable fd = none then s.setFd pid fd (.dev 0) else s) s

end FileTable

/-! ## The system -/

/-- A call that concerns the table; `exit` stands for the end of process `pid`. -/
inductive FileCall where
  | openExt2 (denied : Bool)
  | openProc (known : Bool)
  | openDev (i : ℕ)
  | pipe (mem : Bool)
  | socketStream
  | socketDgram
  | bind (fd : ℕ) (addr : SockAddr)
  | listen (fd : ℕ)
  | connect (fd : ℕ) (addr : SockAddr)
  | accept (fd : ℕ)
  | dup (fd : ℕ)
  | dupfd (fd m : ℕ)
  | dup2 (oldfd newfd : ℕ)
  | close (fd : ℕ)
  | wireStd
  | exit

/-- A call on the socket of descriptor `fd`: `f` for a loopback socket; a UDP socket has nothing that
the table knows of, and a file object of another kind has no socket in its `private_data`. -/
def FileTable.onSocket (s : FileTable) (fd : ℕ) (f : ℕ → FileTable) : Option FileTable :=
  match s.vfsFdGet fd with
  | none => some s
  | some (.loop i) => some (f i)
  | some (.udp _) => some s
  | some _ => none

def FileTable.step (s : FileTable) : ℤ × FileCall → Option FileTable
  | (pid, .openExt2 denied) => some (s.openExt2 pid denied).2
  | (pid, .openProc known) => some (s.openProc pid known).2
  | (pid, .openDev i) => some (s.openDev pid i).2
  | (pid, .pipe mem) => some (s.sysPipe pid mem).2
  | (pid, .socketStream) => some (s.socketStream pid).2
  | (pid, .socketDgram) => some (s.socketDgram pid).2
  | (_, .bind fd addr) => s.onSocket fd fun i => { s with loop := (loopBind s.loop i addr).2 }
  | (_, .listen fd) => s.onSocket fd fun i => { s with loop := (loopListen s.loop i).2 }
  | (_, .connect fd addr) => s.onSocket fd fun i => { s with loop := (loopConnect s.loop i addr).2 }
  | (pid, .accept fd) => s.onSocket fd fun i => (s.accept pid i).2
  | (pid, .dup fd) => some (s.sysDup pid fd).2
  | (pid, .dupfd fd m) => some (s.sysDupfd pid fd m).2
  | (pid, .dup2 oldfd newfd) => some (s.sysDup2 pid oldfd newfd).2
  | (_, .close fd) => some (s.sysClose fd).2
  | (pid, .wireStd) => some (s.wireStd pid)
  | (pid, .exit) => some (s.vfsFdCloseAll pid)

/-- After `vfs_init`, with the pools as the loader has cleared them. -/
def FileTable.init : FileTable where
  fdTable := fun _ => none
  fdOwner := fun _ => -1
  refCount := fun _ => 0
  ext2Used := fun _ => false
  pipes := ⟨fun _ => ⟨0, 0, false⟩, fun _ => ⟨false, 0, false⟩⟩
  procBusy := fun _ => false
  loop :=
    ⟨fun _ => ⟨false, none⟩, fun _ => ⟨false, .fresh, none, none⟩,
      fun _ => ⟨false, false, 0, .empty (fun _ => none) loopBacklog_pos⟩,
      fun _ => ⟨false, false, 0, none⟩⟩
  udpFiles := fun _ => ⟨false, none⟩
  udpUsed := fun _ => false

end BananaOS.Fs
