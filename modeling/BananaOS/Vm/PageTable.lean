import BananaOS.Lib.FailState

/-!
# Page tables

The model of `vm.c`: four levels of tables of 512 entries, in physical memory.  Physical memory is
seen as pages of 64-bit words, `mem f i` being word `i` of page `f`, since that is how the tables are
read and written; bytes are read off the words and written into them (`byte`, `setBytes`).  The kernel
reaches every physical page at its own address, so a physical address is a number here and nothing
translates it.
-/

namespace BananaOS.Vm

open Function FailState

abbrev Word := BitVec 64

abbrev Byte := BitVec 8

abbrev PhysMem := ℕ → ℕ → Word

/-! ## Bytes -/

def byteAt (w : Word) (k : ℕ) : Byte := w.extractLsb' (8 * k) 8

def ofBytes (b : ℕ → Byte) : Word :=
  b 7 ++ (b 6 ++ (b 5 ++ (b 4 ++ (b 3 ++ (b 2 ++ (b 1 ++ b 0))))))

def byte (m : PhysMem) (a : ℕ) : Byte := byteAt (m (a / 4096) (a % 4096 / 8)) (a % 8)

def setBytes (m : PhysMem) (a n : ℕ) (src : ℕ → Byte) : PhysMem := fun f i =>
  ofBytes fun k =>
    let x := f * 4096 + i * 8 + k
    if a ≤ x ∧ x < a + n then src (x - a) else byteAt (m f i) k

def setWord (m : PhysMem) (t i : ℕ) (e : Word) : PhysMem :=
  update m t (update (m t) i e)

/-! ## Entries -/

def ptePresent : Word := 0x1

def pteWrite : Word := 0x2

def pteUser : Word := 0x4

def ptePcd : Word := 0x10

def pteHuge : Word := 0x80

def pteNx : Word := 1#64 <<< 63

def pteAddrMsk : Word := 0x000FFFFFFFFFF000

def vmRead : Word := 0x1

def vmWrite : Word := 0x2

def vmExec : Word := 0x4

def vmUser : Word := 0x8

def has (e bits : Word) : Prop := e &&& bits ≠ 0

instance (e bits : Word) : Decidable (has e bits) := inferInstanceAs (Decidable (_ ≠ _))

/-- The page an entry points to: `P_ADDR` is its address. -/
def frameOf (e : Word) : ℕ := (e.extractLsb' 12 40).toNat

def addrBits (f : ℕ) : Word := BitVec.ofNat 64 (f * 4096)

def pteFlags (flags : Word) : Word :=
  ptePresent ||| (if has flags vmWrite then pteWrite else 0) |||
    (if has flags vmUser then pteUser else 0) ||| (if has flags vmExec then 0 else pteNx)

def tableEntry (t : ℕ) : Word := addrBits t ||| ptePresent ||| pteWrite ||| pteUser

/-- The index of a virtual address at the level of 4 KiB pages (0), 2 MiB pages (1), 1 GiB pages (2)
and in the top table (3). -/
def idx (level va : ℕ) : ℕ := va / 2 ^ (12 + 9 * level) % 512

/-! ## Translation -/

/-- `vm_translate` in the address space with top table `root`: the physical address, 0 for none. -/
def vmTranslate (m : PhysMem) (root va : ℕ) : ℕ :=
  let e4 := m root (idx 3 va)
  if ¬ has e4 ptePresent then 0
  else
    let e3 := m (frameOf e4) (idx 2 va)
    if ¬ has e3 ptePresent then 0
    else if has e3 pteHuge then frameOf e3 * 4096 + va % 2 ^ 30
    else
      let e2 := m (frameOf e3) (idx 1 va)
      if ¬ has e2 ptePresent then 0
      else if has e2 pteHuge then frameOf e2 * 4096 + va % 2 ^ 21
      else
        let e1 := m (frameOf e2) (idx 0 va)
        if ¬ has e1 ptePresent then 0 else frameOf e1 * 4096 + va % 4096

/-- What the processor finds for an address: the physical address and what is allowed there. -/
structure Leaf where
  addr : ℕ
  write : Bool
  user : Bool
  nx : Bool
  deriving DecidableEq

def Leaf.under (e : Word) (l : Leaf) : Leaf where
  addr := l.addr
  write := decide (has e pteWrite) && l.write
  user := decide (has e pteUser) && l.user
  nx := decide (has e pteNx) || l.nx

def Leaf.of (e : Word) (size va : ℕ) : Leaf where
  addr := frameOf e * 4096 + va % size
  write := decide (has e pteWrite)
  user := decide (has e pteUser)
  nx := decide (has e pteNx)

def walkAt (m : PhysMem) : ℕ → ℕ → ℕ → Option Leaf
  | 0, _, _ => none
  | n + 1, t, va =>
    let e := m t (idx n va)
    if ¬ has e ptePresent then none
    else if n = 0 ∨ (has e pteHuge ∧ n < 3) then some (.of e (2 ^ (12 + 9 * n)) va)
    else (walkAt m n (frameOf e) va).map (.under e)

def walk (m : PhysMem) (root va : ℕ) : Option Leaf := walkAt m 4 root va

/-! ## Copies between the kernel and a user -/

/-- The loop of `vm_copy_to_user` from offset `off` on; every round copies at least one byte. -/
def copyToLoop (root vaddr len : ℕ) (src : ℕ → Byte) : ℕ → ℕ → PhysMem → ℤ × PhysMem
  | 0, _, m => (0, m)
  | fuel + 1, off, m =>
    if off < len then
      let va := (vaddr + off) % 2 ^ 64
      let phys := vmTranslate m root va
      if phys = 0 then (-1, m)
      else
        let chunk := min (4096 - va % 4096) (len - off)
        copyToLoop root vaddr len src fuel (off + chunk)
          (setBytes m phys chunk fun k => src (off + k))
    else (0, m)

/-- `vm_copy_to_user`; `ctx` is `none` for a null context. -/
def vmCopyToUser (m : PhysMem) (ctx : Option ℕ) (vaddr : ℕ) (src : ℕ → Byte) (len : ℕ) :
    ℤ × PhysMem :=
  match ctx with
  | none => (-1, m)
  | some root => copyToLoop root vaddr len src len 0 m

/-- The loop of `vm_copy_from_user`; the bytes go to a buffer of the kernel. -/
def copyFromLoop (m : PhysMem) (root vaddr len : ℕ) : ℕ → ℕ → (ℕ → Byte) → ℤ × (ℕ → Byte)
  | 0, _, dst => (0, dst)
  | fuel + 1, off, dst =>
    if off < len then
      let va := (vaddr + off) % 2 ^ 64
      let phys := vmTranslate m root va
      if phys = 0 then (-1, dst)
      else
        let chunk := min (4096 - va % 4096) (len - off)
        copyFromLoop m root vaddr len fuel (off + chunk) fun k =>
          if off ≤ k ∧ k < off + chunk then byte m (phys + (k - off)) else dst k
    else (0, dst)

def vmCopyFromUser (m : PhysMem) (ctx : Option ℕ) (dst : ℕ → Byte) (vaddr len : ℕ) :
    ℤ × (ℕ → Byte) :=
  match ctx with
  | none => (-1, dst)
  | some root => copyFromLoop m root vaddr len len 0 dst

/-! ## Building an address space -/

structure VmSys where
  mem : PhysMem
  calls : ℕ

abbrev VmM := FailState VmSys

def pmalloc (pm : ℕ → Option ℕ) : VmM ℕ := fun s => (pm s.calls, { s with calls := s.calls + 1 })

/-- Set every word of a page; `vm_zero` is the case of zeros. -/
def fillPage (f : ℕ) (w : ℕ → Word) : VmM Unit :=
  modify fun s => { s with mem := update s.mem f w }

/-- `alloc_table`, which is also `vm_alloc_page`: a page of zeros. -/
def allocTable (pm : ℕ → Option ℕ) : VmM ℕ := do
  let t ← pmalloc pm
  fillPage t fun _ => 0
  pure t

def getEntry (t i : ℕ) : VmM Word := gets fun s => s.mem t i

def setEntry (t i : ℕ) (e : Word) : VmM Unit := modify fun s => { s with mem := setWord s.mem t i e }

/-- One level of `vm_map_page`: the table behind entry `i` of table `t`.  A missing one is created; a
huge page is split into the pages `part`, if the level has huge pages; an existing table becomes
reachable for the user. -/
def nextTable (pm : ℕ → Option ℕ) (part : Option (Word → ℕ → Word)) (t i : ℕ) : VmM ℕ := do
  let e ← getEntry t i
  match part with
  | some part =>
    if has e pteHuge then
      let pd ← allocTable pm
      fillPage pd (part (e &&& pteAddrMsk))
      setEntry t i (tableEntry pd)
    else if ¬ has e ptePresent then
      let pd ← allocTable pm
      setEntry t i (tableEntry pd)
    else setEntry t i (e ||| pteUser)
  | none =>
    if ¬ has e ptePresent then
      let pd ← allocTable pm
      setEntry t i (tableEntry pd)
    else setEntry t i (e ||| pteUser)
  gets fun s => frameOf (s.mem t i)

def splitGiga (base : Word) (j : ℕ) : Word :=
  (base + BitVec.ofNat 64 j <<< 21) ||| ptePresent ||| pteWrite ||| pteHuge

def splitMega (base : Word) (j : ℕ) : Word :=
  (base + BitVec.ofNat 64 j <<< 12) ||| ptePresent ||| pteWrite

def vmMapPage (pm : ℕ → Option ℕ) (root vaddr : ℕ) (phys flags : Word) : VmM Unit :=
  if vaddr % 4096 ≠ 0 then fail
  else do
    let pdpt ← nextTable pm none root (idx 3 vaddr)
    let pd ← nextTable pm (some splitGiga) pdpt (idx 2 vaddr)
    let pt ← nextTable pm (some splitMega) pd (idx 1 vaddr)
    setEntry pt (idx 0 vaddr) (phys &&& pteAddrMsk ||| pteFlags flags)

/-- One round of `vm_unmap`: a page that is open for the user loses its entry, and the page of memory
behind it is given to `pfree`. -/
def unmapPage (m : PhysMem) (root a : ℕ) : PhysMem × List ℕ :=
  let e4 := m root (idx 3 a)
  if ¬ has e4 ptePresent then (m, [])
  else
    let e3 := m (frameOf e4) (idx 2 a)
    if ¬ has e3 ptePresent ∨ has e3 pteHuge then (m, [])
    else
      let e2 := m (frameOf e3) (idx 1 a)
      if ¬ has e2 ptePresent ∨ has e2 pteHuge then (m, [])
      else
        let e1 := m (frameOf e2) (idx 0 a)
        if ¬ has e1 ptePresent then (m, [])
        else if ¬ has e1 pteUser ∨ has e1 pteHuge then (m, [])
        else (setWord m (frameOf e2) (idx 0 a) 0, [frameOf e1])

/-- The loop of `vm_unmap`: the memory it leaves and the pages it frees.  `none` means that it has not
ended yet. -/
def unmapLoop (root stop : ℕ) : ℕ → ℕ → PhysMem → Option (PhysMem × List ℕ)
  | 0, _, _ => none
  | fuel + 1, a, m =>
    if a < stop then
      let r := unmapPage m root a
      (unmapLoop root stop fuel ((a + 4096) % 2 ^ 64) r.1).map fun r' => (r'.1, r.2 ++ r'.2)
    else some (m, [])

/-- `vm_unmap`.  There are `2 ^ 52` page addresses, so a loop that goes on after that many rounds has
come back to the first one and does not end. -/
def vmUnmap (m : PhysMem) (ctx : Option ℕ) (vaddr len : ℕ) : Option (ℤ × PhysMem × List ℕ) :=
  match ctx with
  | none => some (-1, m, [])
  | some root =>
    if vaddr % 4096 ≠ 0 then some (-1, m, [])
    else (unmapLoop root ((vaddr + len) % 2 ^ 64) (2 ^ 52 + 1) vaddr m).map fun r => (0, r)

structure VmContext where
  pml4 : ℕ
  brk : ℕ

/-- Where `vm_create` maps the page with the signal restorer. -/
def restorerAddr : ℕ := 0x600000000000

/-- `vm_create`; `stub` is the page of the signal restorer, if there is one.  The result of mapping it
is not looked at. -/
def vmCreate (pm : ℕ → Option ℕ) (stub : Option ℕ) : VmM VmContext := do
  let pml4 ← allocTable pm
  let pdpt0 ← allocTable pm
  setEntry pml4 0 (addrBits pdpt0 ||| ptePresent ||| pteWrite)
  setEntry pdpt0 0 (addrBits 0 ||| ptePresent ||| pteWrite ||| pteHuge)
  setEntry pdpt0 1 (addrBits 0x40000 ||| ptePresent ||| pteWrite ||| pteHuge)
  setEntry pdpt0 3 (addrBits 0xC0000 ||| ptePresent ||| pteWrite ||| pteHuge ||| ptePcd)
  let _ ← pmalloc pm
  match stub with
  | some f =>
    let _ ← attempt (vmMapPage pm pml4 restorerAddr (addrBits f)
      (vmUser ||| vmRead ||| vmWrite ||| vmExec))
  | none => pure ()
  pure ⟨pml4, 0⟩

end BananaOS.Vm
