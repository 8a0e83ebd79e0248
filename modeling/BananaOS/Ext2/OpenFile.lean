import BananaOS.Ext2.WriteFile
import BananaOS.Lib.GuardedRun

/-!
# Open files and the size they remember

`file_t` has a field `size` and, for `O_APPEND`, a position that `ext2_open` sets to the end of the
file.  Both are copies of `i_size` at the time of the call.  Afterwards `i_size` is moved by writes
through any descriptor and by truncation, and the copies stay: `ext2_write_op` moves the offset of
its own `file_t` and nothing else, `truncate` has no `file_t` at hand, and only `ftruncate` sets the
copy of the descriptor that it is given.
-/

namespace BananaOS.Ext2

open Function FailState GuardedRun

/-- The fields of `file_t` for a file of this driver. -/
structure FileT where
  /-- `private_data`, the inode number. -/
  ino : ℕ
  size : ℕ
  offset : ℕ
  /-- Whether `O_APPEND` is in `flags`. -/
  append : Bool
  fType : ℕ
  deriving DecidableEq

/-- A number as an `int32_t`. -/
def toInt32 (n : ℕ) : ℤ := Int.bmod n (2 ^ 32)

theorem toInt32_of_lt {n : ℕ} (h : n < 2 ^ 31) : toInt32 n = n := by
  unfold toInt32
  refine Int.bmod_eq_of_le_mul_two ?_ ?_
  · push_cast
    omega
  · push_cast
    omega

/-- The `i_size` of a file, as it is on the disk. -/
def curSize (m : Mount) (ino : ℕ) (s : Fs) : ℕ :=
  match (readInode m ino s).1 with
  | none => 0
  | some i => i.size.toNat

/-- `ext2_inode_size`, where the caller goes on with 0 if it fails. -/
def readSize (m : Mount) (ino : ℕ) : Ext2M ℕ := fun s =>
  (some (curSize m ino s), (readInode m ino s).2)

/-- `ext2_open` for a path that leads to inode `ino`, from the type of the inode on. -/
def ext2Open (m : Mount) (ino : ℕ) (trunc append : Bool) : Ext2M FileT := do
  let i ← readInode m ino
  if i.type ≠ ifReg ∧ i.type ≠ ifLnk ∧ i.type ≠ ifDir then fail
  else
    let _ ← (if trunc = true then truncate m ino else pure () : Ext2M Unit)
    let sz ← readSize m ino
    pure ⟨ino, sz, if append = true then sz else 0, append, i.type⟩

/-- Where a write through a `file_t` goes: the offset, as a `uint32_t`. -/
def FileT.writePos (f : FileT) : ℕ := f.offset % 2 ^ 32

/-- `ext2_read_op`, with the bytes that it stores. -/
def ext2ReadOp (m : Mount) (f : FileT) (size : ℕ) (s : Fs) : ℤ × List Byte × FileT × Fs :=
  if f.fType = ifDir then (-21, [], f, s)
  else
    match readFile m f.ino f.writePos (min size 0xFFFFFFFF) s with
    | (none, s') => (-1, [], f, s')
    | (some bytes, s') =>
      if toInt32 bytes.length < 0 then (-1, bytes, f, s')
      else
        (toInt32 bytes.length, bytes,
          { f with offset := (f.offset + bytes.length) % 2 ^ 64 }, s')

def ext2WriteOp (m : Mount) (f : FileT) (data : Bytes) (size : ℕ) (s : Fs) : ℤ × FileT × Fs :=
  if size = 0 then (0, f, s)
  else
    match writeFile m f.ino f.writePos data (min size 0xFFFFFFFF) s with
    | (none, s') => (-1, f, s')
    | (some n, s') =>
      if toInt32 n < 0 then (-1, f, s')
      else (toInt32 n, { f with offset := (f.offset + n) % 2 ^ 64 }, s')

def vfsLseek (f : FileT) (d whence : ℕ) : Option FileT :=
  match whence with
  | 0 => some { f with offset := d % 2 ^ 64 }
  | 1 => some { f with offset := (f.offset + d) % 2 ^ 64 }
  | 2 => some { f with offset := (f.size + d) % 2 ^ 64 }
  | _ => none

structure OpenFiles where
  fs : Fs
  files : ℕ → Option FileT

inductive FileCall where
  /-- `open`, with the number of the new descriptor; `denied` says that `vfs_check_perm` refuses it
  afterwards. -/
  | openPath (fd : ℕ) (trunc append denied : Bool)
  | read (fd size : ℕ)
  | write (fd : ℕ) (data : Bytes) (size : ℕ)
  | ftruncate (fd : ℕ)
  | truncate
  | lseek (fd d whence : ℕ)
  | fstat (fd : ℕ)
  | close (fd : ℕ)

namespace OpenFiles

def setFile (s : OpenFiles) (fd : ℕ) (f : Option FileT) : OpenFiles :=
  { s with files := update s.files fd f }

/-- The `st_size` that `fstat` reports. -/
def statSize (s : OpenFiles) (fd : ℕ) : Option ℕ := (s.files fd).map FileT.size

/-- One call.  A call on a number that is no descriptor of the file is none of these. -/
def step (m : Mount) (ino : ℕ) (s : OpenFiles) : FileCall → Option OpenFiles
  | .openPath fd trunc append denied =>
    match s.files fd with
    | some _ => none
    | none =>
      match ext2Open m ino trunc append s.fs with
      | (none, fs) => some { s with fs := fs }
      | (some f, fs) =>
        if denied = true then some { s with fs := fs }
        else some ({ s with fs := fs }.setFile fd (some f))
  | .read fd size =>
    (s.files fd).map fun f =>
      let r := ext2ReadOp m f size s.fs
      { s with fs := r.2.2.2 }.setFile fd (some r.2.2.1)
  | .write fd data size =>
    (s.files fd).map fun f =>
      let r := ext2WriteOp m f data size s.fs
      { s with fs := r.2.2 }.setFile fd (some r.2.1)
  | .ftruncate fd =>
    (s.files fd).map fun f =>
      match Ext2.truncate m f.ino s.fs with
      | (none, fs) => { s with fs := fs }
      | (some _, fs) => { s with fs := fs }.setFile fd (some { f with size := 0 })
  | .truncate => some { s with fs := (Ext2.truncate m ino s.fs).2 }
  | .lseek fd d whence =>
    (s.files fd).map fun f =>
      match vfsLseek f d whence with
      | none => s
      | some f' => s.setFile fd (some f')
  | .fstat fd => (s.files fd).map fun _ => s
  | .close fd => (s.files fd).map fun _ => s.setFile fd none

end OpenFiles

def OpenFiles.start (fs : Fs) : OpenFiles := ⟨fs, fun _ => none⟩

/-! ## What the calls should do -/

/-- **The call goes by the current size**: `SEEK_END` leads to `i_size + d`, `fstat` reports
`i_size`, and an append of at least one byte goes to `i_size`. -/
def GoesByCurrent (m : Mount) (ino : ℕ) (s : OpenFiles) : FileCall → Prop
  | .lseek fd d whence => whence = 2 → ∀ s', s.step m ino (.lseek fd d whence) = some s' →
      ∀ f, s'.files fd = some f → f.offset = (curSize m ino s.fs + d) % 2 ^ 64
  | .fstat fd => ∀ n, s.statSize fd = some n → n = curSize m ino s.fs
  | .write fd _ size => ∀ f, s.files fd = some f → f.append = true → size ≠ 0 →
      f.writePos = curSize m ino s.fs
  | _ => True

/-- **The copy is up to date**: the size in the `file_t` for `SEEK_END` and `fstat`, the offset for
an append. -/
def CopyCurrent (m : Mount) (ino : ℕ) (s : OpenFiles) : FileCall → Prop
  | .lseek fd _ whence => whence = 2 → ∀ f ∈ s.files fd, f.size = curSize m ino s.fs
  | .fstat fd => ∀ f ∈ s.files fd, f.size = curSize m ino s.fs
  | .write fd _ size => ∀ f ∈ s.files fd, f.append = true → size ≠ 0 →
      f.offset % 2 ^ 32 = curSize m ino s.fs
  | _ => True

instance (m : Mount) (ino : ℕ) (s : OpenFiles) (e : FileCall) : Decidable (CopyCurrent m ino s e) :=
  match e with
  | .lseek fd _ whence =>
    inferInstanceAs (Decidable (whence = 2 → ∀ f ∈ s.files fd, f.size = curSize m ino s.fs))
  | .fstat fd => inferInstanceAs (Decidable (∀ f ∈ s.files fd, f.size = curSize m ino s.fs))
  | .write fd _ size =>
    inferInstanceAs (Decidable (∀ f ∈ s.files fd, f.append = true → size ≠ 0 →
      f.offset % 2 ^ 32 = curSize m ino s.fs))
  | .openPath .. => inferInstanceAs (Decidable True)
  | .read .. => inferInstanceAs (Decidable True)
  | .ftruncate .. => inferInstanceAs (Decidable True)
  | .truncate => inferInstanceAs (Decidable True)
  | .close .. => inferInstanceAs (Decidable True)

theorem curSize_lt (m : Mount) (ino : ℕ) (s : Fs) : curSize m ino s < 2 ^ 32 := by
  rw [curSize]
  cases (readInode m ino s).1 with
  | none => exact Nat.two_pow_pos 32
  | some i => exact i.size.isLt

/-- The copies are `uint32_t` values. -/
def OpenFiles.Sized (s : OpenFiles) : Prop := ∀ fd f, s.files fd = some f → f.size < 2 ^ 32

section Sized

variable {m : Mount} {ino : ℕ} {s s' : OpenFiles}

theorem OpenFiles.Sized.setFile (h : s.Sized) {fd : ℕ} {o : Option FileT} (fs : Fs)
    (ho : ∀ f, o = some f → f.size < 2 ^ 32) :
    OpenFiles.Sized ({ s with fs := fs }.setFile fd o) := by
  intro fd' f hf
  simp only [OpenFiles.setFile] at hf
  by_cases hfd : fd' = fd
  · rw [hfd, update_self] at hf
    exact ho f hf
  · rw [update_of_ne hfd] at hf
    exact h fd' f hf

theorem OpenFiles.Sized.setSome (h : s.Sized) {fd : ℕ} {f : FileT} (fs : Fs)
    (hf : f.size < 2 ^ 32) : OpenFiles.Sized ({ s with fs := fs }.setFile fd (some f)) :=
  h.setFile fs fun _ hf' => Option.some.inj hf' ▸ hf

theorem ext2Open_size_lt {trunc append : Bool} {fs fs' : Fs} {f : FileT}
    (h : ext2Open m ino trunc append fs = (some f, fs')) : f.size < 2 ^ 32 := by
  rw [ext2Open] at h
  obtain ⟨i, s₁, -, h⟩ := of_bind_eq_some h
  by_cases htype : i.type ≠ ifReg ∧ i.type ≠ ifLnk ∧ i.type ≠ ifDir
  · rw [if_pos htype] at h
    cases h
  · rw [if_neg htype] at h
    obtain ⟨_, s₂, -, h⟩ := of_bind_eq_some h
    obtain ⟨n, s₃, hread, h⟩ := of_bind_eq_some h
    obtain rfl : _ = f := Option.some.inj (congrArg Prod.fst h)
    obtain rfl : curSize m ino s₂ = n := Option.some.inj (congrArg Prod.fst hread)
    exact curSize_lt m ino s₂

theorem ext2ReadOp_size (f : FileT) (size : ℕ) (fs : Fs) :
    (ext2ReadOp m f size fs).2.2.1.size = f.size := by
  rw [ext2ReadOp]
  split_ifs
  · rfl
  · rcases readFile m f.ino f.writePos (min size 0xFFFFFFFF) fs with ⟨_ | bytes, fs'⟩
    · rfl
    · dsimp only
      split_ifs
      · rfl
      · rfl

theorem ext2WriteOp_size (f : FileT) (data : Bytes) (size : ℕ) (fs : Fs) :
    (ext2WriteOp m f data size fs).2.1.size = f.size := by
  rw [ext2WriteOp]
  split_ifs
  · rfl
  · rcases writeFile m f.ino f.writePos data (min size 0xFFFFFFFF) fs with ⟨_ | n, fs'⟩
    · rfl
    · dsimp only
      split_ifs
      · rfl
      · rfl

theorem vfsLseek_size {f f' : FileT} {d whence : ℕ} (h : vfsLseek f d whence = some f') :
    f'.size = f.size := by
  unfold vfsLseek at h
  split at h
  · rw [← Option.some.inj h]
  · rw [← Option.some.inj h]
  · rw [← Option.some.inj h]
  · cases h

theorem OpenFiles.Sized.step (h : s.Sized) {e : FileCall} (hstep : s.step m ino e = some s') :
    s'.Sized := by
  cases e with
  | openPath fd trunc append denied =>
    simp only [OpenFiles.step] at hstep
    rcases hfd : s.files fd with _ | f₀
    · rw [hfd] at hstep
      dsimp only at hstep
      rcases hopen : ext2Open m ino trunc append s.fs with ⟨_ | f, fs⟩
      · rw [hopen] at hstep
        obtain rfl := Option.some.inj hstep
        exact h
      · rw [hopen] at hstep
        dsimp only at hstep
        split_ifs at hstep
        · obtain rfl := Option.some.inj hstep
          exact h
        · obtain rfl := Option.some.inj hstep
          exact h.setSome fs (ext2Open_size_lt hopen)
    · rw [hfd] at hstep
      cases hstep
  | read fd size =>
    obtain ⟨f, hf, rfl⟩ := Option.map_eq_some_iff.mp hstep
    refine h.setSome _ ?_
    rw [ext2ReadOp_size]
    exact h fd f hf
  | write fd data size =>
    obtain ⟨f, hf, rfl⟩ := Option.map_eq_some_iff.mp hstep
    refine h.setSome _ ?_
    rw [ext2WriteOp_size]
    exact h fd f hf
  | ftruncate fd =>
    obtain ⟨f, hf, rfl⟩ := Option.map_eq_some_iff.mp hstep
    rcases Ext2.truncate m f.ino s.fs with ⟨_ | _, fs⟩
    · exact h
    · exact h.setSome fs (Nat.two_pow_pos 32)
  | truncate =>
    obtain rfl := Option.some.inj hstep
    exact h
  | lseek fd d whence =>
    obtain ⟨f, hf, rfl⟩ := Option.map_eq_some_iff.mp hstep
    rcases hseek : vfsLseek f d whence with _ | f'
    · exact h
    · refine h.setSome s.fs ?_
      rw [vfsLseek_size hseek]
      exact h fd f hf
  | fstat fd =>
    obtain ⟨f, -, rfl⟩ := Option.map_eq_some_iff.mp hstep
    exact h
  | close fd =>
    obtain ⟨f, -, rfl⟩ := Option.map_eq_some_iff.mp hstep
    exact h.setFile s.fs nofun

end Sized

/-! ## When the calls go by the current size -/

theorem add_mod_inj {a b d : ℕ} (ha : a < 2 ^ 64) (hb : b < 2 ^ 64)
    (h : (a + d) % 2 ^ 64 = (b + d) % 2 ^ 64) : a = b := by
  have hmod : a % 2 ^ 64 = b % 2 ^ 64 := Nat.ModEq.add_right_cancel' d h
  rwa [Nat.mod_eq_of_lt ha, Nat.mod_eq_of_lt hb] at hmod

theorem goesByCurrent_iff {m : Mount} {ino : ℕ} {s : OpenFiles} (h : s.Sized) (e : FileCall) :
    GoesByCurrent m ino s e ↔ CopyCurrent m ino s e := by
  cases e with
  | lseek fd d whence =>
    have hlt : (2 : ℕ) ^ 32 < 2 ^ 64 := by decide
    have hcur := (curSize_lt m ino s.fs).trans hlt
    constructor
    · intro hgo hw f hf
      have hself : (s.setFile fd (some { f with offset := (f.size + d) % 2 ^ 64 })).files fd =
          some { f with offset := (f.size + d) % 2 ^ 64 } := update_self ..
      have hstep : s.step m ino (.lseek fd d whence) =
          some (s.setFile fd (some { f with offset := (f.size + d) % 2 ^ 64 })) := by
        simp only [OpenFiles.step, hw, Option.mem_def.mp hf, Option.map_some, vfsLseek]
      exact add_mod_inj ((h fd f hf).trans hlt) hcur (hgo hw _ hstep _ hself)
    · rintro hcopy rfl s' hstep f' hf'
      obtain ⟨f, hf, rfl⟩ := Option.map_eq_some_iff.mp hstep
      simp only [vfsLseek, OpenFiles.setFile, update_self, Option.some.injEq] at hf'
      rw [← hf', hcopy rfl f hf]
  | fstat fd =>
    constructor
    · intro hgo f hf
      exact hgo f.size (by rw [OpenFiles.statSize, hf]; rfl)
    · intro hcopy n hn
      obtain ⟨f, hf, rfl⟩ := Option.map_eq_some_iff.mp hn
      exact hcopy f hf
  | write fd data size => exact Iff.rfl
  | openPath fd trunc append denied => exact Iff.rfl
  | read fd size => exact Iff.rfl
  | ftruncate fd => exact Iff.rfl
  | truncate => exact Iff.rfl
  | close fd => exact Iff.rfl

theorem curSize_eq {v : Volume} {s : Fs} (h : MetaInv v s) {ino : ℕ} (hino : v.IsIno ino) :
    curSize v.m ino s = (s.inode v ino).size.toNat := by
  rw [curSize, readInode_run h hino]

/-- **An append that goes to the end** makes the file longer by what is written, and every byte that
was in it stays. -/
def AppendsAtEnd (v : Volume) (ino : ℕ) (s : OpenFiles) : Prop :=
  ∀ fd f data size s', s.files fd = some f → f.ino = ino → f.append = true →
    CopyCurrent v.m ino s (.write fd data size) → WellFormed v s.fs → s.fs.Live v ino →
    (s.fs.inode v ino).type = ifReg → curSize v.m ino s.fs + size < 2 ^ 32 →
    writeFile v.m ino f.writePos data size s.fs = (some size, s') →
    curSize v.m ino s' = curSize v.m ino s.fs + size ∧
      (∀ k < size, s'.view v (s'.inode v ino) (curSize v.m ino s.fs + k) = some (data k)) ∧
      ∀ pos c, pos < curSize v.m ino s.fs → s.fs.view v (s.fs.inode v ino) pos = some c →
        s'.view v (s'.inode v ino) pos = some c

theorem appendsAtEnd (v : Volume) (ino : ℕ) (s : OpenFiles) : AppendsAtEnd v ino s := by
  intro fd f data size s' hf _ happ hcopy hwf hlive hreg hend hw
  have hsize : size ≠ 0 := by
    rintro rfl
    rw [writeFile, if_pos (.inr rfl)] at hw
    cases hw
  have hpos : f.writePos = curSize v.m ino s.fs := hcopy f hf happ hsize
  rw [hpos] at hw
  have hspec := writeFile_spec hwf hlive hreg hend hw
  rw [curSize_eq hspec.wf.toMetaInv hlive.1, hspec.length]
  rw [curSize_eq hwf.toMetaInv hlive.1] at hspec ⊢
  refine ⟨by omega, fun k hk => ?_, fun pos c hlt hc => ?_⟩
  · rw [hspec.inside _ (by omega) (by omega), Nat.add_sub_cancel_left]
  · exact hspec.outside pos c (by omega) hc

/-- Two descriptors with `O_APPEND` on a file of five bytes, and a write of one byte through the
first. -/
def twoAppenders : List FileCall :=
  [.openPath 0 false true false, .openPath 1 false true false, .write 0 sampleData 1]

/-- One descriptor that appends twice, and another that is opened then and asked for the size. -/
def oneAppender : List FileCall :=
  [.openPath 0 false true false, .write 0 sampleData 1, .write 0 sampleData 2,
    .openPath 1 false false false, .fstat 1, .lseek 1 0 2]

end BananaOS.Ext2
