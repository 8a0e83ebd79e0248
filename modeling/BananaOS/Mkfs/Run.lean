import BananaOS.Lib.Patch
import BananaOS.Mkfs.Builder

/-!
# What the builder leaves alone

Between the constructor and `flush` the builder writes to the image in many places, and always to a
block that it has just taken from the bitmap.  So a block that is in use keeps its bytes, whatever
the builder does next.
-/

namespace BananaOS.Mkfs

open Bytes FailState SlotTable

variable {p : Params} {used : ℕ → Bool} {s s' s'' : Builder} {α β : Type}

/-! ## Writes inside the image -/

variable {n b : ℕ}

theorem ByteArr.setSlice_inside {a : ByteArr} {i : ℕ} (h : i + n ≤ a.len) (data : Bytes) :
    a.setSlice i (i + n) n data = ⟨a.len, copyIn a.byte i n data⟩ := by
  have hi : min i a.len = i := Nat.min_eq_left (by omega)
  have hj : max i (min (i + n) a.len) = i + n := by omega
  simp only [ByteArr.setSlice, hi, hj, ByteArr.mk.injEq]
  refine ⟨by omega, ?_⟩
  ext1 k
  rcases Nat.lt_or_ge k i with hlt | hge
  · rw [if_pos hlt, copyIn_out (.inl hlt)]
  · rw [if_neg (by omega)]
    rcases Nat.lt_or_ge k (i + n) with hlt' | hge'
    · rw [if_pos hlt', copyIn_in hge hlt']
    · rw [if_neg (by omega), copyIn_out (.inr hge')]
      congr 1
      omega

theorem block_inside (hb : b < p.totalBlocks) (hn : n ≤ p.blockSize) :
    b * p.blockSize + n ≤ p.totalBlocks * p.blockSize := by
  have h := Nat.mul_le_mul_right p.blockSize hb
  rw [Nat.succ_mul] at h
  omega

theorem block_apart {b' B k : ℕ} (h : b ≠ b') (hk : k < B) :
    b' * B + k < b * B ∨ b * B + B ≤ b' * B + k := by
  rcases Nat.lt_or_gt_of_ne h with hlt | hgt
  · have hle := Nat.mul_le_mul_right B hlt
    rw [Nat.succ_mul] at hle
    omega
  · have hle := Nat.mul_le_mul_right B hgt
    rw [Nat.succ_mul] at hle
    omega

/-! ## The relation -/

structure Stable (p : Params) (used : ℕ → Bool) (s : Builder) : Prop where
  len : s.img.len = p.totalBlocks * p.blockSize
  inUse : ∀ b, used b = true → s.blockBitmap b = true

structure Kept (p : Params) (used : ℕ → Bool) (s s' : Builder) : Prop extends Stable p used s' where
  bytes : ∀ b, used b = true → ∀ k < p.blockSize,
    s'.img.byte (b * p.blockSize + k) = s.img.byte (b * p.blockSize + k)

theorem Stable.refl (h : Stable p used s) : Kept p used s s := ⟨h, fun _ _ _ _ => rfl⟩

theorem Kept.trans (h : Kept p used s s') (h' : Kept p used s' s'') : Kept p used s s'' :=
  ⟨h'.toStable, fun b hb k hk => (h'.bytes b hb k hk).trans (h.bytes b hb k hk)⟩

structure Spare (p : Params) (used : ℕ → Bool) (b : ℕ) : Prop where
  unused : used b = false
  lt : b < p.totalBlocks

variable (p used) in
/-- **`x` leaves the blocks of `used` alone**, and its result has property `Q`. -/
def Keeps (x : MkfsM α) (Q : α → Prop) : Prop :=
  ∀ s a s', Stable p used s → x s = (some a, s') → Kept p used s s' ∧ Q a

abbrev Anything : α → Prop := fun _ => True

namespace Keeps

variable {Q R : α → Prop} {Q' : β → Prop}

theorem pure {a : α} (h : Q a) : Keeps p used (pure a) Q := by
  intro s b s' hs hrun
  cases hrun
  exact ⟨hs.refl, h⟩

theorem fail : Keeps p used (fail : MkfsM α) Q := by
  intro s a s' _ hrun
  cases hrun

theorem gets (f : Builder → α) : Keeps p used (gets f) Anything := by
  intro s a s' hs hrun
  cases hrun
  exact ⟨hs.refl, trivial⟩

theorem bind {x : MkfsM α} {f : α → MkfsM β} (hx : Keeps p used x Q)
    (hf : ∀ a, Q a → Keeps p used (f a) Q') : Keeps p used (x >>= f) Q' := by
  intro s b s' hs hrun
  obtain ⟨a, s₁, hx₁, hf₁⟩ := of_bind_eq_some hrun
  obtain ⟨hkept, ha⟩ := hx s a s₁ hs hx₁
  obtain ⟨hkept', hb⟩ := hf a ha s₁ b s' hkept.toStable hf₁
  exact ⟨hkept.trans hkept', hb⟩

theorem ite {c : Prop} [Decidable c] {x y : MkfsM α} (hx : c → Keeps p used x Q)
    (hy : ¬ c → Keeps p used y Q) : Keeps p used (if c then x else y) Q := by
  split_ifs with h
  · exact hx h
  · exact hy h

theorem modify {f : Builder → Builder} (himg : ∀ s, (f s).img = s.img)
    (hbitmap : ∀ s, (f s).blockBitmap = s.blockBitmap) :
    Keeps p used (modify f) Anything := by
  intro s a s' hs hrun
  cases hrun
  refine ⟨⟨⟨(congrArg ByteArr.len (himg s)).trans hs.len, ?_⟩, ?_⟩, trivial⟩
  · rw [hbitmap s]
    exact hs.inUse
  · intro b _ k _
    rw [himg s]

theorem modifyThen {f : Builder → Builder} {y : MkfsM β} (himg : ∀ s, (f s).img = s.img)
    (hbitmap : ∀ s, (f s).blockBitmap = s.blockBitmap) (hy : Keeps p used y Q') :
    Keeps p used (FailState.modify f >>= fun _ => y) Q' :=
  (Keeps.modify himg hbitmap).bind fun _ _ => hy

theorem setSlice (hb : Spare p used b) (hn : n ≤ p.blockSize) (data : Bytes) :
    Keeps p used (FailState.modify fun s => { s with
      img := s.img.setSlice (b * p.blockSize) (b * p.blockSize + n) n data }) Anything := by
  intro s a s' hs hrun
  cases hrun
  have hin : b * p.blockSize + n ≤ s.img.len := by
    rw [hs.len]
    exact block_inside hb.lt hn
  simp only [ByteArr.setSlice_inside hin]
  refine ⟨⟨⟨hs.len, hs.inUse⟩, fun b' hb' k hk => ?_⟩, trivial⟩
  have hne : b ≠ b' := by
    rintro rfl
    rw [hb.unused] at hb'
    cases hb'
  refine copyIn_out ?_
  have := block_apart hne hk
  omega

end Keeps

/-! ## Blocks -/

theorem findFreeBlock_eq_some (h : findFreeBlock p s = (some b, s')) :
    s' = s ∧ b < p.totalBlocks ∧ s.blockBitmap b = false := by
  simp only [findFreeBlock, gets_bind_run] at h
  rcases hn : firstFree s.blockBitmap s.nextBlock p.totalBlocks with _ | n
  · simp only [hn] at h
    rw [gets_bind_run] at h
    rcases hn' : firstFree s.blockBitmap 0 p.totalBlocks with _ | n
    · simp only [hn'] at h
      cases h
    · simp only [hn'] at h
      cases h
      exact ⟨rfl, (firstFree_eq_some hn').2⟩
  · simp only [hn] at h
    cases h
    exact ⟨rfl, (firstFree_eq_some hn).2⟩

theorem allocBlock_eq_some (h : allocBlock p s = (some b, s')) :
    b < p.totalBlocks ∧ s.blockBitmap b = false ∧
      s' = { s with blockBitmap := Function.update s.blockBitmap b true, nextBlock := b + 1 } := by
  obtain ⟨b', s₁, hfind, htake⟩ := of_bind_eq_some h
  obtain ⟨rfl, hlt, hfree⟩ := findFreeBlock_eq_some hfind
  cases htake
  exact ⟨hlt, hfree, rfl⟩

theorem allocBlock_keeps : Keeps p used (allocBlock p) (Spare p used) := by
  intro s b s' hs hrun
  obtain ⟨hlt, hfree, rfl⟩ := allocBlock_eq_some hrun
  refine ⟨⟨⟨hs.len, fun b' hb' => ?_⟩, fun _ _ _ _ => rfl⟩, ⟨?_, hlt⟩⟩
  · exact (Function.update_apply ..).trans (by rw [hs.inUse b' hb', ite_self])
  · rw [← Bool.not_eq_true]
    intro hb
    rw [hs.inUse b hb] at hfree
    cases hfree

theorem writeBlockAt_keeps (hb : Spare p used b) (data : Bytes) :
    Keeps p used (writeBlockAt p b data) Anything := by
  have h := Keeps.setSlice hb le_rfl data
  rw [← Nat.succ_mul] at h
  exact h

theorem pack_keeps (w v : ℕ) : Keeps p used (pack w v) Anything :=
  .ite (fun _ => .pure trivial) fun _ => .fail

theorem allocIndirect_keeps (entries : List ℕ) :
    Keeps p used (allocIndirect p entries) (Spare p used) :=
  .ite (fun _ => .fail) fun _ =>
    allocBlock_keeps.bind fun _ hb => (writeBlockAt_keeps hb _).bind fun _ _ => .pure hb

theorem allocIndirects_keeps (groups : List (List ℕ)) :
    Keeps p used (allocIndirects p groups) Anything := by
  induction groups with
  | nil => exact .pure trivial
  | cons g gs ih =>
    exact (allocIndirect_keeps g).bind fun _ _ => ih.bind fun _ _ => .pure trivial

theorem allocTables_keeps (blocks : List ℕ) : Keeps p used (allocTables p blocks) Anything :=
  .ite (fun _ => .pure trivial) fun _ =>
    (allocIndirect_keeps _).bind fun _ _ => (pack_keeps _ _).bind fun _ _ =>
      .ite (fun _ => .pure trivial) fun _ =>
        (allocIndirects_keeps _).bind fun _ _ => (allocIndirect_keeps _).bind fun _ _ =>
          (pack_keeps _ _).bind fun _ _ => .pure trivial

theorem setInode_keeps (ino : ℕ) (bytes : Bytes) :
    Keeps p used (setInode p ino bytes) Anything :=
  .ite (fun _ => .fail) fun _ => .modify (fun _ => rfl) fun _ => rfl

theorem writeInode_keeps (ino mode size : ℕ) (blocks : List ℕ) :
    Keeps p used (writeInode p ino mode size blocks) Anything :=
  (pack_keeps _ _).bind fun _ _ => (pack_keeps _ _).bind fun _ _ =>
    .ite (fun _ => .fail) fun _ =>
      (allocTables_keeps _).bind fun _ _ => (pack_keeps _ _).bind fun _ _ => setInode_keeps _ _

/-! ## Files and directories -/

theorem makeFileFrom_keeps (content : List Byte) (n i : ℕ) :
    Keeps p used (makeFileFrom p content n i) Anything := by
  induction n generalizing i with
  | zero => exact .pure trivial
  | succ n ih =>
    exact allocBlock_keeps.bind fun b hb =>
      (Keeps.setSlice hb (Nat.min_le_left _ _) _).bind fun _ _ =>
        (ih (i + 1)).bind fun _ _ => .pure trivial

theorem findFreeInode_keeps : Keeps p used (findFreeInode p) Anything := by
  refine (Keeps.gets _).bind fun r _ => ?_
  split
  · exact .pure trivial
  · refine (Keeps.gets _).bind fun r _ => ?_
    split
    · exact .pure trivial
    · exact .fail

theorem allocInode_keeps : Keeps p used (allocInode p) Anything :=
  findFreeInode_keeps.bind fun _ _ =>
    .modifyThen (fun _ => rfl) (fun _ => rfl) (.pure trivial)

theorem ensureDir_keeps (parent : ℕ) (name : Name) :
    Keeps p used (ensureDir p parent name) Anything := by
  refine (Keeps.gets _).bind fun r _ => ?_
  split
  · exact .fail
  · split
    · exact .pure trivial
    · exact allocInode_keeps.bind fun _ _ =>
        .modifyThen (fun _ => rfl) (fun _ => rfl) (.pure trivial)

theorem walkDir_keeps (parts : List Name) (cur : ℕ) :
    Keeps p used (walkDir p cur parts) Anything := by
  induction parts generalizing cur with
  | nil => exact .pure trivial
  | cons part parts ih => exact (ensureDir_keeps cur part).bind fun next _ => ih next

theorem createFile_keeps (path content : List Byte) :
    Keeps p used (createFile p path content) Anything := by
  simp only [createFile]
  split
  · exact .fail
  · exact (walkDir_keeps _ _).bind fun _ _ => (makeFileFrom_keeps _ _ _).bind fun _ _ =>
      allocInode_keeps.bind fun _ _ => (writeInode_keeps _ _ _ _).bind fun _ _ =>
        .modifyThen (fun _ => rfl) (fun _ => rfl) (.pure trivial)

theorem createSymlink_keeps (path target : List Byte) :
    Keeps p used (createSymlink p path target) Anything := by
  simp only [createSymlink]
  split
  · exact .fail
  · exact (walkDir_keeps _ _).bind fun _ _ => (makeFileFrom_keeps _ _ _).bind fun _ _ =>
      allocInode_keeps.bind fun _ _ => (pack_keeps _ _).bind fun _ _ =>
        (pack_keeps _ _).bind fun _ _ => .ite (fun _ => .fail) fun _ =>
          (setInode_keeps _ _).bind fun _ _ =>
            .modifyThen (fun _ => rfl) (fun _ => rfl) (.pure trivial)

theorem placeEntries_keeps (entries : List Entry) {d : DirBlock} (full : List ℕ)
    (hd : Spare p used d.block) :
    Keeps p used (placeEntries p entries d full) fun r => Spare p used r.1.block := by
  induction entries generalizing d full with
  | nil => exact .pure hd
  | cons e es ih =>
    refine .ite (fun _ => ?_) fun _ => ?_
    · exact (writeBlockAt_keeps hd _).bind fun _ _ => allocBlock_keeps.bind fun b hb =>
        (pack_keeps _ _).bind fun _ _ => (pack_keeps _ _).bind fun _ _ => ih _ hb
    · exact (pack_keeps _ _).bind fun _ _ => (pack_keeps _ _).bind fun _ _ => ih _ hd

theorem materializeDir_keeps (ino : ℕ) (entries : List Entry) :
    Keeps p used (materializeDir p ino entries) Anything :=
  (Keeps.gets _).bind fun _ _ => allocBlock_keeps.bind fun _ hb =>
    (placeEntries_keeps _ _ hb).bind fun _ hd => (writeBlockAt_keeps hd _).bind fun _ _ =>
      (Keeps.gets _).bind fun _ _ => writeInode_keeps _ _ _ _

theorem materializeDirs_keeps (dirs : List (ℕ × List Entry)) :
    Keeps p used (materializeDirs p dirs) Anything := by
  induction dirs with
  | nil => exact .pure trivial
  | cons d dirs ih => exact (materializeDir_keeps d.1 d.2).bind fun _ _ => ih

/-! ## Runs -/

theorem Call.run_keeps (c : Call) : Keeps p used (c.run p) Anything := by
  cases c with
  | createFile path content => exact (createFile_keeps path content).bind fun _ _ => .pure trivial
  | createSymlink path target =>
    exact (createSymlink_keeps path target).bind fun _ _ => .pure trivial
  | walkDir parts => exact (walkDir_keeps parts 2).bind fun _ _ => .pure trivial
  | setMode parts mode =>
    exact (walkDir_keeps parts 2).bind fun _ _ => .modify (fun _ => rfl) fun _ => rfl
  | addEntry parent entry => exact .modify (fun _ => rfl) fun _ => rfl
  | materialize dirs => exact materializeDirs_keeps dirs

theorem runCalls_keeps (cs : List Call) : Keeps p used (runCalls p cs) Anything := by
  induction cs with
  | nil => exact .pure trivial
  | cons c cs ih => exact c.run_keeps.bind fun _ _ => ih

theorem populate_keeps (files : List (List Byte × List Byte)) :
    Keeps p used (populate p files) Anything :=
  (runCalls_keeps _).bind fun _ _ => (Keeps.gets _).bind fun _ _ => materializeDirs_keeps _

end BananaOS.Mkfs
