import BananaOS.Ext2.Volume

/-!
# Inode records

An inode is kept as 128 bytes in the inode table.  The two directions of that encoding are written
down separately in the driver (a copy out of the block, a copy into it); here they are shown to be
inverse to each other (`Inode.decode_encode`), so that what `ext2_write_inode` stores is what
`ext2_read_inode` returns.  Records do not overlap, so every other inode keeps its own.
-/

namespace BananaOS.Ext2

open Bytes FailState

/-! ## The encoding -/

variable {n b : ℕ}

section Encode

variable (i : Inode) (p : Bytes) (o : ℕ)

theorem ofNat_rd32_encode {x : BitVec 32} {k : ℕ} (hk : k + 4 ≤ 128)
    (h : ∀ j < 4, i.encode (k + j) = byteOf x.toNat j) :
    BitVec.ofNat 32 (rd32 (copyIn p o 128 i.encode) (o + k)) = x := by
  rw [rd32_copyIn hk, rd32_of_byteOf h, Nat.mod_eq_of_lt x.isLt]
  exact BitVec.ofNat_toNat 32 x |>.trans (BitVec.setWidth_eq x)

theorem ofNat_rd16_encode {x : BitVec 16} {k : ℕ} (hk : k + 2 ≤ 128)
    (h : ∀ j < 2, i.encode (k + j) = byteOf x.toNat j) :
    BitVec.ofNat 16 (rd16 (copyIn p o 128 i.encode) (o + k)) = x := by
  rw [rd16_copyIn hk, rd16_of_byteOf h, Nat.mod_eq_of_lt x.isLt]
  exact BitVec.ofNat_toNat 16 x |>.trans (BitVec.setWidth_eq x)

theorem encode_block (k : Fin 15) {j : ℕ} (hj : j < 4) :
    i.encode (40 + 4 * k + j) = byteOf (i.block k).toNat j := by
  have hk := k.isLt
  unfold Inode.encode
  repeat rw [if_neg (by omega)]
  rw [if_pos (by omega)]
  have h1 : (40 + 4 * k.val + j - 40) / 4 = k.val := by omega
  have h2 : (40 + 4 * k.val + j - 40) % 4 = j := by omega
  rw [h1, h2]
  congr 3
  exact Fin.ext (Nat.mod_eq_of_lt hk)

end Encode

attribute [ext] Inode

theorem Inode.decode_encode (i : Inode) (p : Bytes) (o : ℕ) :
    Inode.decode (copyIn p o 128 i.encode) o = i := by
  apply Inode.ext
  case mode =>
    refine ofNat_rd16_encode i p o (k := 0) (by decide) fun j hj => ?_
    rw [Nat.zero_add]
    exact if_pos hj
  case block =>
    funext k
    have := ofNat_rd32_encode i p o (k := 40 + 4 * k) (by omega) fun j hj => encode_block i k hj
    rwa [← Nat.add_assoc] at this
  case osd2 =>
    funext k
    have hk := k.isLt
    show copyIn p o 128 i.encode (o + 116 + k) = i.osd2 k
    rw [copyIn_in (by omega) (by omega), show o + 116 + k.val - o = 116 + k.val by omega]
    unfold Inode.encode
    repeat rw [if_neg (by omega)]
    exact congrArg i.osd2 (Fin.ext (by simp only [Fin.val_ofNat]; omega))
  -- the other fields: each is the branch of the encoding that covers its bytes
  case uid | gid | linksCount =>
    refine ofNat_rd16_encode i p o (by decide) fun j hj => ?_
    simp (disch := omega) only [Inode.encode, if_neg, if_pos, Nat.add_sub_cancel_left]
  all_goals
    refine ofNat_rd32_encode i p o (by decide) fun j hj => ?_
    simp (disch := omega) only [Inode.encode, if_neg, if_pos, Nat.add_sub_cancel_left]

theorem Inode.decode_congr {p q : Bytes} {o o' : ℕ} (h : ∀ j < 128, p (o + j) = q (o' + j)) :
    Inode.decode p o = Inode.decode q o' := by
  have h32 : ∀ k, k + 4 ≤ 128 → rd32 p (o + k) = rd32 q (o' + k) := fun k hk =>
    rd32_congr fun j hj => by
      rw [Nat.add_assoc, Nat.add_assoc]
      exact h (k + j) (by omega)
  have h16 : ∀ k, k + 2 ≤ 128 → rd16 p (o + k) = rd16 q (o' + k) := fun k hk =>
    rd16_congr fun j hj => by
      rw [Nat.add_assoc, Nat.add_assoc]
      exact h (k + j) (by omega)
  apply Inode.ext
  case mode => exact congrArg (BitVec.ofNat 16) (h16 0 (by decide))
  case block =>
    funext k
    have := h32 (40 + 4 * k) (by omega)
    rw [← Nat.add_assoc, ← Nat.add_assoc] at this
    exact congrArg (BitVec.ofNat 32) this
  case osd2 =>
    funext k
    have := h (116 + k) (by omega)
    rwa [← Nat.add_assoc, ← Nat.add_assoc] at this
  case uid | gid | linksCount => exact congrArg (BitVec.ofNat 16) (h16 _ (by decide))
  all_goals exact congrArg (BitVec.ofNat 32) (h32 _ (by decide))

/-! ## The table -/

section Table

variable {v : Volume} {s : Fs}

theorem readInode_run (hi : MetaInv v s) (hn : v.IsIno n) : readInode v.m n s =
      (some (s.inode v n), { s with blkbuf := s.disk (v.recBlock n) }) := by
  have hg := v.inoGroup_lt hn
  have hn0 : ¬ (v.m.mounted = false ∨ n = 0) := by
    rw [v.mounted]
    have := hn.1
    simp
    omega
  unfold readInode
  rw [if_neg hn0, bind_of_some (readGdesc_run hi hg), hi.inodeTable _ hg]
  rw [bind_of_some (readBlk_run (v := v) ?_ (v.rec_lt n hn.1 hn.2))]
  · rfl
  · exact hi.healthy

def Fs.withInode (s : Fs) (v : Volume) (n : ℕ) (i : Inode) : Fs :=
  s.withBlock (v.recBlock n) (copyIn (s.disk (v.recBlock n)) (v.recOff n) 128 i.encode)

theorem writeInode_run (hi : MetaInv v s) (hn : v.IsIno n) (i : Inode) :
    writeInode v.m n i s = (some (), s.withInode v n i) := by
  have hg := v.inoGroup_lt hn
  have hn0 : ¬ (v.m.mounted = false ∨ n = 0) := by
    rw [v.mounted]
    have := hn.1
    simp
    omega
  unfold writeInode
  rw [if_neg hn0, bind_of_some (readGdesc_run hi hg), hi.inodeTable _ hg, v.inoSize_eq]
  rw [bind_of_some (readBlk_run (v := v) ?_ (v.rec_lt n hn.1 hn.2))]
  · unfold editBlk
    rw [modify_bind_run]
    refine writeBlk_run (v := v) ?_ (v.rec_lt n hn.1 hn.2)
    exact hi.healthy
  · exact hi.healthy

theorem withInode_disk_self (n : ℕ) (i : Inode) : (s.withInode v n i).disk (v.recBlock n) =
    copyIn (s.disk (v.recBlock n)) (v.recOff n) 128 i.encode :=
  Function.update_self _ _ _

theorem withInode_disk_of_ne {i : Inode} (h : b ≠ v.recBlock n) :
    (s.withInode v n i).disk b = s.disk b :=
  Function.update_of_ne h _ _

theorem inode_withInode_self (n : ℕ) (i : Inode) : (s.withInode v n i).inode v n = i := by
  unfold Fs.inode
  rw [withInode_disk_self]
  exact Inode.decode_encode i _ _

theorem inode_withInode_of_ne {n' : ℕ} (hn : v.IsIno n) (hn' : v.IsIno n') (hne : n' ≠ n)
    (i : Inode) : (s.withInode v n i).inode v n' = s.inode v n' := by
  unfold Fs.inode
  by_cases hb : v.recBlock n' = v.recBlock n
  · have hd := v.recOff_disjoint hn' hn hne hb
    rw [hb, withInode_disk_self]
    exact Inode.decode_congr fun j hj => copyIn_out (by omega)
  · rw [withInode_disk_of_ne hb]

theorem withInode_disk_of_allocMeta (hn : v.IsIno n) (hb : v.IsAllocMeta b) (i : Inode) :
    (s.withInode v n i).disk b = s.disk b :=
  withInode_disk_of_ne fun he => v.rec_not_allocMeta hn (he ▸ hb)

theorem MetaInv.withInode (hi : MetaInv v s) (hn : v.IsIno n) (i : Inode) :
    MetaInv v (s.withInode v n i) := by
  refine hi.of_gdesc rfl fun g hg => ?_
  have he : (s.withInode v n i).gdesc v g = s.gdesc v g := by
    unfold Fs.gdesc
    rw [withInode_disk_of_allocMeta hn (.inr ⟨g, hg, .inl rfl⟩)]
  rw [he]
  exact ⟨rfl, rfl, rfl⟩

theorem used_withInode (hn : v.IsIno n) (hb : b < v.m.sBlocksCount) (i : Inode) :
    (s.withInode v n i).used v b = s.used v b := by
  unfold Fs.used
  rw [withInode_disk_of_allocMeta hn (.inr ⟨_, v.blkGroup_lt hb, .inr (.inl rfl)⟩)]

theorem inoBit_withInode {n' : ℕ} (hn : v.IsIno n) (hn' : v.IsIno n') (i : Inode) :
    (s.withInode v n i).inoBit v n' = s.inoBit v n' := by
  unfold Fs.inoBit
  rw [withInode_disk_of_allocMeta hn (.inr ⟨_, v.inoGroup_lt hn', .inr (.inr rfl)⟩)]

end Table

end BananaOS.Ext2
