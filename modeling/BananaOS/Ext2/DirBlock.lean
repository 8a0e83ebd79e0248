import BananaOS.Ext2.Directory

/-!
# One block of a directory

A block is `Tiled` by a list of offsets when its records, from offset 0 on, end exactly at the end
of the block, and every record in use has room for its name.  What the block says is the list of the
entries of its records in use, `blockEntries`.
-/

namespace BananaOS.Ext2

open Bytes RecordChain

def entryAt (p : Bytes) (o : ℕ) : Option (Name × ℕ) :=
  if recIno p o = 0 then none else some (recName p o, recIno p o)

/-- The records of the block start at the offsets in `l` and cover the block exactly. -/
structure Tiled (size : ℕ) (p : Bytes) (l : List ℕ) : Prop where
  chain : Chain 8 (recLen p) size 0 l
  room : ∀ o ∈ l, recIno p o ≠ 0 → 8 + recNameLen p o ≤ recLen p o

instance (size : ℕ) (p : Bytes) (l : List ℕ) : Decidable (Tiled size p l) :=
  decidable_of_iff (Chain 8 (recLen p) size 0 l ∧
    ∀ o ∈ l, recIno p o ≠ 0 → 8 + recNameLen p o ≤ recLen p o)
    ⟨fun h => ⟨h.1, h.2⟩, fun h => ⟨h.1, h.2⟩⟩

def blockOffsets (size : ℕ) (p : Bytes) : List ℕ := offsets (recLen p) size size 0

def blockEntries (size : ℕ) (p : Bytes) : List (Name × ℕ) :=
  (blockOffsets size p).filterMap (entryAt p)

variable {size o ino ftype : ℕ} {p p' : Bytes} {l l₁ l₂ m : List ℕ} {name : Name}

theorem Tiled.offsets_eq (h : Tiled size p l) : blockOffsets size p = l :=
  h.chain.offsets_eq (by decide) (le_refl _)

theorem Tiled.entries_eq (h : Tiled size p l) : blockEntries size p = l.filterMap (entryAt p) := by
  rw [blockEntries, h.offsets_eq]

theorem entryAt_of_free (h : recIno p o = 0) : entryAt p o = none := if_pos h

theorem entryAt_of_live (h : recIno p o ≠ 0) : entryAt p o = some (recName p o, recIno p o) :=
  if_neg h

theorem entryAt_eq_some {x : ℕ} :
    entryAt p o = some (name, x) ↔ recIno p o ≠ 0 ∧ recName p o = name ∧ recIno p o = x := by
  by_cases h : recIno p o = 0
  · simp [entryAt_of_free h, h]
  · simp [entryAt_of_live h, h]

/-! ## Records -/

theorem length_slice (p : Bytes) (o n : ℕ) : (slice p o n).length = n := by
  simp [slice]

theorem slice_congr {o' n : ℕ} (h : ∀ k < n, p' (o' + k) = p (o + k)) :
    slice p' o' n = slice p o n :=
  List.map_congr_left fun k hk => h k (List.mem_range.mp hk)

theorem record_congr (h8 : 8 ≤ recLen p o) (h : ∀ j, o ≤ j → j < o + recLen p o → p' j = p j) :
    recIno p' o = recIno p o ∧ recLen p' o = recLen p o ∧ recNameLen p' o = recNameLen p o :=
  ⟨rd32_congr fun k _ => h (o + k) (by omega) (by omega),
    rd16_congr fun k _ => h (o + 4 + k) (by omega) (by omega),
    congrArg BitVec.toNat (h (o + 6) (by omega) (by omega))⟩

theorem entryAt_congr (h8 : 8 ≤ recLen p o)
    (hroom : recIno p o ≠ 0 → 8 + recNameLen p o ≤ recLen p o)
    (h : ∀ j, o ≤ j → j < o + recLen p o → p' j = p j) : entryAt p' o = entryAt p o := by
  obtain ⟨hino, -, hnlen⟩ := record_congr h8 h
  by_cases h0 : recIno p o = 0
  · rw [entryAt_of_free h0, entryAt_of_free (hino.trans h0)]
  · have hname : recName p' o = recName p o := by
      rw [recName, recName, hnlen]
      have := hroom h0
      exact slice_congr fun k hk => h (o + 8 + k) (by omega) (by omega)
    rw [entryAt_of_live h0, entryAt_of_live (by rwa [hino]), hname, hino]

theorem Tiled.replace {a b : ℕ} {m' : List ℕ} (h : Tiled size p (l₁ ++ m ++ l₂))
    (hfirst : Chain 8 (recLen p) a 0 l₁) (hlast : Chain 8 (recLen p) size b l₂)
    (hmid : Chain 8 (recLen p') b a m')
    (hroom : ∀ o ∈ m', recIno p' o ≠ 0 → 8 + recNameLen p' o ≤ recLen p' o)
    (hout : ∀ j, j < a ∨ b ≤ j → p' j = p j) :
    Tiled size p' (l₁ ++ m' ++ l₂) ∧ ∀ x ∈ l₁ ++ l₂, entryAt p' x = entryAt p x := by
  -- the other records, all of whose bytes are outside
  have hother : ∀ x ∈ l₁ ++ l₂, 8 ≤ recLen p x ∧
      (recIno p x ≠ 0 → 8 + recNameLen p x ≤ recLen p x) ∧
      ∀ j, x ≤ j → j < x + recLen p x → p' j = p j := by
    intro x hx
    have hall : x ∈ l₁ ++ m ++ l₂ := by
      simp only [List.mem_append] at hx ⊢
      tauto
    refine ⟨(h.chain.mem hall).2.1, h.room x hall, fun j h1 h2 => hout j ?_⟩
    rcases List.mem_append.mp hx with hx | hx
    · have := (hfirst.mem hx).2.2
      omega
    · have := (hlast.mem hx).1
      omega
  have hsame : ∀ x ∈ l₁ ++ l₂, recIno p' x = recIno p x ∧ recLen p' x = recLen p x ∧
      recNameLen p' x = recNameLen p x :=
    fun x hx => record_congr (hother x hx).1 (hother x hx).2.2
  refine ⟨⟨?_, fun x hx h0 => ?_⟩, fun x hx =>
    entryAt_congr (hother x hx).1 (hother x hx).2.1 (hother x hx).2.2⟩
  · have hfirst' := hfirst.congr fun x hx => (hsame x (List.mem_append_left _ hx)).2.1
    have hlast' := hlast.congr fun x hx => (hsame x (List.mem_append_right _ hx)).2.1
    exact (hfirst'.append hmid).append hlast'
  · by_cases hm : x ∈ m'
    · exact hroom x hm h0
    · have hx' : x ∈ l₁ ++ l₂ := by
        simp only [List.mem_append] at hx ⊢
        tauto
      obtain ⟨h1, h2, h3⟩ := hsame x hx'
      rw [h2, h3]
      exact (hother x hx').2.1 (by rwa [h1] at h0)

theorem Tiled.replace_one {a b : ℕ} (h : Tiled size p (l₁ ++ m ++ l₂))
    (hfirst : Chain 8 (recLen p) a 0 l₁) (hlast : Chain 8 (recLen p) size b l₂)
    (h8 : 8 ≤ recLen p' a) (hb : a + recLen p' a = b)
    (hroom : recIno p' a ≠ 0 → 8 + recNameLen p' a ≤ recLen p' a)
    (hout : ∀ j, j < a ∨ b ≤ j → p' j = p j) :
    Tiled size p' (l₁ ++ [a] ++ l₂) ∧ ∀ x ∈ l₁ ++ l₂, entryAt p' x = entryAt p x := by
  refine h.replace hfirst hlast (.cons h8 (hb ▸ .nil)) (fun x hx => ?_) hout
  rwa [List.mem_singleton.mp hx]

theorem filterMap_entries_congr (h : ∀ x ∈ l₁ ++ l₂, entryAt p' x = entryAt p x) :
    l₁.filterMap (entryAt p') = l₁.filterMap (entryAt p) ∧
      l₂.filterMap (entryAt p') = l₂.filterMap (entryAt p) :=
  ⟨List.filterMap_congr fun x hx => h x (List.mem_append_left _ hx),
    List.filterMap_congr fun x hx => h x (List.mem_append_right _ hx)⟩

/-! ## Writing a record -/

section Put

variable {len : ℕ}

theorem putRecord_out {j : ℕ} (h : j < o ∨ o + 8 + name.length ≤ j) :
    putRecord p o ino len name ftype j = p j := by
  rw [putRecord, copyIn_out (by omega), wr8_ne (by omega), wr8_ne (by omega), wr16_out (by omega),
    wr32_out (by omega)]

theorem recIno_putRecord (h : ino < 2 ^ 32) : recIno (putRecord p o ino len name ftype) o = ino := by
  have he : recIno (putRecord p o ino len name ftype) o = rd32 (wr32 p o ino) o :=
    rd32_congr fun k hk => by
      rw [putRecord, copyIn_out (by omega), wr8_ne (by omega), wr8_ne (by omega),
        wr16_out (by omega)]
  rw [he, rd32_wr32, Nat.mod_eq_of_lt h]

theorem recLen_putRecord (h : len < 2 ^ 16) : recLen (putRecord p o ino len name ftype) o = len := by
  have he : recLen (putRecord p o ino len name ftype) o =
      rd16 (wr16 (wr32 p o ino) (o + 4) len) (o + 4) :=
    rd16_congr fun k hk => by
      rw [putRecord, copyIn_out (by omega), wr8_ne (by omega), wr8_ne (by omega)]
  rw [he, rd16_wr16, Nat.mod_eq_of_lt h]

theorem recNameLen_putRecord (h : name.length ≤ 255) :
    recNameLen (putRecord p o ino len name ftype) o = name.length := by
  have he : putRecord p o ino len name ftype (o + 6) = byteOf name.length 0 := by
    rw [putRecord, copyIn_out (by omega), wr8_ne (by omega), wr8_same]
  rw [recNameLen, he, toNat_byteOf, pow_zero, Nat.div_one, Nat.mod_eq_of_lt (by omega)]

theorem map_getD_range (name : Name) : (List.range name.length).map (nameBytes name) = name := by
  refine List.ext_getElem (by simp) fun k h1 h2 => ?_
  simp [nameBytes, List.getElem?_eq_getElem h2]

theorem recName_putRecord (h : name.length ≤ 255) :
    recName (putRecord p o ino len name ftype) o = name := by
  rw [recName, recNameLen_putRecord h]
  refine Eq.trans (List.map_congr_left fun k hk => ?_) (map_getD_range name)
  have hk := List.mem_range.mp hk
  rw [putRecord, copyIn_in (by omega) (by omega), Nat.add_sub_cancel_left]

theorem entryAt_putRecord (h0 : ino ≠ 0) (hino : ino < 2 ^ 32) (h : name.length ≤ 255) :
    entryAt (putRecord p o ino len name ftype) o = some (name, ino) :=
  entryAt_eq_some.mpr ⟨by rwa [recIno_putRecord hino], recName_putRecord h, recIno_putRecord hino⟩

theorem putFree_out {j : ℕ} (h : j < o ∨ o + 8 ≤ j) : putFree p o len j = p j := by
  rw [putFree, wr8_ne (by omega), wr8_ne (by omega), wr16_out (by omega), wr32_out (by omega)]

theorem recIno_putFree : recIno (putFree p o len) o = 0 := by
  have he : recIno (putFree p o len) o = rd32 (wr32 p o 0) o :=
    rd32_congr fun k hk => by
      rw [putFree, wr8_ne (by omega), wr8_ne (by omega), wr16_out (by omega)]
  rw [he, rd32_wr32]
  rfl

theorem recLen_putFree (h : len < 2 ^ 16) : recLen (putFree p o len) o = len := by
  have he : recLen (putFree p o len) o = rd16 (wr16 (wr32 p o 0) (o + 4) len) (o + 4) :=
    rd16_congr fun k hk => by rw [putFree, wr8_ne (by omega), wr8_ne (by omega)]
  rw [he, rd16_wr16, Nat.mod_eq_of_lt h]

end Put

theorem neededLen_bounds (h : name.length ≤ 255) :
    8 + name.length ≤ neededLen name ∧ neededLen name ≤ 264 := by
  unfold neededLen
  omega

theorem putFree_putRecord {a n r : ℕ} (ftype : ℕ) (hn : 8 + name.length ≤ n) (hn16 : n < 2 ^ 16) (hr : 8 ≤ r)
    (hr16 : r < 2 ^ 16) (hname : name.length ≤ 255) (h0 : ino ≠ 0) (hino : ino < 2 ^ 32) :
    let q := putFree (putRecord p a ino n name ftype) (a + n) r
    Chain 8 (recLen q) (a + n + r) a [a, a + n] ∧
      (∀ o ∈ [a, a + n], recIno q o ≠ 0 → 8 + recNameLen q o ≤ recLen q o) ∧
      entryAt q a = some (name, ino) ∧ entryAt q (a + n) = none ∧
      ∀ j, j < a ∨ a + n + r ≤ j → q j = p j := by
  intro q
  have hlen : recLen (putRecord p a ino n name ftype) a = n := recLen_putRecord hn16
  have hnlen : recNameLen (putRecord p a ino n name ftype) a = name.length :=
    recNameLen_putRecord hname
  -- the free record is behind the bytes of the one in use
  have hbytes : ∀ j, a ≤ j → j < a + recLen (putRecord p a ino n name ftype) a →
      q j = putRecord p a ino n name ftype j := by
    intro j h1 h2
    rw [hlen] at h2
    exact putFree_out (.inl h2)
  have h8 : 8 ≤ recLen (putRecord p a ino n name ftype) a := by omega
  obtain ⟨-, hlen', hnlen'⟩ := record_congr h8 hbytes
  have hfree : recLen q (a + n) = r := recLen_putFree hr16
  have hzero : recIno q (a + n) = 0 := recIno_putFree
  refine ⟨?_, fun o ho hlive => ?_, ?_, entryAt_of_free hzero, fun j hj => ?_⟩
  · refine .cons (by omega) ?_
    rw [hlen', hlen]
    refine .cons (by omega) ?_
    rw [hfree]
    exact .nil
  · rcases List.mem_pair.mp ho with rfl | rfl
    · omega
    · exact absurd hzero hlive
  · rw [entryAt_congr h8 (fun _ => by omega) hbytes]
    exact entryAt_putRecord h0 hino hname
  · exact (putFree_out (by omega)).trans (putRecord_out (by omega))

/-! ## Inserting -/

theorem Tiled.useSlot (h : Tiled size p (l₁ ++ o :: l₂)) (ftype : ℕ) (hsize : size < 2 ^ 16)
    (hfit : neededLen name ≤ recLen p o) (hname : name.length ≤ 255) (h0 : ino ≠ 0)
    (hino : ino < 2 ^ 32) :
    ∃ m, (m = [o] ∨ m = [o, o + neededLen name]) ∧
      Tiled size (useSlot p o name ino ftype) (l₁ ++ m ++ l₂) ∧
      m.filterMap (entryAt (useSlot p o name ino ftype)) = [(name, ino)] ∧
      ∀ x ∈ l₁ ++ l₂, entryAt (useSlot p o name ino ftype) x = entryAt p x := by
  obtain ⟨hfirst, ho8, hlast⟩ := h.chain.of_append
  have hle := hlast.le
  obtain ⟨hneed, -⟩ := neededLen_bounds hname
  have h' : Tiled size p (l₁ ++ [o] ++ l₂) := by simpa using h
  by_cases hsplit : 8 ≤ recLen p o - neededLen name
  · have he : Ext2.useSlot p o name ino ftype = putFree
        (putRecord p o ino (neededLen name) name ftype) (o + neededLen name)
        (recLen p o - neededLen name) := if_pos hsplit
    obtain ⟨hmid, hroom, hnew, hrest, hout⟩ := putFree_putRecord (p := p) (a := o) ftype hneed
      (show neededLen name < 2 ^ 16 by omega) hsplit
      (show recLen p o - neededLen name < 2 ^ 16 by omega) hname h0 hino
    have hend : o + neededLen name + (recLen p o - neededLen name) = o + recLen p o := by omega
    rw [hend] at hmid hout
    rw [he]
    obtain ⟨ht, hsame⟩ := h'.replace hfirst hlast hmid hroom hout
    exact ⟨_, .inr rfl, ht, by simp [hnew, hrest], hsame⟩
  · have he : Ext2.useSlot p o name ino ftype = putRecord p o ino (recLen p o) name ftype :=
      if_neg hsplit
    have hlen : recLen (putRecord p o ino (recLen p o) name ftype) o = recLen p o :=
      recLen_putRecord (by omega)
    rw [he]
    obtain ⟨ht, hsame⟩ := h'.replace_one hfirst hlast (ho8.trans hlen.ge) (by rw [hlen]) (fun _ => by
      rw [recNameLen_putRecord hname, hlen]
      omega) fun j hj => putRecord_out (by omega)
    exact ⟨_, .inl rfl, ht, by simp [entryAt_putRecord h0 hino hname], hsame⟩

theorem Tiled.useSlot_perm (h : Tiled size p (l₁ ++ o :: l₂)) (ftype : ℕ) (hsize : size < 2 ^ 16)
    (hfree : recIno p o = 0) (hfit : neededLen name ≤ recLen p o) (hname : name.length ≤ 255)
    (h0 : ino ≠ 0) (hino : ino < 2 ^ 32) :
    (∃ l, Tiled size (Ext2.useSlot p o name ino ftype) l) ∧
      (blockEntries size (Ext2.useSlot p o name ino ftype)).Perm
        ((name, ino) :: blockEntries size p) := by
  obtain ⟨m, -, ht, hnew, hsame⟩ := h.useSlot ftype hsize hfit hname h0 hino
  obtain ⟨hl₁, hl₂⟩ := filterMap_entries_congr hsame
  refine ⟨⟨_, ht⟩, ?_⟩
  rw [ht.entries_eq, h.entries_eq]
  simp only [List.filterMap_append, hl₁, hl₂, hnew, List.append_assoc]
  rw [List.filterMap_cons, entryAt_of_free hfree]
  exact List.perm_middle

theorem tiled_firstRecord {m : Mount} (ftype : ℕ) (hsize : m.blkSize < 2 ^ 16)
    (hbig : 272 ≤ m.blkSize) (hname : name.length ≤ 255) (h0 : ino ≠ 0) (hino : ino < 2 ^ 32) :
    Tiled m.blkSize (firstRecord m name ino ftype) [0, neededLen name] ∧
      blockEntries m.blkSize (firstRecord m name ino ftype) = [(name, ino)] := by
  obtain ⟨hneed, hneed'⟩ := neededLen_bounds hname
  obtain ⟨hchain, hroom, hnew, hrest, -⟩ := putFree_putRecord (p := zero) (a := 0) ftype
    hneed (by omega) (show 8 ≤ m.blkSize - neededLen name by omega)
    (by omega) hname h0 hino
  rw [Nat.zero_add] at hchain hroom hnew hrest
  rw [show neededLen name + (m.blkSize - neededLen name) = m.blkSize by omega] at hchain
  have ht : Tiled m.blkSize (firstRecord m name ino ftype) [0, neededLen name] := ⟨hchain, hroom⟩
  refine ⟨ht, ?_⟩
  rw [ht.entries_eq]
  simp only [List.filterMap_cons, List.filterMap_nil]
  rw [firstRecord, hnew, hrest]

/-! ## Removing -/

theorem Tiled.removeRecord (h : Tiled size p (l₁ ++ o :: l₂)) (hsize : size < 2 ^ 16) :
    ∃ m, (m = l₁ ∨ l₁ = [] ∧ m = [o]) ∧
      Tiled size (removeRecord p o l₁.getLast?) (m ++ l₂) ∧
      m.filterMap (entryAt (removeRecord p o l₁.getLast?)) = l₁.filterMap (entryAt p) ∧
      ∀ x ∈ l₂, entryAt (removeRecord p o l₁.getLast?) x = entryAt p x := by
  obtain ⟨hfirst, ho8, hlast⟩ := h.chain.of_append
  have hle := hlast.le
  rcases List.eq_nil_or_concat l₁ with rfl | ⟨l₀, q, rfl⟩
  · -- the first record of the block becomes free
    rw [show Ext2.removeRecord p o ([] : List ℕ).getLast? =
      wr8 (wr8 (wr32 p o 0) (o + 6) 0) (o + 7) 0 from rfl]
    set p₁ := wr8 (wr8 (wr32 p o 0) (o + 6) 0) (o + 7) 0
    have hout : ∀ j, j ≠ o + 6 → j ≠ o + 7 → p₁ j = wr32 p o 0 j :=
      fun j h6 h7 => (wr8_ne h7).trans (wr8_ne h6)
    have hino : recIno p₁ o = 0 :=
      (rd32_congr fun k hk => hout _ (by omega) (by omega)).trans (rd32_wr32 p o 0)
    have hlen : recLen p₁ o = recLen p o :=
      rd16_congr fun k hk => (hout _ (by omega) (by omega)).trans (wr32_out (by omega))
    have h' : Tiled size p ([] ++ [o] ++ l₂) := by simpa using h
    obtain ⟨ht, hsame⟩ := h'.replace_one hfirst hlast (ho8.trans hlen.ge) (by rw [hlen])
      (fun hx0 => absurd hino hx0) fun j hj =>
        (hout j (by omega) (by omega)).trans (wr32_out (by omega))
    exact ⟨[o], .inr ⟨rfl, rfl⟩, ht, by simp [entryAt_of_free hino], by simpa using hsame⟩
  · -- otherwise the record before it takes its bytes
    rw [List.concat_eq_append] at h hfirst ⊢
    have he : Ext2.removeRecord p o (l₀ ++ [q]).getLast? =
        wr16 p (q + 4) (recLen p q + recLen p o) := by
      rw [List.getLast?_append_of_ne_nil _ (List.cons_ne_nil q [])]
      rfl
    rw [he]
    obtain ⟨hfirst₀, hq8, hq⟩ := hfirst.of_append
    have hqo : q + recLen p q = o := by
      cases hq
      rfl
    set p₁ := wr16 p (q + 4) (recLen p q + recLen p o)
    have hlen : recLen p₁ q = recLen p q + recLen p o := by
      rw [recLen, rd16_wr16, Nat.mod_eq_of_lt (by omega)]
    have hino : recIno p₁ q = recIno p q := rd32_wr16_of_disjoint (by omega)
    have hnlen : recNameLen p₁ q = recNameLen p q := congrArg BitVec.toNat (wr16_out (by omega))
    have hname : recName p₁ q = recName p q := by
      rw [recName, recName, hnlen]
      exact slice_congr fun k _ => wr16_out (by omega)
    have hentry : entryAt p₁ q = entryAt p q := by
      rw [entryAt, entryAt, hino, hname]
    have h' : Tiled size p (l₀ ++ [q, o] ++ l₂) := by simpa using h
    have hqroom := h.room q (by simp)
    obtain ⟨ht, hsame⟩ := h'.replace_one hfirst₀ hlast (show 8 ≤ recLen p₁ q by omega) (by omega)
      (fun hx0 => by
        rw [hino] at hx0
        have := hqroom hx0
        omega) fun j hj => wr16_out (by omega)
    obtain ⟨hl₀, -⟩ := filterMap_entries_congr hsame
    refine ⟨l₀ ++ [q], .inl rfl, ht, ?_, fun x hx => hsame x (List.mem_append_right _ hx)⟩
    rw [List.filterMap_append, List.filterMap_append, hl₀]
    simp only [List.filterMap_cons, List.filterMap_nil, hentry]

theorem Tiled.removeRecord_perm (h : Tiled size p (l₁ ++ o :: l₂)) (hsize : size < 2 ^ 16)
    {e : Name × ℕ} (he : entryAt p o = some e) :
    (∃ l, Tiled size (Ext2.removeRecord p o l₁.getLast?) l) ∧
      (blockEntries size p).Perm
        (e :: blockEntries size (Ext2.removeRecord p o l₁.getLast?)) := by
  obtain ⟨m, -, ht, hm, hsame⟩ := h.removeRecord hsize
  refine ⟨⟨_, ht⟩, ?_⟩
  rw [ht.entries_eq, h.entries_eq, List.filterMap_append, List.filterMap_append, hm,
    List.filterMap_congr hsame, List.filterMap_cons, he]
  exact List.perm_middle

end BananaOS.Ext2
