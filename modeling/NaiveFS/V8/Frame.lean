import NaiveFS.V8.Spec

/-!
# What creating an inode touches (single-file module)

`struct naive_disk_inode` is declared with 452 bytes of padding "to 512 bytes",
which makes it 524 bytes long, so the `memset` over it clears the first 12 bytes
of the next inode-table block: mode, number and block count of the next inode.
-/

namespace NaiveFS.V8

open Bytes

/-- Byte `i` lies outside block `b`. -/
def OutsideBlock (b i : Nat) : Prop := i < naiveBlockSize * b ∨ naiveBlockSize * (b + 1) ≤ i

/-- From `m` to `m'` only block `b` and the block of the inode bitmap change. -/
def TouchesOnly (m m' : Bytes) (b : Nat) : Prop :=
  ∀ i, OutsideBlock b i → OutsideBlock naiveInodeBitmapBlock i → m' i = m i

/-- The 12 bytes after block `b` are zero already (or belong to the inode bitmap). -/
def NextBlockClear (m : Bytes) (b : Nat) : Prop :=
  b + 1 = naiveInodeBitmapBlock ∨ ∀ k, k < 12 → m (naiveBlockSize * (b + 1) + k) = 0

/-- The bit that the new number `n` keeps lies in the bitmap's block or in block `b`'s
structure. -/
def BitInside (b n : Nat) : Prop :=
  n < 4096 ∨ naiveBlockSize * b ≤ 1536 + n / 8 ∧ 1536 + n / 8 < naiveBlockSize * b + sizeofDiskInode

/-- The next 12 bytes clear, the bit inside: `naive_create`'s stores stay in place. -/
def CreateStays (ans : Answers) (m : Bytes) (b n : Nat) : Prop :=
  ans .newInode = false ∨ ans (.sbBread .create b) = false ∨
    (NextBlockClear m b ∧ (ans (.kmalloc .inodeInfo) = false ∨ BitInside b n))

section Mem

variable {e : Endian} {nd : Inode} {ts : Timespec} {m : Bytes} {b n ino links i : Nat}

/-- A byte that the structure covers outside its block. -/
theorem initDiskInode_spill {k : Nat} (h : k < 12) :
    initDiskInode e (bData b) nd ino links ts m (naiveBlockSize * (b + 1) + k) = 0 := by
  rw [show naiveBlockSize * (b + 1) + k = bData b + (512 + k) by unfold bData naiveBlockSize; omega]
  exact initDiskInode_zero (by omega)

/-- Bytes outside the block: behind it and covered by the structure, or left alone. -/
theorem outside_cases (h : OutsideBlock b i) :
    (∃ k, k < 12 ∧ i = naiveBlockSize * (b + 1) + k) ∨
      (i < bData b ∨ bData b + sizeofDiskInode ≤ i) := by
  unfold OutsideBlock naiveBlockSize at h
  unfold bData naiveBlockSize sizeofDiskInode
  by_cases hk : 512 * (b + 1) ≤ i ∧ i < 512 * b + 524
  · exact .inl ⟨i - 512 * (b + 1), by omega, by omega⟩
  · exact .inr (by omega)

/-- Once stored, the structure leaves zeros behind its block. -/
theorem TouchesOnly.nextBlockClear {m' : Bytes} (h : TouchesOnly m m' b)
    (hz : ∀ k, k < 12 → m' (naiveBlockSize * (b + 1) + k) = 0) : NextBlockClear m b := by
  by_cases hb : b + 1 = naiveInodeBitmapBlock
  · exact .inl hb
  · refine .inr ?_
    intro k hk
    rw [← hz k hk]
    unfold naiveInodeBitmapBlock at hb
    refine (h _ ?_ ?_).symm
    · exact .inr (by omega)
    · unfold OutsideBlock naiveBlockSize naiveInodeBitmapBlock
      omega

/-- A spilled byte outside the bitmap's block was zero. -/
theorem NextBlockClear.byte (h : NextBlockClear m b) {k : Nat} (hk : k < 12)
    (h3 : OutsideBlock naiveInodeBitmapBlock (naiveBlockSize * (b + 1) + k)) :
    m (naiveBlockSize * (b + 1) + k) = 0 := by
  obtain hb | hz := h
  · unfold OutsideBlock at h3
    rw [hb] at h3
    unfold naiveBlockSize at h3
    omega
  · exact hz k hk

/-- Setting the bit of number `n` changes its byte. -/
theorem setBit_changes (hfree : m.bit (8 * 1536 + n) = false) :
    m.setBit (8 * 1536 + n) (1536 + n / 8) ≠ m (1536 + n / 8) := by
  intro hc
  have hbyte : (m.setBit (8 * 1536 + n)) ((8 * 1536 + n) / 8) = m ((8 * 1536 + n) / 8) := by
    rwa [show (8 * 1536 + n) / 8 = 1536 + n / 8 by omega]
  have hset : (m.setBit (8 * 1536 + n)).bit (8 * 1536 + n) = true := by simp
  rw [bit_congr hbyte, hfree] at hset
  cases hset

/-- The root's inode at mount: the bit is in the bitmap's block. -/
theorem touchesOnly_mount :
    TouchesOnly m (initDiskInode e (bData b) nd ino links ts (m.setBit (8 * 1536))) b
      ↔ NextBlockClear m b := by
  constructor
  · intro h
    exact h.nextBlockClear fun k hk => initDiskInode_spill hk
  · intro h i hi hi3
    obtain ⟨k, hk, rfl⟩ | hout := outside_cases hi
    · rw [initDiskInode_spill hk, h.byte hk hi3]
    · unfold OutsideBlock naiveBlockSize naiveInodeBitmapBlock at hi3
      rw [initDiskInode_out hout, setBit_out (by omega)]

/-- A file's inode: the bit of its number stays set. -/
theorem touchesOnly_stored (hfree : m.bit (8 * 1536 + n) = false) :
    TouchesOnly m (initDiskInode e (bData b) nd ino links ts (m.setBit (8 * 1536 + n))) b
      ↔ NextBlockClear m b ∧ BitInside b n := by
  constructor
  · intro h
    refine ⟨h.nextBlockClear fun k hk => initDiskInode_spill hk, ?_⟩
    by_contra hout
    unfold BitInside naiveBlockSize sizeofDiskInode at hout
    apply setBit_changes hfree
    rw [← h (1536 + n / 8), initDiskInode_out]
    · unfold bData naiveBlockSize
      omega
    · unfold OutsideBlock naiveBlockSize
      omega
    · unfold OutsideBlock naiveBlockSize naiveInodeBitmapBlock
      omega
  · rintro ⟨hclear, hin⟩ i hi hi3
    obtain ⟨k, hk, rfl⟩ | hout := outside_cases hi
    · rw [initDiskInode_spill hk, hclear.byte hk hi3]
    · rw [initDiskInode_out hout]
      unfold BitInside naiveBlockSize sizeofDiskInode at hin
      unfold bData naiveBlockSize sizeofDiskInode at hout
      unfold OutsideBlock naiveBlockSize naiveInodeBitmapBlock at hi3
      exact setBit_out (by omega)

/-- A file's inode that is given up after it was stored: its bit is cleared again. -/
theorem touchesOnly_cleared (hfree : m.bit (8 * 1536 + n) = false) :
    TouchesOnly m ((initDiskInode e (bData b) nd ino links ts
      (m.setBit (8 * 1536 + n))).clearBit (8 * 1536 + n)) b ↔ NextBlockClear m b := by
  have hspill : ∀ k, k < 12 → (initDiskInode e (bData b) nd ino links ts
      (m.setBit (8 * 1536 + n))).clearBit (8 * 1536 + n) (naiveBlockSize * (b + 1) + k) = 0 := by
    intro k hk
    unfold clearBit
    rw [initDiskInode_spill hk]
    simp
  constructor
  · intro h
    exact h.nextBlockClear hspill
  · intro h i hi hi3
    obtain ⟨k, hk, rfl⟩ | hout := outside_cases hi
    · rw [hspill k hk, h.byte hk hi3]
    · calc (initDiskInode e (bData b) nd ino links ts (m.setBit (8 * 1536 + n))).clearBit
            (8 * 1536 + n) i
          = (m.setBit (8 * 1536 + n)).clearBit (8 * 1536 + n) i := by
            unfold clearBit
            rw [initDiskInode_out hout]
        _ = m i := by rw [clearBit_setBit hfree]

end Mem

/-! ## The two functions -/

section Create

variable {e : Endian} {sbi : SbInfo} {ans : Answers} {s t : FS} {dir mode n : Nat} {name : Name}
  {r : Int}

theorem Found.unique {k : Nat} (hn : Found e sbi s n) (hk : Found e sbi s k) : n = k := by
  rcases Nat.lt_trichotomy n k with hlt | heq | hgt
  · exact absurd (hn.free.symm.trans (hk.least n hlt)) (by decide)
  · exact heq
  · exact absurd (hk.free.symm.trans (hn.least k hgt)) (by decide)

/-- `naive_create` changes only its inode's block and the bitmap's block exactly when
it does not get as far as the `memset`, or the 12 bytes behind the block are zero
and the bit it keeps is inside. -/
theorem naiveCreate_touches_iff (hsbi : s.sFsInfo = .live sbi)
    (hbm : sbi.inodeBitmap = bData naiveInodeBitmapBlock) (hn : Found e sbi s n)
    (h : (naiveCreate e dir name mode).exec ans s = .ok (r, t)) :
    TouchesOnly s.mem t.mem (sbi.tableBlock e n) ↔
      CreateStays ans s.mem (sbi.tableBlock e n) n := by
  have hfree : s.mem.bit (8 * 1536 + n) = false := by
    rw [← hn.free, hbm]
    rfl
  have hbm' : sbi.inodeBitmap = 1536 := hbm
  obtain ⟨-, -, hfull⟩ | ⟨k, hk, ⟨hnew, -, hmem⟩ | ⟨hnew, hdisk, -⟩⟩ := naiveCreate_cases hsbi h
  · exact absurd (hn.free.symm.trans (hfull n hn.total)) (by decide)
  · obtain rfl := hn.unique hk
    rw [hmem, hbm', clearBit_setBit hfree]
    exact ⟨fun _ => .inl hnew, fun _ i _ _ => rfl⟩
  · obtain rfl := hn.unique hk
    rw [hbm'] at hdisk
    generalize t.mem = m' at hdisk
    unfold CreateStays
    rw [hnew]
    cases hdisk with
    | unreadable hread =>
        rw [hbm', clearBit_setBit hfree]
        exact ⟨fun _ => .inr (.inl hread), fun _ i _ _ => rfl⟩
    | noMemory hread hmem nd ts =>
        rw [hbm', touchesOnly_cleared hfree, hread, hmem]
        simp
    | stored hread hmem nd ts =>
        rw [touchesOnly_stored hfree, hread, hmem]
        simp

end Create

/-- A mount changes only the root's block and the bitmap's block exactly when it does
not get as far as the `memset`, or the 12 bytes behind the block are zero. -/
theorem naiveFillSuper_touches_iff {e : Endian} {image : Bytes} {ans : Answers} {t : FS} {r : Int}
    (h : (naiveFillSuper e).exec ans { mem := image } = .ok (r, t)) :
    TouchesOnly image t.mem ((SbInfo.ofImage image).rootBlock e) ↔
      ¬ MountReaches e image ans ∨ NextBlockClear image ((SbInfo.ofImage image).rootBlock e) := by
  obtain ⟨hreach, -, hm⟩ | ⟨hreach, -, hm⟩ := naiveFillSuper_cases h
  · obtain ⟨nd, ts, hmem⟩ := hm.mem
    rw [hmem, touchesOnly_mount]
    exact ⟨.inr, fun h => h.resolve_left (not_not.mpr hreach)⟩
  · refine ⟨fun _ => .inl hreach, ?_⟩
    intro _ i _ hi3
    unfold OutsideBlock naiveBlockSize naiveInodeBitmapBlock at hi3
    obtain hm | hm := hm
    · rw [hm]
    · rw [hm, setBit_out (by omega)]

/-- When creating an inode touches only its own inode-table block, for files and for
the root. -/
theorem creation_touches_iff (e : Endian) (ans : Answers) (t : FS) (r : Int) :
    (∀ (sbi : SbInfo) (s : FS) (dir mode n : Nat) (name : Name),
      s.sFsInfo = .live sbi → sbi.inodeBitmap = bData naiveInodeBitmapBlock →
      Found e sbi s n → (naiveCreate e dir name mode).exec ans s = .ok (r, t) →
      (TouchesOnly s.mem t.mem (sbi.tableBlock e n) ↔
        CreateStays ans s.mem (sbi.tableBlock e n) n)) ∧
    ∀ image : Bytes, (naiveFillSuper e).exec ans { mem := image } = .ok (r, t) →
      (TouchesOnly image t.mem ((SbInfo.ofImage image).rootBlock e) ↔
        ¬ MountReaches e image ans ∨
          NextBlockClear image ((SbInfo.ofImage image).rootBlock e)) :=
  ⟨fun _ _ _ _ _ _ hsbi hbm hn h => naiveCreate_touches_iff hsbi hbm hn h,
    fun _ h => naiveFillSuper_touches_iff h⟩

/-- Mounting a fresh image and creating a file there: nothing lies behind the blocks. -/
theorem creation_touches_fresh : ∃ s t n,
    TouchesOnly freshImage s.mem ((SbInfo.ofImage freshImage).rootBlock .little) ∧
    Found .little (.ofImage freshImage) s n ∧
    (naiveCreate .little 0 (Name.letters 1 (by decide) (by decide)) 0o100644).exec
      (Answers.good ⟨5, 0⟩ 0 0) s = .ok (0, t) ∧
    TouchesOnly s.mem t.mem ((SbInfo.ofImage freshImage).tableBlock .little n) := by
  have hrun : succeeds (naiveFillSuper .little) (.good ⟨4, 0⟩ 0 0) { mem := freshImage }
      (fun s => (List.range 12).all (fun k => s.mem (512 * 6 + k) == 0) &&
        succeeds (naiveCreate .little 0 (Name.letters 1 (by decide) (by decide)) 0o100644)
          (.good ⟨5, 0⟩ 0 0) s fun t => (t.inodes 1).any (·.iIno == 1)) = true := by
    decide +kernel
  obtain ⟨s, hm, hcheck⟩ := exists_of_succeeds hrun
  rw [Bool.and_eq_true, List.all_eq_true] at hcheck
  obtain ⟨hzero, hcreate⟩ := hcheck
  obtain ⟨t, ht, hino⟩ := exists_of_succeeds hcreate
  have hmount := Mounted.cases ⟨_, hm⟩
  obtain ⟨n, hn⟩ := naiveCreate_zero hmount.info ht
  have hn1 : n = 1 := by
    obtain ⟨nd, hinodes, hnd, -⟩ := hn.inodes
    rw [hmount.next] at hinodes
    rw [hinodes, Function.update_self, Option.any_some, beq_iff_eq, hnd] at hino
    exact hino
  have hblock : (SbInfo.ofImage freshImage).tableBlock .little 1 = 5 := by decide +kernel
  refine ⟨s, t, n, ?_, hn.toFound, ht, ?_⟩
  · refine ((creation_touches_iff _ _ _ _).2 _ hm).mpr (.inr (.inr ?_))
    intro k hk
    exact (by decide +kernel : ∀ k, k < 12 → freshImage (naiveBlockSize *
      ((SbInfo.ofImage freshImage).rootBlock .little + 1) + k) = 0) k hk
  · refine ((creation_touches_iff _ _ _ _).1 _ _ _ _ _ _ hmount.info rfl hn.toFound ht).mpr ?_
    subst hn1
    refine .inr (.inr ⟨.inr ?_, .inr (.inl (by decide))⟩)
    intro k hk
    rw [show (((1 : Nat) : Int)) = 1 from rfl, hblock]
    exact beq_iff_eq.mp (hzero k (List.mem_range.mpr hk))

/-- With inode 2 on the device, the mount clears the first bytes of its block. -/
theorem mount_touches_next_inode : ∃ image ans t,
    (naiveFillSuper .little).exec ans { mem := image } = .ok (0, t) ∧
    ¬ TouchesOnly image t.mem ((SbInfo.ofImage image).rootBlock .little) := by
  have hrun : succeeds (naiveFillSuper .little) (.good ⟨4, 0⟩ 0 0)
      { mem := freshImage.putLE32 (512 * 5) 0o100644 }
      (fun t => t.mem (512 * 5) == 0) = true := by
    decide +kernel
  obtain ⟨t, hm, hzero⟩ := exists_of_succeeds hrun
  refine ⟨_, _, t, hm, ?_⟩
  intro h
  have hblock : (SbInfo.ofImage (freshImage.putLE32 (512 * 5) 0o100644)).rootBlock .little = 4 := by
    decide +kernel
  have hbyte := h (512 * 5) (by rw [hblock]; exact .inr (by decide)) (.inr (by decide))
  rw [beq_iff_eq.mp hzero] at hbyte
  exact absurd hbyte (by decide +kernel)

end NaiveFS.V8
