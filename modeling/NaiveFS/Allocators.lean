import Mathlib.Order.Bounds.Basic
import Mathlib.Order.Nat
import NaiveFS.Run
import NaiveFS.V8.Effects

/-!
# How exact the allocators are

`naive_alloc_block` and `naive_find_free_inode` search whole bytes, as many as the total
divided by 8. They find the least clear bit as long as the bits in the bytes searched
decide it; `naive_find_free_block` of the single-file module tests every bit.
-/

namespace NaiveFS

open Bytes

/-! ## What an exact allocator does -/

/-- The clear bits from `lo` on and below `hi`. -/
def clearIn (bm : Bytes) (lo hi : Nat) : Set Nat := {k | lo ≤ k ∧ k < hi ∧ bm.bit k = false}

/-- The superblock describes a device whose bitmaps take one block each. -/
structure OneBitmapBlock (sb : Bytes) : Prop where
  start : SuperBlock.dataBlockNo sb ≤ SuperBlock.blockTotal sb
  blocks : SuperBlock.blockTotal sb ≤ 4096
  inodes : SuperBlock.inodeTotal sb ≤ 4096

/-- The blocks and the inode numbers that are free. -/
def freeBlockNos (sb : Bytes) (sbi : SbInfo) : Set Nat :=
  clearIn sbi.blockBitmap (SuperBlock.dataBlockNo sb) (SuperBlock.blockTotal sb)

def freeInodeNos (sb : Bytes) (sbi : SbInfo) : Set Nat :=
  {ino | 1 ≤ ino ∧ ino ≤ SuperBlock.inodeTotal sb ∧ sbi.inodeBitmap.bit (ino - 1) = false}

/-- `naive_find_free_block` of the single-file module, on the same bits and numbers, takes
the same block. -/
def AgreesWithV8 (sb : Bytes) (sbi : SbInfo) : Prop :=
  ∀ (e : V8.Endian) (u : V8.SbInfo) (v : V8.FS) (ans : V8.Answers),
    V8.le32ToCpu e u.blocksCount = SuperBlock.blockTotal sb →
    V8.le32ToCpu e u.dataBlocksStart = SuperBlock.dataBlockNo sb →
    (∀ k, k < 4096 → v.mem.bit (8 * u.blockBitmap + k) = sbi.blockBitmap.bit k) →
    ∃ r v' r' sbi', (V8.naiveFindFreeBlock e u).exec ans v = .ok (r, v') ∧
      naiveAllocBlock sb sbi = .ok (r', sbi') ∧ r' = (if r = -1 then -ENOSPC else r) ∧
      ∀ k, k < 4096 → v'.mem.bit (8 * u.blockBitmap + k) = sbi'.blockBitmap.bit k

/-- The allocators take the least free block and number, change nothing else, fail only
when there is none, and freeing a block undoes its allocation. -/
structure AllocatorsExact (sb : Bytes) (sbi : SbInfo) : Prop where
  block : ∀ b : Nat, IsLeast (freeBlockNos sb sbi) b →
    naiveAllocBlock sb sbi = .ok ((b : Int), { sbi with blockBitmap := sbi.blockBitmap.setBit b })
  noBlock : freeBlockNos sb sbi = ∅ → naiveAllocBlock sb sbi = .ok (-ENOSPC, sbi)
  agrees : AgreesWithV8 sb sbi
  inode : ∀ ino : Nat, IsLeast (freeInodeNos sb sbi) ino →
    naiveFindFreeInode sb sbi = .ok (ino : Int)
  noInode : freeInodeNos sb sbi = ∅ → naiveFindFreeInode sb sbi = .ok 0
  restored : ∀ (b : Int) (sbi' : SbInfo), naiveAllocBlock sb sbi = .ok (b, sbi') → 0 ≤ b →
    naiveFreeBlock sbi' b = .ok sbi

/-- When anything is free, so is something in the bytes searched. -/
structure WholeBytesDecide (sb : Bytes) (sbi : SbInfo) : Prop where
  block : (freeBlockNos sb sbi).Nonempty → ∃ b ∈ freeBlockNos sb sbi,
    b < 8 * (SuperBlock.blockTotal sb / 8)
  inode : (freeInodeNos sb sbi).Nonempty → ∃ ino ∈ freeInodeNos sb sbi,
    ino ≤ 8 * (SuperBlock.inodeTotal sb / 8)

/-! ## The scans return -/

section Scans

variable {sb : Bytes} {sbi sbi' : SbInfo}

/-- Within the 512 bytes the block scan returns. -/
theorem allocBlockScan_total {total startByte startBit : Int} {n i : Nat} (hn : i + n ≤ 512)
    (hbit : 0 ≤ startBit) : ∃ p, allocBlockScan sbi total startByte startBit n i = .ok p := by
  induction n generalizing i with
  | zero => exact ⟨_, rfl⟩
  | succ n ih =>
      rw [allocBlockScan]
      have hstart : 0 ≤ if (i : Int) = startByte then startBit else 0 := by
        split <;> omega
      simp only
      unfold naiveBlockSize
      rw [if_neg (by omega), if_neg (by omega)]
      cases firstClear (sbi.blockBitmap (i : Int).toNat)
          (if (i : Int) = startByte then startBit else 0).toNat with
      | none =>
          obtain ⟨p, hp⟩ := ih (i := i + 1) (by omega)
          exact ⟨p, hp⟩
      | some j =>
          simp only
          split <;> exact ⟨_, rfl⟩

/-- Within the 512 bytes the inode scan returns. -/
theorem findFreeInodeScan_total {imap : Bytes} {total : Int} {n i : Nat} (hn : i + n ≤ 512) :
    ∃ r, findFreeInodeScan imap total n i = .ok r := by
  induction n generalizing i with
  | zero => exact ⟨_, rfl⟩
  | succ n ih =>
      have hnext := ih (i := i + 1) (by omega)
      rw [findFreeInodeScan]
      unfold naiveBlockSize
      rw [if_neg (by omega)]
      split
      · cases firstClear (imap i) 0 with
        | none => exact hnext
        | some j =>
            simp only
            split <;> exact ⟨_, rfl⟩
      · exact hnext

/-- `naive_alloc_block` takes the least clear bit in the whole bytes. -/
theorem naiveAllocBlock_eq (sbi : SbInfo) (h : OneBitmapBlock sb) :
    (clearIn sbi.blockBitmap (SuperBlock.dataBlockNo sb) (8 * (SuperBlock.blockTotal sb / 8)) = ∅ ∧
      naiveAllocBlock sb sbi = .ok (-ENOSPC, sbi)) ∨
    ∃ b : Nat, IsLeast (clearIn sbi.blockBitmap (SuperBlock.dataBlockNo sb)
        (8 * (SuperBlock.blockTotal sb / 8))) b ∧
      naiveAllocBlock sb sbi
        = .ok ((b : Int), { sbi with blockBitmap := sbi.blockBitmap.setBit b }) := by
  obtain ⟨hstart, hblocks, -⟩ := h
  have htotal : toInt32 (SuperBlock.blockTotal sb) = SuperBlock.blockTotal sb :=
    toInt32_of_small (by omega) (by omega)
  have hdata : toInt32 (SuperBlock.dataBlockNo sb) = SuperBlock.dataBlockNo sb :=
    toInt32_of_small (by omega) (by omega)
  have hreturns : ∃ p, naiveAllocBlock sb sbi = .ok p := by
    unfold naiveAllocBlock
    simp only [htotal, hdata]
    rw [tdiv_eight_natCast, tdiv_eight_natCast, tmod_eight_natCast]
    exact allocBlockScan_total (by omega) (by omega)
  obtain ⟨⟨r, sbi'⟩, hr⟩ := hreturns
  have hcases := naiveAllocBlock_cases hr
  rw [htotal, hdata, tdiv_eight_natCast] at hcases
  rcases hcases with ⟨rfl, rfl, hset⟩ | ⟨hneg, -⟩ | ⟨b, rfl, -, hlo, -, hhi, hclear, rfl, hleast⟩
  · refine .inl ⟨?_, hr⟩
    ext k
    refine iff_of_false ?_ (Set.notMem_empty k)
    rintro ⟨hk, hk', hbit⟩
    rw [hset k (by omega) (by omega)] at hbit
    cases hbit
  · exact absurd hneg (by omega)
  · refine .inr ⟨b, ⟨⟨by omega, by omega, hclear⟩, ?_⟩, hr⟩
    rintro k ⟨hk, -, hbit⟩
    by_contra hlt
    rw [hleast k (by omega) (by omega)] at hbit
    cases hbit

/-- `naive_find_free_inode` finds the least clear bit in the whole bytes. -/
theorem naiveFindFreeInode_eq (sbi : SbInfo) (h : OneBitmapBlock sb) :
    (clearIn sbi.inodeBitmap 0 (8 * (SuperBlock.inodeTotal sb / 8)) = ∅ ∧
      naiveFindFreeInode sb sbi = .ok 0) ∨
    ∃ k : Nat, IsLeast (clearIn sbi.inodeBitmap 0 (8 * (SuperBlock.inodeTotal sb / 8))) k ∧
      naiveFindFreeInode sb sbi = .ok ((k + 1 : Nat) : Int) := by
  have hinodes := h.inodes
  have htotal : toInt32 (SuperBlock.inodeTotal sb) = SuperBlock.inodeTotal sb :=
    toInt32_of_small (by omega) (by omega)
  have hreturns : ∃ r, naiveFindFreeInode sb sbi = .ok r := by
    unfold naiveFindFreeInode
    simp only [htotal]
    rw [tdiv_eight_natCast]
    exact findFreeInodeScan_total (by omega)
  obtain ⟨r, hr⟩ := hreturns
  have hcases := naiveFindFreeInode_cases hr
  rw [htotal, tdiv_eight_natCast] at hcases
  rcases hcases with ⟨rfl, hset⟩ | ⟨k, rfl, -, hhi, hclear, hleast⟩
  · refine .inl ⟨?_, hr⟩
    ext k
    refine iff_of_false ?_ (Set.notMem_empty k)
    rintro ⟨-, hk, hbit⟩
    rw [hset k (by omega)] at hbit
    cases hbit
  · refine .inr ⟨k, ⟨⟨by omega, by omega, hclear⟩, ?_⟩, hr⟩
    rintro m ⟨-, -, hbit⟩
    by_contra hlt
    rw [hleast m (by omega)] at hbit
    cases hbit

end Scans

/-! ## Exactness -/

section Exact

variable {sb : Bytes} {sbi : SbInfo} {bm : Bytes} {lo hi hi' b : Nat}

theorem clearIn_mono (h : hi' ≤ hi) : clearIn bm lo hi' ⊆ clearIn bm lo hi :=
  fun _ hk => ⟨hk.1, Nat.lt_of_lt_of_le hk.2.1 h, hk.2.2⟩

/-- The least clear bit of a range is that of a part in front that has one. -/
theorem isLeast_clearIn_of_le (hle : hi' ≤ hi) (h : IsLeast (clearIn bm lo hi') b) :
    IsLeast (clearIn bm lo hi) b := by
  refine ⟨clearIn_mono hle h.1, fun k hk => ?_⟩
  by_contra hlt
  have hin : k ∈ clearIn bm lo hi' := ⟨hk.1, by have := h.1.2.1; omega, hk.2.2⟩
  exact hlt (h.2 hin)

theorem exists_isLeast {S : Set Nat} (h : S.Nonempty) : ∃ b, IsLeast S b := by
  classical
  exact ⟨_, h.isLeast_natFind⟩

/-- The free numbers are the clear bits, counted from 1. -/
theorem isLeast_freeInodeNos {k : Nat} :
    IsLeast (freeInodeNos sb sbi) (k + 1) ↔
      IsLeast (clearIn sbi.inodeBitmap 0 (SuperBlock.inodeTotal sb)) k := by
  constructor
  · rintro ⟨⟨-, hk, hbit⟩, hleast⟩
    refine ⟨⟨Nat.zero_le k, by omega, hbit⟩, fun m hm => ?_⟩
    have hin : m + 1 ∈ freeInodeNos sb sbi := ⟨by omega, by have := hm.2.1; omega, hm.2.2⟩
    have := hleast hin
    omega
  · rintro ⟨⟨-, hk, hbit⟩, hleast⟩
    refine ⟨⟨by omega, by omega, hbit⟩, fun m hm => ?_⟩
    obtain ⟨hpos, hm', hmbit⟩ := hm
    have := hleast ⟨Nat.zero_le (m - 1), by omega, hmbit⟩
    omega

/-- What the single-file module's allocator does on bits in range. -/
theorem exec_findFreeBlock_V8 {e : V8.Endian} {u : V8.SbInfo} {v : V8.FS} (ans : V8.Answers)
    (h : OneBitmapBlock sb) (htotal : V8.le32ToCpu e u.blocksCount = SuperBlock.blockTotal sb)
    (hdata : V8.le32ToCpu e u.dataBlocksStart = SuperBlock.dataBlockNo sb)
    (hbits : ∀ k, k < 4096 → v.mem.bit (8 * u.blockBitmap + k) = sbi.blockBitmap.bit k) :
    (freeBlockNos sb sbi = ∅ ∧ (V8.naiveFindFreeBlock e u).exec ans v = .ok (-1, v)) ∨
    ∃ b : Nat, IsLeast (freeBlockNos sb sbi) b ∧ (V8.naiveFindFreeBlock e u).exec ans v
      = .ok ((b : Int), (v.setMem (v.mem.setBit (8 * u.blockBitmap + b))).markDirty
        u.blockBitmapBh) := by
  obtain ⟨hstart, hblocks, -⟩ := h
  generalize hD : SuperBlock.dataBlockNo sb = D at *
  generalize hT : SuperBlock.blockTotal sb = T at *
  have hcode : V8.naiveFindFreeBlock e u
      = V8.takeClear u.blockBitmap u.blockBitmapBh (T - D) (D : Int) := by
    unfold V8.naiveFindFreeBlock
    simp only [htotal, hdata, toInt32_of_small (x := (T : Int)) (by omega) (by omega),
      toInt32_of_small (x := (D : Int)) (by omega) (by omega)]
    rw [show ((T : Int) - D).toNat = T - D by omega]
  obtain ⟨r, hr⟩ : ∃ r, V8.findClear u.blockBitmap v.mem (T - D) (D : Int) = .ok r :=
    V8.findClear_total (by omega)
  rw [hcode, V8.takeClear, Prog.exec_step]
  cases r with
  | none =>
      have hset := V8.findClear_none hr
      refine .inl ⟨?_, by rw [hr]; rfl⟩
      ext k
      refine iff_of_false ?_ (Set.notMem_empty k)
      rintro ⟨hk, hk', hbit⟩
      rw [hD] at hk
      rw [hT] at hk'
      rw [← hbits k (by omega), hset k hk (by omega)] at hbit
      cases hbit
  | some x =>
      obtain ⟨b, rfl, hlo, hhi, -, hclear, hleast⟩ := V8.findClear_some hr
      have hset : V8.naiveSetBit b u.blockBitmap v.mem = .ok _ := V8.naiveSetBit_nat ..
      refine .inr ⟨b, ⟨⟨by omega, by omega, ?_⟩, ?_⟩, ?_⟩
      · rw [← hbits b (by omega), hclear]
      · rintro k ⟨hk, hk', hbit⟩
        by_contra hlt
        rw [← hbits k (by omega), hleast k (by omega) (by omega)] at hbit
        cases hbit
      · simp only [hr, hset, bind, Except.bind, pure, Except.pure]

/-- Freeing a block that was just allocated. -/
theorem naiveFreeBlock_setBit (hs : sbi.blockBitmapBlocks = 1) (hb : b < 4096)
    (hclear : sbi.blockBitmap.bit b = false) :
    naiveFreeBlock { sbi with blockBitmap := sbi.blockBitmap.setBit b } b = .ok sbi := by
  unfold naiveFreeBlock
  simp only [tdiv_eight_natCast, tmod_eight_natCast, naiveBlockSize, hs]
  rw [if_pos (by omega), if_neg (by omega), if_neg (by omega),
    show (((b / 8 : Nat) : Int) * 8 + (b % 8 : Nat)).toNat = b by omega,
    clearBit_setBit hclear, ← hs]

theorem WholeBytesDecide.isLeast_block (h : WholeBytesDecide sb sbi)
    (hb : IsLeast (freeBlockNos sb sbi) b) : IsLeast (clearIn sbi.blockBitmap
      (SuperBlock.dataBlockNo sb) (8 * (SuperBlock.blockTotal sb / 8))) b := by
  obtain ⟨k, hk, hlt⟩ := h.block hb.nonempty
  have hbk := hb.2 hk
  exact ⟨⟨hb.1.1, by omega, hb.1.2.2⟩, fun m hm => hb.2 (clearIn_mono (by omega) hm)⟩

theorem WholeBytesDecide.isLeast_inode {ino : Nat} (h : WholeBytesDecide sb sbi)
    (hino : IsLeast (freeInodeNos sb sbi) ino) : ∃ k, ino = k + 1 ∧
      IsLeast (clearIn sbi.inodeBitmap 0 (8 * (SuperBlock.inodeTotal sb / 8))) k := by
  obtain ⟨k, hk, hle⟩ := h.inode hino.nonempty
  have hinok := hino.2 hk
  have hpos := hino.1.1
  obtain ⟨n, rfl⟩ : ∃ n, ino = n + 1 := ⟨ino - 1, by omega⟩
  have hn := isLeast_freeInodeNos.mp hino
  exact ⟨n, rfl, ⟨hn.1.1, by omega, hn.1.2.2⟩, fun m hm => hn.2 (clearIn_mono (by omega) hm)⟩

/-- Where the whole bytes decide, `naive_alloc_block` is exact. -/
theorem naiveAllocBlock_exact (h : OneBitmapBlock sb) (hd : WholeBytesDecide sb sbi) :
    (freeBlockNos sb sbi = ∅ ∧ naiveAllocBlock sb sbi = .ok (-ENOSPC, sbi)) ∨
    ∃ b : Nat, IsLeast (freeBlockNos sb sbi) b ∧ naiveAllocBlock sb sbi
      = .ok ((b : Int), { sbi with blockBitmap := sbi.blockBitmap.setBit b }) := by
  rcases naiveAllocBlock_eq sbi h with ⟨hempty, heq⟩ | ⟨b, hb, heq⟩
  · refine .inl ⟨?_, heq⟩
    rw [← Set.not_nonempty_iff_eq_empty]
    intro hfree
    obtain ⟨b, hb⟩ := exists_isLeast hfree
    have hin := (hd.isLeast_block hb).1
    rw [hempty] at hin
    exact hin
  · exact .inr ⟨b, isLeast_clearIn_of_le (by omega) hb, heq⟩

/-- The allocators are exact as long as the whole bytes decide. -/
theorem allocators_exact_iff (hsb : OneBitmapBlock sb) (hsbi : sbi.blockBitmapBlocks = 1) :
    AllocatorsExact sb sbi ↔ WholeBytesDecide sb sbi := by
  constructor
  · intro h
    refine ⟨fun hfree => ?_, fun hfree => ?_⟩
    · -- what the code returns is the least free block, and lies in a whole byte
      obtain ⟨b, hb⟩ := exists_isLeast hfree
      have hcode := h.block b hb
      rcases naiveAllocBlock_eq sbi hsb with ⟨-, heq⟩ | ⟨c, hc, heq⟩
      · rw [hcode] at heq
        cases heq
      · rw [hcode] at heq
        have hbc : (b : Int) = c := congrArg Prod.fst (Except.ok.inj heq)
        refine ⟨b, hb.1, ?_⟩
        have := hc.1.2.1
        omega
    · obtain ⟨ino, hino⟩ := exists_isLeast hfree
      have hcode := h.inode ino hino
      have hpos := hino.1.1
      rcases naiveFindFreeInode_eq sbi hsb with ⟨-, heq⟩ | ⟨k, hk, heq⟩
      · rw [hcode] at heq
        have hzero : (ino : Int) = 0 := Except.ok.inj heq
        omega
      · rw [hcode] at heq
        have hinok : (ino : Int) = (k + 1 : Nat) := Except.ok.inj heq
        refine ⟨ino, hino.1, ?_⟩
        have := hk.1.2.1
        omega
  · intro h
    -- with the condition, the scan of whole bytes finds what the scan of bits does
    have halloc := naiveAllocBlock_exact hsb h
    refine ⟨fun b hb => ?_, fun hempty => ?_, ?_, fun ino hino => ?_, fun hempty => ?_, ?_⟩
    · rcases halloc with ⟨hempty, -⟩ | ⟨c, hc, heq⟩
      · exact absurd hempty hb.nonempty.ne_empty
      · rw [hb.unique hc]
        exact heq
    · rcases halloc with ⟨-, heq⟩ | ⟨c, hc, -⟩
      · exact heq
      · exact absurd hempty hc.nonempty.ne_empty
    · intro e u v ans htotal hdata hbits
      rcases exec_findFreeBlock_V8 ans hsb htotal hdata hbits with
        ⟨hempty, hexec⟩ | ⟨b, hb, hexec⟩
      · rcases halloc with ⟨-, heq⟩ | ⟨c, hc, -⟩
        · exact ⟨_, _, _, _, hexec, heq, by rw [if_pos rfl], hbits⟩
        · exact absurd hempty hc.nonempty.ne_empty
      · rcases halloc with ⟨hempty, -⟩ | ⟨c, hc, heq⟩
        · exact absurd hempty hb.nonempty.ne_empty
        · obtain rfl := hb.unique hc
          refine ⟨_, _, _, _, hexec, heq, by rw [if_neg (by omega)], fun k hk => ?_⟩
          show (v.mem.setBit (8 * u.blockBitmap + b)).bit (8 * u.blockBitmap + k)
            = (sbi.blockBitmap.setBit b).bit k
          rw [bit_setBit, bit_setBit, hbits k hk]
          simp only [Nat.add_left_cancel_iff]
    · obtain ⟨k, rfl, hk⟩ := h.isLeast_inode hino
      rcases naiveFindFreeInode_eq sbi hsb with ⟨hempty, -⟩ | ⟨m, hm, heq⟩
      · exact absurd hempty hk.nonempty.ne_empty
      · rw [hk.unique hm]
        exact heq
    · rcases naiveFindFreeInode_eq sbi hsb with ⟨-, heq⟩ | ⟨m, hm, -⟩
      · exact heq
      · have hin : IsLeast (freeInodeNos sb sbi) (m + 1) :=
          isLeast_freeInodeNos.mpr (isLeast_clearIn_of_le (by omega) hm)
        exact absurd hempty hin.nonempty.ne_empty
    · intro b sbi' hb hpos
      rcases halloc with ⟨-, heq⟩ | ⟨c, hc, heq⟩
      · have hret : b = -ENOSPC := congrArg Prod.fst (Except.ok.inj (hb.symm.trans heq))
        rw [hret] at hpos
        exact absurd hpos (by decide)
      · obtain ⟨rfl, rfl⟩ := Prod.mk.inj (Except.ok.inj (hb.symm.trans heq))
        have hlt := hc.1.2.1
        have hblocks := hsb.blocks
        exact naiveFreeBlock_setBit hsbi (by omega) hc.1.2.2

/-- Totals that are multiples of 8 leave nothing out. -/
theorem wholeBytesDecide_of_dvd (hblocks : 8 ∣ SuperBlock.blockTotal sb)
    (hinodes : 8 ∣ SuperBlock.inodeTotal sb) : WholeBytesDecide sb sbi := by
  constructor
  · rintro ⟨b, hb⟩
    exact ⟨b, hb, by rw [Nat.mul_div_cancel' hblocks]; exact hb.2.1⟩
  · rintro ⟨ino, hino⟩
    exact ⟨ino, hino, by rw [Nat.mul_div_cancel' hinodes]; exact hino.2.1⟩

/-- On a device of 1000 blocks and 128 inodes the allocators are exact. -/
theorem allocators_exact_sample :
    AllocatorsExact (sampleDisk 128 1000 4 132 1) { blockBitmapBlocks := 1 } := by
  have htotal : SuperBlock.blockTotal (sampleDisk 128 1000 4 132 1) = 1000 := by decide +kernel
  have hinodes : SuperBlock.inodeTotal (sampleDisk 128 1000 4 132 1) = 128 := by decide +kernel
  have hdata : SuperBlock.dataBlockNo (sampleDisk 128 1000 4 132 1) = 132 := by decide +kernel
  refine (allocators_exact_iff ⟨?_, ?_, ?_⟩ rfl).mpr (wholeBytesDecide_of_dvd ?_ ?_)
  · omega
  · omega
  · omega
  · omega
  · omega

/-- Of 134 blocks the last six are never allocated. -/
theorem last_blocks_not_found : ¬ ∀ (sb : Bytes) (sbi : SbInfo), OneBitmapBlock sb →
    sbi.blockBitmapBlocks = 1 → AllocatorsExact sb sbi := by
  intro hall
  have htotal : SuperBlock.blockTotal (sampleDisk 128 134 4 132 1) = 134 := by decide +kernel
  have hinodes : SuperBlock.inodeTotal (sampleDisk 128 134 4 132 1) = 128 := by decide +kernel
  have hdata : SuperBlock.dataBlockNo (sampleDisk 128 134 4 132 1) = 132 := by decide +kernel
  have hexact := hall (sampleDisk 128 134 4 132 1) { blockBitmapBlocks := 1 }
    ⟨by omega, by omega, by omega⟩ rfl
  have hleast : IsLeast
    (freeBlockNos (sampleDisk 128 134 4 132 1) { blockBitmapBlocks := 1 }) 132 :=
    ⟨⟨by omega, by omega, by decide⟩, fun k hk => by have := hk.1; omega⟩
  have hfails : naiveAllocBlock (sampleDisk 128 134 4 132 1) { blockBitmapBlocks := 1 }
      = .ok (-ENOSPC, { blockBitmapBlocks := 1 }) := by
    unfold naiveAllocBlock
    simp only [htotal, hdata]
    rfl
  have hret := (hexact.block 132 hleast).symm.trans hfails
  exact absurd (congrArg Prod.fst (Except.ok.inj hret)) (by decide)

end Exact

end NaiveFS
