import NaiveFS.Vfs

/-!
# What the allocators do

One lemma per function of `naivefs_super.c` that touches a bitmap, saying what
it can return and how `sbi` changed. Callers use these and never unfold the
scans.
-/

namespace NaiveFS

open Bytes

/-! ## One byte -/

theorem firstClear_some {byte : Byte} {start j : Nat} (h : firstClear byte start = some j) :
    start ≤ j ∧ j < 8 ∧ byte.getLsbD j = false ∧
      ∀ k, start ≤ k → k < j → byte.getLsbD k = true := by
  unfold firstClear at h
  rw [List.find?_range'_eq_some] at h
  obtain ⟨hj, hmem, hlt⟩ := h
  rw [List.mem_range'_1] at hmem
  have hj8 : j < 8 := by omega
  refine ⟨by omega, hj8, (and_one_shl_eq_zero hj8).mp (by simpa using hj), ?_⟩
  intro k hk hkj
  have hk' := hlt k hk hkj
  simp only [Bool.not_eq_true', decide_eq_false_iff_not] at hk'
  rw [and_one_shl_eq_zero (by omega)] at hk'
  simpa using hk'

theorem firstClear_none {byte : Byte} {start : Nat} (h : firstClear byte start = none) :
    ∀ k, start ≤ k → k < 8 → byte.getLsbD k = true := by
  unfold firstClear at h
  rw [List.find?_range'_eq_none] at h
  intro k hk hk8
  have hk' := h k hk (by omega)
  simp only [Bool.not_eq_true', decide_eq_false_iff_not] at hk'
  rw [and_one_shl_eq_zero hk8] at hk'
  simpa using hk'

theorem bit_byte (bm : Bytes) (i j : Nat) (hj : j < 8) :
    bm.bit (8 * i + j) = (bm i).getLsbD j := by
  unfold bit
  rw [show (8 * i + j) / 8 = i by omega, show (8 * i + j) % 8 = j by omega]

/-- A byte of ones has every bit set. -/
theorem getLsbD_ff {j : Nat} (hj : j < 8) : (0xFF#8).getLsbD j = true := by
  revert j
  decide

/-- C division by 8 truncates towards zero. -/
theorem tdiv_eight (x : Int) : x.tdiv 8 = if 0 ≤ x then x / 8 else -(-x / 8) := by
  split
  · rename_i h
    exact Int.tdiv_eq_ediv_of_nonneg h
  · rename_i h
    rw [show x = -(-x) by omega, Int.neg_tdiv, Int.tdiv_eq_ediv_of_nonneg (by omega), Int.neg_neg]

theorem tmod_eight (x : Int) : x.tmod 8 = x - 8 * x.tdiv 8 := Int.tmod_def x 8

theorem tdiv_eight_natCast (n : Nat) : (n : Int).tdiv 8 = (n / 8 : Nat) := (Int.ofNat_tdiv n 8).symm

theorem tmod_eight_natCast (n : Nat) : (n : Int).tmod 8 = (n % 8 : Nat) := (Int.ofNat_tmod n 8).symm

/-! ## `naive_find_free_inode` -/

theorem findFreeInodeScan_cases {imap : Bytes} {total : Int} {n i : Nat} {r : Int}
    (hn : 8 * ((i + n : Nat) : Int) ≤ max total 0)
    (h : findFreeInodeScan imap total n i = .ok r) :
    (r = 0 ∧ ∀ k, 8 * i ≤ k → k < 8 * (i + n) → imap.bit k = true) ∨
    ∃ k : Nat, r = k + 1 ∧ 8 * i ≤ k ∧ k < 4096 ∧ k < 8 * (i + n) ∧ imap.bit k = false ∧
      ∀ m, 8 * i ≤ m → m < k → imap.bit m = true := by
  induction n generalizing i with
  | zero =>
      cases h
      exact .inl ⟨rfl, fun k hk hk' => by omega⟩
  | succ n ih =>
      rw [findFreeInodeScan] at h
      split at h
      · cases h
      rename_i hi
      unfold naiveBlockSize at hi
      have hnext (hall : ∀ j, j < 8 → (imap i).getLsbD j = true)
          (h : findFreeInodeScan imap total n (i + 1) = .ok r) :
          (r = 0 ∧ ∀ k, 8 * i ≤ k → k < 8 * (i + (n + 1)) → imap.bit k = true) ∨
          ∃ k : Nat, r = k + 1 ∧ 8 * i ≤ k ∧ k < 4096 ∧ k < 8 * (i + (n + 1)) ∧
            imap.bit k = false ∧ ∀ m, 8 * i ≤ m → m < k → imap.bit m = true := by
        have hbyte : ∀ m, 8 * i ≤ m → m < 8 * (i + 1) → imap.bit m = true := by
          intro m hm hm'
          rw [show m = 8 * i + (m - 8 * i) by omega, bit_byte _ _ _ (by omega)]
          exact hall _ (by omega)
        rcases ih (by omega) h with ⟨hr, hset⟩ | ⟨k, hr, hk, hk', hkt, hclear, hset⟩
        · refine Or.inl ⟨hr, fun m hm hm' => ?_⟩
          rcases Nat.lt_or_ge m (8 * (i + 1)) with hlt | hge
          · exact hbyte m hm hlt
          · exact hset m hge (by omega)
        · refine Or.inr ⟨k, hr, by omega, hk', by omega, hclear, fun m hm hm' => ?_⟩
          rcases Nat.lt_or_ge m (8 * (i + 1)) with hlt | hge
          · exact hbyte m hm hlt
          · exact hset m hge hm'
      split at h
      · cases hc : firstClear (imap i) 0 with
        | none =>
            rw [hc] at h
            exact hnext (fun j hj => firstClear_none hc j (Nat.zero_le _) hj) h
        | some j =>
            rw [hc] at h
            obtain ⟨_, hj8, hj, hlow⟩ := firstClear_some hc
            simp only at h
            have htot : ¬ ((i : Int) * 8 + j + 1 > total) := by omega
            rw [if_neg htot] at h
            cases h
            refine Or.inr ⟨8 * i + j, by omega, by omega, by omega, by omega, ?_, ?_⟩
            · rw [bit_byte _ _ _ hj8]
              exact hj
            · intro m hm hm'
              rw [show m = 8 * i + (m - 8 * i) by omega, bit_byte _ _ _ (by omega)]
              exact hlow _ (Nat.zero_le _) (by omega)
      · rename_i hff
        have hff' : imap i = 0xFF#8 := by simpa using hff
        exact hnext (fun j hj => by rw [hff']; exact getLsbD_ff hj) h

/-- `naive_find_free_inode` finds the least clear bit below the total (rounded
down to whole bytes), as inode number bit + 1; it returns 0 when all are set. -/
theorem naiveFindFreeInode_cases {sb : Bytes} {sbi : SbInfo} {r : Int}
    (h : naiveFindFreeInode sb sbi = .ok r) :
    (r = 0 ∧ ∀ k : Nat, (k : Int) < 8 * (toInt32 (SuperBlock.inodeTotal sb)).tdiv 8 →
      sbi.inodeBitmap.bit k = true) ∨
    ∃ k : Nat, r = k + 1 ∧ k < 4096 ∧
      (k : Int) < 8 * (toInt32 (SuperBlock.inodeTotal sb)).tdiv 8 ∧
      sbi.inodeBitmap.bit k = false ∧ ∀ m, m < k → sbi.inodeBitmap.bit m = true := by
  unfold naiveFindFreeInode at h
  simp only at h
  generalize toInt32 (SuperBlock.inodeTotal sb) = total at h ⊢
  have htdiv : (8 * (0 + (total.tdiv 8).toNat : Nat) : Int) ≤ max total 0 := by
    rw [tdiv_eight]
    split <;> omega
  rcases findFreeInodeScan_cases htdiv h with ⟨hr, hset⟩ | ⟨k, hr, _, hk', hkt, hclear, hset⟩
  · exact Or.inl ⟨hr, fun k hk => hset k (by omega) (by omega)⟩
  · exact Or.inr ⟨k, hr, hk', by omega, hclear, fun m hm => hset m (by omega) hm⟩

/-! ## `naive_alloc_block` -/

theorem allocBlockScan_cases {sbi sbi' : SbInfo} {total r : Int} {ds n i : Nat}
    (hds : ds / 8 ≤ i) (hn : 8 * ((i + n : Nat) : Int) ≤ max total (8 * i))
    (h : allocBlockScan sbi total (ds / 8 : Nat) (ds % 8 : Nat) n i = .ok (r, sbi')) :
    (r = -ENOSPC ∧ sbi' = sbi ∧ ∀ k, ds ≤ k → 8 * i ≤ k → k < 8 * (i + n) →
      sbi.blockBitmap.bit k = true) ∨
    ∃ b : Nat, r = b ∧ ds ≤ b ∧ 8 * i ≤ b ∧ b < 4096 ∧ b < 8 * (i + n) ∧
      sbi.blockBitmap.bit b = false ∧
      sbi' = { sbi with blockBitmap := sbi.blockBitmap.setBit b } ∧
      ∀ m, ds ≤ m → 8 * i ≤ m → m < b → sbi.blockBitmap.bit m = true := by
  induction n generalizing i with
  | zero =>
      cases h
      exact .inl ⟨rfl, rfl, fun k _ hk hk' => by omega⟩
  | succ n ih =>
      rw [allocBlockScan] at h
      -- the first usable bit of byte `i`
      have hstart : ∃ start : Nat, start ≤ 8 ∧ (∀ m, ds ≤ m ∧ 8 * i ≤ m ↔ 8 * i + start ≤ m) ∧
          (if (i : Int) = (ds / 8 : Nat) then ((ds % 8 : Nat) : Int) else 0) = start := by
        by_cases hi : i = ds / 8
        · exact ⟨ds % 8, by omega, fun m => by omega, by rw [if_pos (by rw [hi])]⟩
        · exact ⟨0, by omega, fun m => by omega, by rw [if_neg (by omega)]; rfl⟩
      obtain ⟨start, hs8, hfrom, hif⟩ := hstart
      simp only [hif] at h
      split at h
      · cases h
      rename_i hi
      unfold naiveBlockSize at hi
      rw [if_neg (by omega), Int.toNat_natCast, Int.toNat_natCast] at h
      cases hc : firstClear (sbi.blockBitmap i) start with
      | none =>
          simp only [hc] at h
          have hbyte : ∀ m, ds ≤ m → 8 * i ≤ m → m < 8 * (i + 1) →
              sbi.blockBitmap.bit m = true := by
            intro m hm hm' hm8
            have := (hfrom m).mp ⟨hm, hm'⟩
            rw [show m = 8 * i + (m - 8 * i) by omega, bit_byte _ _ _ (by omega)]
            exact firstClear_none hc _ (by omega) (by omega)
          rcases ih (i := i + 1) (by omega) (by omega) h with
            ⟨hr, hsbi, hset⟩ | ⟨b, hr, hb, hb8, hb', hbt, hclear, hsbi, hset⟩
          · refine Or.inl ⟨hr, hsbi, fun m hm hm' hmn => ?_⟩
            rcases Nat.lt_or_ge m (8 * (i + 1)) with hlt | hge
            · exact hbyte m hm hm' hlt
            · exact hset m hm hge (by omega)
          · refine Or.inr ⟨b, hr, hb, by omega, hb', by omega, hclear, hsbi, fun m hm hm' hmb => ?_⟩
            rcases Nat.lt_or_ge m (8 * (i + 1)) with hlt | hge
            · exact hbyte m hm hm' hlt
            · exact hset m hm hge hmb
      | some j =>
          obtain ⟨hsj, hj8, hj, hlow⟩ := firstClear_some hc
          simp only [hc] at h
          rw [if_neg (by omega)] at h
          cases h
          have hfr := (hfrom (8 * i + j)).mpr (by omega)
          refine Or.inr ⟨8 * i + j, by omega, hfr.1, by omega, by omega, by omega, ?_, ?_, ?_⟩
          · rw [bit_byte _ _ _ hj8]
            exact hj
          · rw [show ((i : Int) * 8 + j).toNat = 8 * i + j by omega]
          · intro m hm hm' hmb
            have := (hfrom m).mp ⟨hm, hm'⟩
            rw [show m = 8 * i + (m - 8 * i) by omega, bit_byte _ _ _ (by omega)]
            exact hlow _ (by omega) (by omega)

/-- The whole scan, started at the byte of `ds`. A negative `ds` makes no round, or the first one
faults or ends the scan. -/
private theorem allocBlockScan_from {sbi sbi' : SbInfo} {total ds r : Int}
    (h : allocBlockScan sbi total (ds.tdiv 8) (ds.tmod 8) (total.tdiv 8 - ds.tdiv 8).toNat
      (ds.tdiv 8) = .ok (r, sbi')) :
    (r = -ENOSPC ∧ sbi' = sbi ∧ ∀ k : Nat, ds ≤ k → (k : Int) < 8 * total.tdiv 8 →
      sbi.blockBitmap.bit k = true) ∨
    (ds < 0 ∧ r < 0 ∧ sbi' = sbi) ∨
    ∃ b : Nat, r = b ∧ 0 ≤ ds ∧ ds ≤ b ∧ b < 4096 ∧ (b : Int) < 8 * total.tdiv 8 ∧
      sbi.blockBitmap.bit b = false ∧
      sbi' = { sbi with blockBitmap := sbi.blockBitmap.setBit b } ∧
      ∀ m : Nat, ds ≤ m → m < b → sbi.blockBitmap.bit m = true := by
  rcases Int.lt_or_le ds 0 with hneg | hpos
  · have hdiv : ds.tdiv 8 = -(-ds / 8) := by rw [tdiv_eight, if_neg (by omega)]
    have hmod := tmod_eight ds
    rcases hrounds : (total.tdiv 8 - ds.tdiv 8).toNat with _ | n
    · rw [hrounds] at h
      cases h
      exact Or.inl ⟨rfl, rfl, fun k hk hk' => by omega⟩
    · rw [hrounds, allocBlockScan] at h
      simp only [if_true] at h
      split at h
      · cases h
      · rename_i hlo
        rw [if_pos (by omega)] at h
        cases h
        exact Or.inr (Or.inl ⟨hneg, by omega, rfl⟩)
  · obtain ⟨d, rfl⟩ := Int.eq_ofNat_of_zero_le hpos
    have hdiv := tdiv_eight_natCast d
    rw [hdiv, tmod_eight_natCast] at h
    have htdiv := tdiv_eight total
    have hrounds : 8 * ((d / 8 + (total.tdiv 8 - (d / 8 : Nat)).toNat : Nat) : Int)
        ≤ max total (8 * (d / 8 : Nat)) := by
      split at htdiv <;> omega
    rcases allocBlockScan_cases (Nat.le_refl _) hrounds h with
      ⟨hr, hsbi, hset⟩ | ⟨b, hr, hb, _, hb', hbt, hclear, hsbi, hset⟩
    · exact Or.inl ⟨hr, hsbi, fun k hk hk' => hset k (by omega) (by omega) (by omega)⟩
    · exact Or.inr (Or.inr ⟨b, hr, hpos, by omega, hb', by omega, hclear, hsbi,
        fun m hm hmb => hset m (by omega) (by omega) hmb⟩)

/-- `naive_alloc_block` takes the least clear bit from `data_block_no` on, below
the total rounded down to whole bytes, and sets it; when all of them are set it
returns `-ENOSPC` and changes nothing. A negative `data_block_no` gets a negative
number, and nothing changes. -/
theorem naiveAllocBlock_cases {sb : Bytes} {sbi sbi' : SbInfo} {r : Int}
    (h : naiveAllocBlock sb sbi = .ok (r, sbi')) :
    (r = -ENOSPC ∧ sbi' = sbi ∧ ∀ k : Nat, toInt32 (SuperBlock.dataBlockNo sb) ≤ k →
      (k : Int) < 8 * (toInt32 (SuperBlock.blockTotal sb)).tdiv 8 →
      sbi.blockBitmap.bit k = true) ∨
    (toInt32 (SuperBlock.dataBlockNo sb) < 0 ∧ r < 0 ∧ sbi' = sbi) ∨
    ∃ b : Nat, r = b ∧ 0 ≤ toInt32 (SuperBlock.dataBlockNo sb) ∧
      toInt32 (SuperBlock.dataBlockNo sb) ≤ b ∧ b < 4096 ∧
      (b : Int) < 8 * (toInt32 (SuperBlock.blockTotal sb)).tdiv 8 ∧ sbi.blockBitmap.bit b = false ∧
      sbi' = { sbi with blockBitmap := sbi.blockBitmap.setBit b } ∧
      ∀ m : Nat, toInt32 (SuperBlock.dataBlockNo sb) ≤ m → m < b →
        sbi.blockBitmap.bit m = true :=
  allocBlockScan_from h

/-! ## The same, on the kernel state -/

namespace FS

/-- The superblock's `data_block_no` and `block_total`, as the `int`s the
allocator reads. -/
def dataStart (s : FS) : Int := toInt32 (SuperBlock.dataBlockNo (s.block naiveSuperBlockBlock))
def totalBlocks (s : FS) : Int := toInt32 (SuperBlock.blockTotal (s.block naiveSuperBlockBlock))
def totalInodes (s : FS) : Int := toInt32 (SuperBlock.inodeTotal (s.block naiveSuperBlockBlock))

/-- Block `b` is marked in `sbi->block_bitmap`. -/
def isMarked (s : FS) (b : Int) : Prop := 0 ≤ b ∧ b < 4096 ∧ s.marked b.toNat = true

/-- `b` is the block `naive_alloc_block` takes. -/
structure NextFree (s : FS) (b : Nat) : Prop where
  nonneg : 0 ≤ s.dataStart
  start : s.dataStart ≤ b
  total : (b : Int) < 8 * s.totalBlocks.tdiv 8
  bitmap : b < 4096
  clear : s.marked b = false
  least : ∀ m : Nat, s.dataStart ≤ m → m < b → s.marked m = true

/-- `naive_alloc_block` finds nothing. -/
def Exhausted (s : FS) : Prop :=
  s.dataStart < 0 ∨
    ∀ k : Nat, s.dataStart ≤ k → (k : Int) < 8 * s.totalBlocks.tdiv 8 → s.marked k = true

theorem NextFree.not_exhausted {s : FS} {b : Nat} (h : s.NextFree b) : ¬ s.Exhausted := by
  rintro (hneg | hf)
  · have := h.nonneg
    omega
  · have := hf b h.start h.total
    rw [h.clear] at this
    cases this

theorem isMarked_markBlock {s : FS} {b : Nat} {c : Int} (hb : b < 4096) :
    (s.markBlock b).isMarked c ↔ s.isMarked c ∨ c = b := by
  unfold isMarked markBlock marked
  simp only [bit_setBit, Bool.or_eq_true, decide_eq_true_eq]
  constructor
  · rintro ⟨h0, h1, hc | hc⟩
    · exact .inr (by omega)
    · exact .inl ⟨h0, h1, hc⟩
  · rintro (⟨h0, h1, hc⟩ | rfl)
    · exact ⟨h0, h1, .inr hc⟩
    · exact ⟨by omega, by omega, .inl (by omega)⟩

theorem NextFree.not_isMarked {s : FS} {b : Nat} (h : s.NextFree b) : ¬ s.isMarked b := by
  rintro ⟨_, _, hm⟩
  rw [Int.toNat_natCast, h.clear] at hm
  cases hm

theorem NextFree.isMarked {s : FS} {b : Nat} {c : Int} (h : s.NextFree b) (hc : s.isMarked c) :
    (s.markBlock b).isMarked c :=
  (isMarked_markBlock h.bitmap).mpr (.inl hc)

/-- Marked blocks have different sectors when they are different. -/
theorem isMarked.toU64_ne {s : FS} {b c : Int} (hb : s.isMarked b) (hc : 0 ≤ c ∧ c < 4096)
    (hne : b ≠ c) : toU64 b ≠ toU64 c := by
  obtain ⟨h0, h1, _⟩ := hb
  unfold toU64
  omega

/-- There is at most one next free block. -/
theorem NextFree.unique {s : FS} {b c : Nat} (hb : s.NextFree b) (hc : s.NextFree c) : b = c := by
  rcases Nat.lt_trichotomy b c with hlt | heq | hgt
  · have := hc.least b hb.start hlt
    rw [hb.clear] at this
    cases this
  · exact heq
  · have := hb.least c hc.start hgt
    rw [hc.clear] at this
    cases this

end FS

section Exec

variable {ans : Answers} {s t : FS} {r : Int}

theorem exec_allocBlock_cases (h : allocBlock.exec ans s = .ok (r, t)) :
    (r < 0 ∧ t = s ∧ s.Exhausted) ∨
    ∃ b : Nat, r = b ∧ t = s.markBlock b ∧ s.NextFree b := by
  rw [allocBlock, Prog.exec_step] at h
  cases ha : naiveAllocBlock (s.block naiveSuperBlockBlock) s.sbi with
  | error e =>
      rw [ha] at h
      cases h
  | ok p =>
      obtain ⟨b, sbi⟩ := p
      rw [ha] at h
      cases h
      rcases naiveAllocBlock_cases ha with
        ⟨rfl, rfl, hset⟩ | ⟨hneg, hr, rfl⟩ | ⟨b, rfl, hnonneg, hstart, hb, htotal, hclear, rfl, hleast⟩
      · exact Or.inl ⟨by decide, rfl, .inr hset⟩
      · exact Or.inl ⟨hr, rfl, .inl hneg⟩
      · exact Or.inr ⟨b, rfl, rfl, hnonneg, hstart, htotal, hb, hclear, hleast⟩

theorem exec_findFreeInode_cases (h : findFreeInode.exec ans s = .ok (r, t)) :
    t = s ∧ ((r = 0 ∧ ∀ k : Nat, (k : Int) < 8 * s.totalInodes.tdiv 8 →
        s.sbi.inodeBitmap.bit k = true) ∨
      ∃ ino : Nat, r = ino ∧ 1 ≤ ino ∧ ino ≤ 4096 ∧ (ino : Int) ≤ 8 * s.totalInodes.tdiv 8 ∧
        s.inoMarked ino = false ∧ ∀ m, 1 ≤ m → m < ino → s.inoMarked m = true) := by
  rw [findFreeInode, Prog.exec_step] at h
  cases hf : naiveFindFreeInode (s.block naiveSuperBlockBlock) s.sbi with
  | error e =>
      rw [hf] at h
      cases h
  | ok ino =>
      rw [hf] at h
      cases h
      refine ⟨rfl, ?_⟩
      rcases naiveFindFreeInode_cases hf with ⟨rfl, hset⟩ | ⟨k, rfl, hk, htotal, hclear, hlow⟩
      · exact Or.inl ⟨rfl, hset⟩
      · refine Or.inr ⟨k + 1, by omega, by omega, by omega, ?_, hclear, ?_⟩
        · have : (k : Int) < 8 * s.totalInodes.tdiv 8 := htotal
          omega
        · intro m hm hm'
          exact hlow (m - 1) (by omega)

/-- `naive_free_block` of a block the bitmap covers clears its bit. -/
theorem exec_freeBlock {b : Nat} (hb : b < 4096) (hs : s.sbi.blockBitmapBlocks = 1) :
    (freeBlock b).exec ans s = .ok ((), s.unmarkBlock b) := by
  rw [freeBlock, Prog.exec_step, naiveFreeBlock]
  simp only [tdiv_eight_natCast, tmod_eight_natCast, naiveBlockSize]
  rw [if_pos (by rw [hs]; omega), if_neg (by omega), if_neg (by omega),
    show (((b / 8 : Nat) : Int) * 8 + (b % 8 : Nat)).toNat = b by omega]
  rfl

theorem exec_inodeBitAccess {ino : Nat} {f : Bytes → Nat → Bytes} (h1 : 1 ≤ ino)
    (h2 : ino ≤ 4096) : (inodeBitAccess ino f).exec ans s = .ok ((), { s with
      sbi := { s.sbi with inodeBitmap := f s.sbi.inodeBitmap (ino - 1) } }) := by
  have hsub : (ino : Int) - 1 = (ino - 1 : Nat) := by omega
  rw [inodeBitAccess, Prog.exec_step]
  simp only [hsub, tdiv_eight_natCast, tmod_eight_natCast, naiveBlockSize]
  rw [if_neg (by omega), if_neg (by omega),
    show ((((ino - 1) / 8 : Nat) : Int) * 8 + ((ino - 1) % 8 : Nat)).toNat = ino - 1 by omega]

theorem exec_setInodeBit {ino : Nat} (h1 : 1 ≤ ino) (h2 : ino ≤ 4096) :
    (setInodeBit ino).exec ans s = .ok ((), s.markInode ino) := exec_inodeBitAccess h1 h2

theorem exec_clearInodeBit {ino : Nat} (h1 : 1 ≤ ino) (h2 : ino ≤ 4096) :
    (clearInodeBit ino).exec ans s = .ok ((), s.unmarkInode ino) := exec_inodeBitAccess h1 h2

end Exec

end NaiveFS
