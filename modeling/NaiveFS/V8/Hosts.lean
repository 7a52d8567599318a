import NaiveFS.V8.Sizes

/-!
# The single-file module on hosts of either byte order

The module converts the superblock's fields when it loads them into `sbi`, and converts
them again wherever it uses them. What it stores in an inode's record is converted once.
So the hosts agree on the records they store for the same values, and on the allocators
and the inode table exactly when the fields are their own byte swaps.
-/

namespace NaiveFS.V8

open Bytes

/-! ## Loads and stores -/

section Stores

variable {e : Endian} {m : Bytes} {a v : Nat}

theorem swab32_swab32_mod (v : Nat) : swab32 (swab32 v) = v % 2 ^ 32 := by
  have hmod : swab32 (v % 2 ^ 32) = swab32 v := by
    unfold swab32
    omega
  rw [← hmod, swab32_swab32 (Nat.mod_lt _ (by decide))]

theorem putLE32_mod : m.putLE32 a (v % 2 ^ 32) = m.putLE32 a v := by
  have hbytes : le32 (v % 2 ^ 32) = le32 v := by
    unfold le32
    simp only [List.cons.injEq, and_true]
    refine ⟨?_, ?_, ?_, ?_⟩ <;> apply BitVec.eq_of_toNat_eq <;> simp only [BitVec.toNat_ofNat] <;>
      omega
  rw [putLE32, putLE32, hbytes]

/-- A converted value lands as the same bytes on both hosts, whatever its size. -/
theorem store32_converted : store32 e m a (cpuToLe32 e v) = m.putLE32 a v := by
  cases e with
  | little => rfl
  | big =>
      show m.putLE32 a (swab32 (swab32 v)) = _
      rw [swab32_swab32_mod, putLE32_mod]

theorem initDiskInode_host (e : Endian) : initDiskInode e = initDiskInode .little := by
  funext a nd ino links ts m
  simp only [initDiskInode, store32_converted]

theorem writeDiskInode_host (e : Endian) : writeDiskInode e = writeDiskInode .little := by
  funext a nd m
  simp only [writeDiskInode, store32_converted]

theorem addBlocks_host (e : Endian) : addBlocks e = addBlocks .little := by
  funext nii d m
  simp only [addBlocks, store32_converted, le32ToCpu_load32]

end Stores

/-! ## Code that runs alike

An equation `p e = p .little` between programs: the host does not matter to them. -/

section Programs

variable {e : Endian} {sbi : SbInfo} {nii : NaiveInodeInfo}

theorem fileWriteAttach_host (h : naiveFindFreeBlock e sbi = naiveFindFreeBlock .little sbi)
    (i : Nat) : fileWriteAttach e sbi nii i = fileWriteAttach .little sbi nii i := by
  have hzero : ∀ s : FS, load32 e s.mem (nii.iBlock i) ≠ 0 ↔
      load32 .little s.mem (nii.iBlock i) ≠ 0 := by
    intro s
    rw [ne_eq, ne_eq, load32_eq_zero_iff, load32_eq_zero_iff]
  unfold fileWriteAttach
  apply congrArg Prog.get
  funext s
  show (if load32 e s.mem (nii.iBlock i) ≠ 0 then _ else _) =
    (if load32 .little s.mem (nii.iBlock i) ≠ 0 then _ else _)
  simp only [hzero s, store32_converted, addBlocks_host e, h]

theorem fileWriteDetach_host (e : Endian) (i : Nat) :
    fileWriteDetach e sbi nii i = fileWriteDetach .little sbi nii i := by
  simp only [fileWriteDetach, le32ToCpu_load32, store32_zero, addBlocks_host e]

theorem fileWriteCopy_host (e : Endian) (id i p pos : Nat) (data : List Byte) (size : Nat) :
    fileWriteCopy e id nii i p pos data size = fileWriteCopy .little id nii i p pos data size := by
  simp only [fileWriteCopy, store32_converted]

theorem fileWriteRound_host (h : naiveFindFreeBlock e sbi = naiveFindFreeBlock .little sbi)
    (id pos : Nat) (data : List Byte) (size : Nat) (written : Int) :
    fileWriteRound e sbi id nii pos data size written
      = fileWriteRound .little sbi id nii pos data size written := by
  simp only [fileWriteRound, fileWriteAttach_host h, le32ToCpu_load32, fileWriteDetach_host e,
    fileWriteCopy_host e]

theorem fileWriteLoop_host (h : naiveFindFreeBlock e sbi = naiveFindFreeBlock .little sbi)
    (id fuel pos : Nat) (data : List Byte) (size : Nat) (written : Int) :
    fileWriteLoop e sbi id nii fuel pos data size written
      = fileWriteLoop .little sbi id nii fuel pos data size written := by
  induction fuel generalizing pos data size written with
  | zero => rfl
  | succ fuel ih => simp only [fileWriteLoop, fileWriteRound_host h, ih]

theorem createOnDisk_host (e : Endian) : createOnDisk e = createOnDisk .little := by
  funext sbi dir name mode ino id ts b
  simp only [createOnDisk, initDiskInode_host e]

theorem createInode_host (h : ∀ ino, sbi.tableBlock e ino = sbi.tableBlock .little ino) :
    createInode e sbi = createInode .little sbi := by
  funext dir name mode ino id
  simp only [createInode, createOnDisk_host e, h]

theorem naiveWriteInode_host (e : Endian) : naiveWriteInode e = naiveWriteInode .little := by
  funext id
  simp only [naiveWriteInode, writeDiskInode_host e]

variable {ans : Answers} {s : FS}

theorem naiveFileWrite_host (hs : s.sFsInfo = .live sbi)
    (h : naiveFindFreeBlock e sbi = naiveFindFreeBlock .little sbi) (id : Nat)
    (data : List Byte) (pos : Nat) : (naiveFileWrite e id data pos).exec ans s
      = (naiveFileWrite .little id data pos).exec ans s := by
  unfold naiveFileWrite
  apply Prog.exec_bind_congr rfl
  intro nii t hnii
  obtain ⟨-, rfl⟩ := exec_naiveI_ok hnii
  rw [Prog.exec_bind_of (exec_naiveSb hs), Prog.exec_bind_of (exec_naiveSb hs)]
  simp only [le32ToCpu_load32, fileWriteLoop_host h]

theorem naiveCreate_host (hs : s.sFsInfo = .live sbi)
    (h : naiveFindFreeInode e sbi = naiveFindFreeInode .little sbi)
    (htable : ∀ ino, sbi.tableBlock e ino = sbi.tableBlock .little ino) (dir : Nat) (name : Name)
    (mode : Nat) : (naiveCreate e dir name mode).exec ans s
      = (naiveCreate .little dir name mode).exec ans s := by
  simp only [naiveCreate, Prog.exec_bind_of (exec_naiveSb hs), h, createInode_host htable]

end Programs

/-! ## Mount

Until the root's block is looked up, the mount converts every field once. -/

section Mount

variable {e : Endian} {sbi : SbInfo} {image : Bytes} {ans : Answers} {s : FS}

theorem fillSuperOnDisk_host (e : Endian) : fillSuperOnDisk e = fillSuperOnDisk .little := by
  funext id ts b
  simp only [fillSuperOnDisk, initDiskInode_host e]

theorem fillSuperRoot_host (sbi : SbInfo) (hs : s.sFsInfo = .live sbi)
    (h : sbi.rootBlock e = sbi.rootBlock .little) :
    (fillSuperRoot e s.nextInode).exec ans (s.withNew { iNlink := 1 })
      = (fillSuperRoot .little s.nextInode).exec ans (s.withNew { iNlink := 1 }) := by
  have hrun : ∃ u, ∀ e, (fillSuperRoot e s.nextInode).exec ans (s.withNew { iNlink := 1 }) =
      (fillSuperOnDisk e s.nextInode (ans .ktime) (sbi.rootBlock e)).exec ans u := by
    apply Exists.intro
    intro e
    rw [fillSuperRoot, Prog.exec_bind_of (exec_updInode FS.inodes_withNew_self),
      FS.setInode_withNew, Prog.exec_bind_of (exec_inodeInitOwner FS.inodes_withNew_self),
      FS.setInode_withNew, Prog.exec_bind_of exec_ktime,
      Prog.exec_bind_of (exec_updInode FS.inodes_withNew_self), FS.setInode_withNew,
      Prog.exec_bind_of (exec_updInode FS.inodes_withNew_self), FS.setInode_withNew,
      Prog.exec_bind_of (exec_naiveSb (s := s.withNew _) hs)]
  obtain ⟨u, hrun⟩ := hrun
  rw [hrun e, hrun .little, fillSuperOnDisk_host e, h]

/-- `sbi` when all three buffers are there. -/
def SbInfo.withBuffers : SbInfo where
  sbBh := 1
  blockBitmapBh := 2
  inodeBitmapBh := 3
  blockBitmap := 1024
  inodeBitmap := 1536

theorem fillSuperInfo_host (hs : s.sFsInfo = .live .withBuffers) (hm : s.mem = image)
    (h : (SbInfo.ofImage image).rootBlock e = (SbInfo.ofImage image).rootBlock .little) :
    (fillSuperInfo e).exec ans s = (fillSuperInfo .little).exec ans s := by
  unfold fillSuperInfo
  simp only [le32ToCpu_load32]
  rw [Prog.exec_read_bind, Prog.exec_read_bind, Prog.exec_bind_of (exec_updSbi hs),
    Prog.exec_bind_of (exec_updSbi hs), Prog.exec_bind_of (exec_naiveSb rfl),
    Prog.exec_bind_of (exec_naiveSb rfl), hm]
  apply Prog.exec_bind_congr rfl
  intro _ u hbit
  obtain ⟨m, -, rfl⟩ := exec_tryMem_ok hbit
  rw [Prog.exec_bind_of exec_markBufferDirty, Prog.exec_bind_of exec_markBufferDirty]
  cases h5 : ans .newInode with
  | false =>
      rw [Prog.exec_bind_of (exec_newInode_fail h5), Prog.exec_bind_of (exec_newInode_fail h5)]
  | true =>
      rw [Prog.exec_bind_of (exec_newInode_ok h5), Prog.exec_bind_of (exec_newInode_ok h5)]
      exact fillSuperRoot_host (.ofImage image) rfl h

theorem fillSuperBitmaps_host (hs : s.sFsInfo = .live { sbBh := 1 }) (hm : s.mem = image)
    (h : (SbInfo.ofImage image).rootBlock e = (SbInfo.ofImage image).rootBlock .little) :
    (fillSuperBitmaps e).exec ans s = (fillSuperBitmaps .little).exec ans s := by
  unfold fillSuperBitmaps
  cases h1 : ans (.sbBread .fillSuperBlockBitmap naiveBlockBitmapBlock) with
  | false =>
      rw [Prog.exec_bind_of (exec_sbBread_fail h1), Prog.exec_bind_of (exec_sbBread_fail h1),
        Bool.not_false, if_pos rfl, if_pos rfl]
  | true =>
  have hs1 : (s.addRef naiveBlockBitmapBlock 1).sFsInfo = .live { sbBh := 1 } := hs
  rw [Prog.exec_bind_of (exec_sbBread_ok h1), Prog.exec_bind_of (exec_sbBread_ok h1),
    Bool.not_true, if_neg Bool.false_ne_true, if_neg Bool.false_ne_true,
    Prog.exec_bind_of (exec_updSbi hs1), Prog.exec_bind_of (exec_updSbi hs1)]
  cases h2 : ans (.sbBread .fillSuperInodeBitmap naiveInodeBitmapBlock) with
  | false =>
      rw [Prog.exec_bind_of (exec_sbBread_fail h2), Prog.exec_bind_of (exec_sbBread_fail h2),
        Bool.not_false, if_pos rfl, if_pos rfl]
  | true =>
  rw [Prog.exec_bind_of (exec_sbBread_ok h2), Prog.exec_bind_of (exec_sbBread_ok h2),
    Bool.not_true, if_neg Bool.false_ne_true, if_neg Bool.false_ne_true,
    Prog.exec_bind_of (exec_updSbi rfl), Prog.exec_bind_of (exec_updSbi rfl)]
  exact fillSuperInfo_host rfl hm h

theorem naiveFillSuper_host
    (h : (SbInfo.ofImage image).rootBlock e = (SbInfo.ofImage image).rootBlock .little) :
    (naiveFillSuper e).exec ans { mem := image }
      = (naiveFillSuper .little).exec ans { mem := image } := by
  unfold naiveFillSuper
  rw [Prog.exec_ask_bind, Prog.exec_ask_bind]
  cases (ans (.kmalloc .sbInfo) : Bool) with
  | false => rw [Bool.not_false, if_pos rfl, if_pos rfl]
  | true =>
  rw [Bool.not_true, if_neg Bool.false_ne_true, if_neg Bool.false_ne_true, Prog.exec_modify_bind,
    Prog.exec_modify_bind]
  cases h2 : ans (.sbBread .fillSuper naiveSuperBlockBlock) with
  | false =>
      rw [Prog.exec_bind_of (exec_sbBread_fail h2), Prog.exec_bind_of (exec_sbBread_fail h2),
        Bool.not_false, if_pos rfl, if_pos rfl]
  | true =>
  rw [Prog.exec_bind_of (exec_sbBread_ok h2), Prog.exec_bind_of (exec_sbBread_ok h2),
    Bool.not_true, if_neg Bool.false_ne_true, if_neg Bool.false_ne_true,
    Prog.exec_bind_of (exec_updSbi rfl), Prog.exec_bind_of (exec_updSbi rfl), Prog.exec_read_bind,
    Prog.exec_read_bind, le32ToCpu_load32, le32ToCpu_load32, Prog.exec_ite, Prog.exec_ite]
  split
  · rfl
  · exact fillSuperBitmaps_host rfl rfl h

end Mount

/-! ## The scan of a bitmap

A position may be negative; `8 * bitmap + i` is the bit of memory it stands for. -/

section Scan

variable {bitmap n n' f : Nat} {i i' : Int} {m : Bytes} {o : Option Int}

theorem naiveTestBit_flat (h : 8 * (bitmap : Int) + i = f) :
    naiveTestBit i bitmap m = .ok (m.bit f) := by
  have hp : ¬ (bitmap : Int) + i / 8 < 0 := by omega
  have hbit : 8 * ((bitmap : Int) + i / 8).toNat + (i % 8).toNat = f := by omega
  simp only [naiveTestBit, bitByte, if_neg hp, bind, Except.bind, pure, Except.pure, hbit]

theorem naiveSetBit_flat (h : 8 * (bitmap : Int) + i = f) :
    naiveSetBit i bitmap m = .ok (m.setBit f) := by
  have hp : ¬ (bitmap : Int) + i / 8 < 0 := by omega
  have hbit : 8 * ((bitmap : Int) + i / 8).toNat + (i % 8).toNat = f := by omega
  simp only [naiveSetBit, bitByte, if_neg hp, bind, Except.bind, pure, Except.pure, hbit]

/-- One round of the scan. -/
theorem findClear_round (h : 8 * (bitmap : Int) + i = f) (hi : i < 2 ^ 31) :
    findClear bitmap m (n + 1) i
      = if m.bit f = true then findClear bitmap m n (i + 1) else .ok (some i) := by
  rw [findClear, if_neg (by omega), naiveTestBit_flat h]
  cases hbit : m.bit f with
  | false =>
      simp only [bind, Except.bind, Bool.not_false, if_true]
      rfl
  | true =>
      simp only [bind, Except.bind, Bool.not_true, if_true]
      rfl

/-- All bits are set. -/
theorem findClear_full (h : 8 * (bitmap : Int) + i = f) (hi : i + n ≤ 2 ^ 31)
    (hset : ∀ j, f ≤ j → j < f + n → m.bit j = true) : findClear bitmap m n i = .ok none := by
  induction n generalizing i f with
  | zero => rfl
  | succ n ih =>
      rw [findClear_round h (by omega), if_pos (hset f (by omega) (by omega))]
      exact ih (f := f + 1) (by omega) (by omega) fun j hj hj' => hset j (by omega) (by omega)

/-- The first `k` bits are set and the next is not. -/
theorem findClear_after {k : Nat} (h : 8 * (bitmap : Int) + i = f) (hk : k < n)
    (hi : i + k < 2 ^ 31) (hset : ∀ j, f ≤ j → j < f + k → m.bit j = true)
    (hclear : m.bit (f + k) = false) : findClear bitmap m n i = .ok (some (i + k)) := by
  induction k generalizing n i f with
  | zero =>
      obtain ⟨n, rfl⟩ : ∃ l, n = l + 1 := ⟨n - 1, by omega⟩
      have hbit : m.bit f = false := hclear
      simp [findClear_round h (by omega), hbit]
  | succ k ih =>
      obtain ⟨n, rfl⟩ : ∃ l, n = l + 1 := ⟨n - 1, by omega⟩
      rw [findClear_round h (by omega), if_pos (hset f (by omega) (by omega)),
        ih (n := n) (f := f + 1) (by omega) (by omega) (by omega)
          (fun j hj hj' => hset j (by omega) (by omega)) (by rw [← hclear]; congr 1; omega)]
      congr 2
      omega

/-- With every bit set, a scan of more positions than an `int` has overflows. -/
theorem findClear_past (h : 8 * (bitmap : Int) + i = f) (hi : i ≤ 2 ^ 31) (hn : 2 ^ 31 < i + n)
    (hset : ∀ j, f ≤ j → j < f + n → m.bit j = true) :
    findClear bitmap m n i = .error .overflow := by
  induction n generalizing i f with
  | zero => omega
  | succ n ih =>
      by_cases hlast : i = 2 ^ 31
      · rw [findClear, if_pos (by omega)]
        rfl
      · rw [findClear_round h (by omega), if_pos (hset f (by omega) (by omega))]
        exact ih (f := f + 1) (by omega) (by omega) (by omega)
          fun j hj hj' => hset j (by omega) (by omega)

/-- A scan inside memory and inside `int` returns. -/
theorem findClear_returns (h : 8 * (bitmap : Int) + i = f) (hi : i + n ≤ 2 ^ 31) (m : Bytes) :
    findClear bitmap m n i = .ok none ∨ ∃ k : Nat, findClear bitmap m n i = .ok (some (i + k)) := by
  induction n generalizing i f with
  | zero => exact .inl rfl
  | succ n ih =>
      rw [findClear_round h (by omega)]
      split
      · obtain hnone | ⟨k, hk⟩ := ih (i := i + 1) (f := f + 1) (by omega) (by omega)
        · exact .inl hnone
        · refine .inr ⟨k + 1, ?_⟩
          rw [hk]
          congr 2
          omega
      · exact .inr ⟨0, by simp⟩

/-- Zero memory: the scan takes its first position, if it has one. -/
theorem findClear_zeros (h : findClear bitmap zeros (n + 1) i = .ok o) :
    o = some i ∧ 0 ≤ 8 * (bitmap : Int) + i ∧ i < 2 ^ 31 := by
  have hi : i < 2 ^ 31 := by
    by_contra hi
    rw [findClear, if_pos (by omega)] at h
    cases h
  have hpos : 0 ≤ 8 * (bitmap : Int) + i := by
    by_contra hpos
    have hp : (bitmap : Int) + i / 8 < 0 := by omega
    rw [findClear, if_neg (by omega)] at h
    simp only [naiveTestBit, bitByte, if_pos hp, bind, Except.bind] at h
    cases h
  refine ⟨?_, hpos, hi⟩
  rw [findClear_round (f := (8 * (bitmap : Int) + i).toNat) (by omega) hi] at h
  have hbit : zeros.bit (8 * (bitmap : Int) + i).toNat = false := by
    simp [Bytes.bit, zeros]
  rw [hbit, if_neg Bool.false_ne_true] at h
  cases h
  rfl

/-- Memory with the `n` bits from `f` on set. -/
def marks (f : Nat) : Nat → Bytes
  | 0 => zeros
  | n + 1 => (marks f n).setBit (f + n)

theorem bit_marks (f n j : Nat) : (marks f n).bit j = decide (f ≤ j ∧ j < f + n) := by
  induction n with
  | zero => simp [marks, Bytes.bit, zeros]
  | succ n ih =>
      rw [marks, bit_setBit, ih, ← Bool.decide_or, decide_eq_decide]
      omega

/-- Whatever memory holds, the two scans return, and return the same. -/
def ScanAlike (bitmap n : Nat) (i : Int) (n' : Nat) (i' : Int) : Prop :=
  ∀ m, ∃ o, findClear bitmap m n i = .ok o ∧ findClear bitmap m n' i' = .ok o

theorem ScanAlike.symm (h : ScanAlike bitmap n i n' i') : ScanAlike bitmap n' i' n i := by
  intro m
  obtain ⟨o, ho, ho'⟩ := h m
  exact ⟨o, ho', ho⟩

/-- The scan stays inside memory and inside `int`. -/
theorem ScanAlike.fits (h : ScanAlike bitmap n i n' i') (hn : 0 < n) :
    0 ≤ 8 * (bitmap : Int) + i ∧ i + n ≤ 2 ^ 31 := by
  obtain ⟨l, rfl⟩ : ∃ l, n = l + 1 := ⟨n - 1, by omega⟩
  obtain ⟨_, ho, -⟩ := h zeros
  obtain ⟨-, hpos, hi⟩ := findClear_zeros ho
  refine ⟨hpos, ?_⟩
  by_contra hpast
  obtain ⟨_, ho, -⟩ := h (marks (8 * (bitmap : Int) + i).toNat (l + 1))
  rw [findClear_past (f := (8 * (bitmap : Int) + i).toNat) (by omega) (by omega) (by omega)
    (fun j hj hj' => by rw [bit_marks, decide_eq_true ⟨hj, hj'⟩])] at ho
  cases ho

/-- The shorter scan from one position does not see the bit the longer takes. -/
theorem ScanAlike.not_lt (h : ScanAlike bitmap n i n' i) (hn : 0 < n) : ¬ n < n' := by
  intro hlt
  obtain ⟨hpos, hi⟩ := h.fits hn
  obtain ⟨-, hi'⟩ := h.symm.fits (by omega)
  have hf : 8 * (bitmap : Int) + i = ((8 * (bitmap : Int) + i).toNat : Nat) := by omega
  obtain ⟨o, ho, ho'⟩ := h (marks (8 * (bitmap : Int) + i).toNat n)
  rw [findClear_full hf hi (fun j hj hj' => by rw [bit_marks, decide_eq_true ⟨hj, hj'⟩])] at ho
  rw [findClear_after hf hlt (by omega)
    (fun j hj hj' => by rw [bit_marks, decide_eq_true ⟨hj, hj'⟩])
    (by rw [bit_marks, decide_eq_false (by omega)])] at ho'
  cases ho
  cases ho'

/-- Two scans agree on every memory when they are empty, or the same and defined. -/
theorem scanAlike_iff : ScanAlike bitmap n i n' i' ↔
    n = 0 ∧ n' = 0 ∨ n = n' ∧ i = i' ∧ 0 ≤ 8 * (bitmap : Int) + i ∧ i + n ≤ 2 ^ 31 := by
  constructor
  · intro h
    obtain ⟨o, ho, ho'⟩ := h zeros
    cases n with
    | zero =>
        cases n' with
        | zero => exact .inl ⟨rfl, rfl⟩
        | succ n' =>
            cases ho
            cases (findClear_zeros ho').1
    | succ n =>
        cases n' with
        | zero =>
            cases ho'
            cases (findClear_zeros ho).1
        | succ n' =>
            obtain ⟨rfl, hpos, -⟩ := findClear_zeros ho
            cases (findClear_zeros ho').1
            have h1 := h.not_lt (by omega)
            have h2 := h.symm.not_lt (by omega)
            exact .inr ⟨by omega, rfl, hpos, (h.fits (by omega)).2⟩
  · rintro (⟨rfl, rfl⟩ | ⟨rfl, rfl, hpos, hi⟩) m
    · exact ⟨none, rfl, rfl⟩
    · have hf : 8 * (bitmap : Int) + i = ((8 * (bitmap : Int) + i).toNat : Nat) := by omega
      obtain hnone | ⟨k, hk⟩ := findClear_returns hf hi m
      · exact ⟨none, hnone, hnone⟩
      · exact ⟨_, hk, hk⟩

/-- The position found is clear. -/
theorem findClear_found {k : Int} (h : findClear bitmap m n i = .ok (some k)) :
    ∃ f : Nat, 8 * (bitmap : Int) + k = f ∧ m.bit f = false := by
  induction n generalizing i with
  | zero => cases h
  | succ n ih =>
      rw [findClear] at h
      split at h
      · cases h
      · rename_i hi
        by_cases hneg : (bitmap : Int) + i / 8 < 0
        · simp only [naiveTestBit, bitByte, if_pos hneg, bind, Except.bind] at h
          cases h
        · have hf : 8 * (bitmap : Int) + i = ((8 * (bitmap : Int) + i).toNat : Nat) := by omega
          rw [naiveTestBit_flat hf] at h
          cases hbit : m.bit (8 * (bitmap : Int) + i).toNat with
          | false =>
              rw [hbit] at h
              cases h
              exact ⟨_, hf, hbit⟩
          | true =>
              rw [hbit] at h
              exact ih h

variable {bh : Nat} {ans : Answers} {s t : FS} {k : Int}

theorem takeClear_returns (hf : 8 * (bitmap : Int) + i = f) (hi : i + n ≤ 2 ^ 31) :
    ∃ k t, (takeClear bitmap bh n i).exec ans s = .ok (k, t) := by
  rw [takeClear, Prog.exec_step]
  obtain hnone | ⟨k, hk⟩ := findClear_returns hf hi s.mem
  · exact ⟨-1, s, by rw [hnone]; rfl⟩
  · obtain ⟨g, hg, -⟩ := findClear_found hk
    refine ⟨i + k, (s.setMem (s.mem.setBit g)).markDirty bh, ?_⟩
    rw [hk]
    simp only [bind, Except.bind, naiveSetBit_flat hg, pure, Except.pure]

/-- What an allocator's call tells about its scan. -/
theorem takeClear_found (h : (takeClear bitmap bh n i).exec ans s = .ok (k, t)) :
    findClear bitmap s.mem n i = .ok none ∧ t.mem = s.mem ∨
    findClear bitmap s.mem n i = .ok (some k) ∧ t.mem ≠ s.mem := by
  rw [takeClear, Prog.exec_step] at h
  cases hfind : findClear bitmap s.mem n i with
  | error x =>
      rw [hfind] at h
      cases h
  | ok o =>
      rw [hfind] at h
      cases o with
      | none =>
          cases h
          exact .inl ⟨rfl, rfl⟩
      | some a =>
          obtain ⟨g, hg, hclear⟩ := findClear_found hfind
          simp only [bind, Except.bind, naiveSetBit_flat hg, pure, Except.pure, Except.ok.injEq,
            Prod.mk.injEq] at h
          obtain ⟨rfl, rfl⟩ := h
          exact .inr ⟨rfl, setBit_ne hclear⟩

/-- Two calls that return the same have scanned alike. -/
theorem scan_of_takeClear (h : (takeClear bitmap bh n i).exec ans s = .ok (k, t))
    (h' : (takeClear bitmap bh n' i').exec ans s = .ok (k, t)) :
    ∃ o, findClear bitmap s.mem n i = .ok o ∧ findClear bitmap s.mem n' i' = .ok o := by
  obtain ⟨hfind, hmem⟩ | ⟨hfind, hmem⟩ := takeClear_found h
  · obtain ⟨hfind', -⟩ | ⟨-, hmem'⟩ := takeClear_found h'
    · exact ⟨none, hfind, hfind'⟩
    · exact absurd hmem hmem'
  · obtain ⟨-, hmem'⟩ | ⟨hfind', -⟩ := takeClear_found h'
    · exact absurd hmem' hmem
    · exact ⟨some k, hfind, hfind'⟩

/-- Empty scans are the same code wherever they start. -/
theorem takeClear_empty : takeClear bitmap bh 0 i = takeClear bitmap bh 0 i' := rfl

end Scan

/-! ## When the hosts agree -/

section Agree

/-- The word is its own byte swap. -/
def OwnSwap (v : Nat) : Prop := swab32 v = v

instance (v : Nat) : Decidable (OwnSwap v) := inferInstanceAs (Decidable (swab32 v = v))

/-- Both calls return the same, and leave the same state. A scan that leaves memory returns nothing,
so two that do are not alike. -/
def SameReturn (p q : K Int) (sbi : SbInfo) : Prop :=
  ∀ ans s, s.sFsInfo = .live sbi → ∃ k t, p.exec ans s = .ok (k, t) ∧ q.exec ans s = .ok (k, t)

/-- Code for the two hosts runs alike on a device mounted with `sbi`. -/
def SameRun {α : Type} (p q : K α) (sbi : SbInfo) : Prop :=
  ∀ ans s, s.sFsInfo = .live sbi → p.exec ans s = q.exec ans s

/-- The module works alike on hosts of either byte order, on a device that holds `image`
and whatever memory holds once it is mounted. -/
structure HostsAgree (image : Bytes) : Prop where
  mount : ∀ ans, (naiveFillSuper .big).exec ans { mem := image }
    = (naiveFillSuper .little).exec ans { mem := image }
  rootBlock : (SbInfo.ofImage image).rootBlock .big = (SbInfo.ofImage image).rootBlock .little
  tableBlock : ∀ ino, (SbInfo.ofImage image).tableBlock .big ino
    = (SbInfo.ofImage image).tableBlock .little ino
  findFreeBlock : SameReturn (naiveFindFreeBlock .big (.ofImage image))
    (naiveFindFreeBlock .little (.ofImage image)) (.ofImage image)
  findFreeInode : SameReturn (naiveFindFreeInode .big (.ofImage image))
    (naiveFindFreeInode .little (.ofImage image)) (.ofImage image)
  create : ∀ dir name mode, SameRun (naiveCreate .big dir name mode)
    (naiveCreate .little dir name mode) (.ofImage image)
  fileWrite : ∀ id data pos, SameRun (naiveFileWrite .big id data pos)
    (naiveFileWrite .little id data pos) (.ofImage image)
  writeInode : ∀ id, SameRun (naiveWriteInode .big id) (naiveWriteInode .little id)
    (.ofImage image)

/-- `naive_find_free_block` has no position to look at. -/
def SbInfo.NoBlocks (e : Endian) (sbi : SbInfo) : Prop := sbi.dataEnd e ≤ sbi.dataStart e

/-- The second conversion of the superblock's fields changes nothing that matters, and the
scans stay inside `int` and inside memory. -/
structure SbInfo.OrderFree (sbi : SbInfo) : Prop where
  inodes : OwnSwap sbi.inodesCount ∧ sbi.inodesCount < 2 ^ 31
  table : OwnSwap sbi.inodeTableStart
  blocks : sbi.NoBlocks .little ∧ sbi.NoBlocks .big ∨
    OwnSwap sbi.blocksCount ∧ OwnSwap sbi.dataBlocksStart ∧
      0 ≤ 8 * (sbi.blockBitmap : Int) + sbi.dataStart .little

variable {image : Bytes} {sbi : SbInfo} {v w : Nat}

theorem swab32_lt (v : Nat) : swab32 v < 2 ^ 32 := by
  unfold swab32
  omega

theorem toInt32_inj (hv : v < 2 ^ 32) (hw : w < 2 ^ 32) (h : toInt32 v = toInt32 w) : v = w := by
  unfold toInt32 at h
  omega

theorem naiveFindFreeBlock_eq (e : Endian) (sbi : SbInfo) : naiveFindFreeBlock e sbi =
    takeClear sbi.blockBitmap sbi.blockBitmapBh (sbi.dataEnd e - sbi.dataStart e).toNat
      (sbi.dataStart e) := rfl

/-- The hosts run the same allocator of blocks. -/
theorem SbInfo.OrderFree.findFreeBlock (h : sbi.OrderFree) :
    naiveFindFreeBlock .big sbi = naiveFindFreeBlock .little sbi := by
  rw [naiveFindFreeBlock_eq, naiveFindFreeBlock_eq]
  obtain ⟨hlittle, hbig⟩ | ⟨hcount, hstart, -⟩ := h.blocks
  · have hn : (sbi.dataEnd .little - sbi.dataStart .little).toNat = 0 := by
      unfold NoBlocks at hlittle
      omega
    have hn' : (sbi.dataEnd .big - sbi.dataStart .big).toNat = 0 := by
      unfold NoBlocks at hbig
      omega
    rw [hn, hn', takeClear_empty]
  · have hend : sbi.dataEnd .big = sbi.dataEnd .little := by
      show toInt32 (swab32 sbi.blocksCount) = toInt32 sbi.blocksCount
      rw [hcount]
    have hst : sbi.dataStart .big = sbi.dataStart .little := by
      show toInt32 (swab32 sbi.dataBlocksStart) = toInt32 sbi.dataBlocksStart
      rw [hstart]
    rw [hend, hst]

theorem SbInfo.OrderFree.findFreeInode (h : sbi.OrderFree) :
    naiveFindFreeInode .big sbi = naiveFindFreeInode .little sbi := by
  show takeClear _ _ (swab32 sbi.inodesCount) 0 = takeClear _ _ sbi.inodesCount 0
  rw [h.inodes.1]

theorem SbInfo.OrderFree.tableBlock (h : sbi.OrderFree) (ino : Int) :
    sbi.tableBlock .big ino = sbi.tableBlock .little ino := by
  show toU64 (toInt32 ((swab32 sbi.inodeTableStart : Nat) + ino)) = _
  rw [h.table]
  rfl

theorem SbInfo.OrderFree.rootBlock (h : sbi.OrderFree) :
    sbi.rootBlock .big = sbi.rootBlock .little := by
  show toU32 (((swab32 sbi.inodeTableStart : Nat) : Int) + naiveRootIno - 1) = _
  rw [h.table]
  rfl

/-- The allocator of blocks returns, on the little-endian host. -/
theorem SbInfo.OrderFree.block_returns (h : sbi.OrderFree) (ans : Answers) (s : FS) :
    ∃ k t, (naiveFindFreeBlock .little sbi).exec ans s = .ok (k, t) := by
  rw [naiveFindFreeBlock_eq]
  have hend := toInt32_lt sbi.blocksCount
  by_cases hno : sbi.NoBlocks .little
  · refine ⟨-1, s, ?_⟩
    have hn : (sbi.dataEnd .little - sbi.dataStart .little).toNat = 0 := by
      unfold NoBlocks at hno
      omega
    rw [hn]
    rfl
  · obtain ⟨hlittle, -⟩ | ⟨-, -, hpos⟩ := h.blocks
    · exact absurd hlittle hno
    · have hf : 8 * (sbi.blockBitmap : Int) + sbi.dataStart .little
          = ((8 * (sbi.blockBitmap : Int) + sbi.dataStart .little).toNat : Nat) := by omega
      apply takeClear_returns hf
      have hlt : sbi.dataEnd .little < 2 ^ 31 := hend
      unfold NoBlocks at hno
      omega

theorem SbInfo.OrderFree.inode_returns (h : sbi.OrderFree) (ans : Answers) (s : FS) :
    ∃ k t, (naiveFindFreeInode .little sbi).exec ans s = .ok (k, t) := by
  apply takeClear_returns (f := 8 * sbi.inodeBitmap) (by omega)
  have hlt := h.inodes.2
  show (0 : Int) + sbi.inodesCount ≤ 2 ^ 31
  omega

theorem SbInfo.OrderFree.hostsAgree (h : (SbInfo.ofImage image).OrderFree) :
    HostsAgree image where
  mount _ := naiveFillSuper_host h.rootBlock
  rootBlock := h.rootBlock
  tableBlock := h.tableBlock
  findFreeBlock := by
    intro ans s _
    rw [h.findFreeBlock]
    obtain ⟨k, t, hk⟩ := h.block_returns ans s
    exact ⟨k, t, hk, hk⟩
  findFreeInode := by
    intro ans s _
    rw [h.findFreeInode]
    obtain ⟨k, t, hk⟩ := h.inode_returns ans s
    exact ⟨k, t, hk, hk⟩
  create _ _ _ _ _ hs := naiveCreate_host hs h.findFreeInode h.tableBlock _ _ _
  fileWrite _ _ _ _ _ hs := naiveFileWrite_host hs h.findFreeBlock _ _ _
  writeInode _ _ _ _ := by rw [naiveWriteInode_host]

/-- Allocators that agree on every memory have scanned alike. -/
theorem SameReturn.scan {bitmap bh n n' : Nat} {i i' : Int}
    (h : SameReturn (takeClear bitmap bh n i) (takeClear bitmap bh n' i') sbi) :
    ScanAlike bitmap n i n' i' := by
  intro m
  obtain ⟨k, t, hk, hk'⟩ := h (Answers.good default 0 0) { mem := m, sFsInfo := .live sbi } rfl
  exact scan_of_takeClear hk hk'

theorem HostsAgree.inodes (h : HostsAgree image) :
    OwnSwap (SbInfo.ofImage image).inodesCount ∧ (SbInfo.ofImage image).inodesCount < 2 ^ 31 := by
  have hlt : (SbInfo.ofImage image).inodesCount < 2 ^ 32 := getLE32_lt image _
  have hscan : ScanAlike _ (swab32 (SbInfo.ofImage image).inodesCount) 0
      (SbInfo.ofImage image).inodesCount 0 := h.findFreeInode.scan
  obtain ⟨hswap, hzero⟩ | ⟨hswap, -, -, hle⟩ := scanAlike_iff.mp hscan
  · exact ⟨hswap.trans hzero.symm, by omega⟩
  · refine ⟨hswap, ?_⟩
    have hne : (SbInfo.ofImage image).inodesCount ≠ 2 ^ 31 := by
      intro heq
      rw [heq] at hswap
      cases hswap
    rw [hswap] at hle
    omega

theorem HostsAgree.table (h : HostsAgree image) :
    OwnSwap (SbInfo.ofImage image).inodeTableStart := by
  have hlt : (SbInfo.ofImage image).inodeTableStart < 2 ^ 32 := getLE32_lt image _
  have hlt' := swab32_lt (SbInfo.ofImage image).inodeTableStart
  have hroot : toU32 (((swab32 (SbInfo.ofImage image).inodeTableStart : Nat) : Int) + 1 - 1)
      = toU32 (((SbInfo.ofImage image).inodeTableStart : Int) + 1 - 1) := h.rootBlock
  rw [Int.add_sub_cancel, Int.add_sub_cancel, toU32_natCast hlt, toU32_natCast hlt'] at hroot
  exact hroot

theorem SameReturn.blocks (hcount : sbi.blocksCount < 2 ^ 32)
    (hstart : sbi.dataBlocksStart < 2 ^ 32)
    (h : SameReturn (naiveFindFreeBlock .big sbi) (naiveFindFreeBlock .little sbi) sbi) :
    sbi.NoBlocks .little ∧ sbi.NoBlocks .big ∨
    OwnSwap sbi.blocksCount ∧ OwnSwap sbi.dataBlocksStart ∧
      0 ≤ 8 * (sbi.blockBitmap : Int) + sbi.dataStart .little := by
  have hscan : ScanAlike sbi.blockBitmap (sbi.dataEnd .big - sbi.dataStart .big).toNat
      (sbi.dataStart .big) (sbi.dataEnd .little - sbi.dataStart .little).toNat
      (sbi.dataStart .little) := h.scan
  unfold SbInfo.NoBlocks
  obtain ⟨hbig, hlittle⟩ | ⟨hn, hst, hpos, -⟩ := scanAlike_iff.mp hscan
  · exact .inl ⟨by omega, by omega⟩
  · by_cases hempty : sbi.dataEnd .little ≤ sbi.dataStart .little
    · exact .inl ⟨hempty, by omega⟩
    · have hend : sbi.dataEnd .big = sbi.dataEnd .little := by omega
      exact .inr ⟨toInt32_inj (swab32_lt _) hcount hend, toInt32_inj (swab32_lt _) hstart hst,
        hst ▸ hpos⟩

/-- The hosts agree on an image exactly when the second conversion does no harm. -/
theorem hosts_agree_iff (image : Bytes) :
    HostsAgree image ↔ (SbInfo.ofImage image).OrderFree := by
  constructor
  · intro h
    exact ⟨h.inodes, h.table, h.findFreeBlock.blocks (getLE32_lt image _) (getLE32_lt image _)⟩
  · exact SbInfo.OrderFree.hostsAgree

/-- A fresh device: the big-endian host looks for the root's inode in block 0x04000000. -/
theorem fresh_root_misplaced : freshImage.getLE32 512 = naiveMagic ∧
    (SbInfo.ofImage freshImage).rootBlock .little = 4 ∧
    (SbInfo.ofImage freshImage).rootBlock .big = 67108864 ∧ ¬ HostsAgree freshImage := by
  have hlittle : (SbInfo.ofImage freshImage).rootBlock .little = 4 := by decide +kernel
  have hbig : (SbInfo.ofImage freshImage).rootBlock .big = 67108864 := by decide +kernel
  refine ⟨by decide +kernel, hlittle, hbig, ?_⟩
  intro h
  have heq := h.rootBlock
  rw [hlittle, hbig] at heq
  cases heq

/-- Fields that are palindromes are read alike. -/
example : HostsAgree (sampleImage 0x01000001 0x02000002 0x04000004 0x01000001 [0]) :=
  SbInfo.OrderFree.hostsAgree ⟨by decide +kernel, by decide +kernel, .inr (by decide +kernel)⟩

end Agree

end NaiveFS.V8
