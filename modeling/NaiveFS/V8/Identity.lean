import NaiveFS.V8.Spec

/-!
# Inode numbers and inode-table blocks (single-file module)

`naive_find_free_inode` returns the index of the bit it sets, and `naive_create`
uses the index as the number; `naive_unlink` and `naive_fill_super` take a
number's bit to be the one before it. So a number is in use without its bit
being set in two cases: the root's number 1 after a mount of an image whose
bitmap has only bit 0, and the number before that of a deleted file. In runs
that meet neither, no number and no table block is shared.
-/

namespace NaiveFS.V8

open Bytes

/-! ## The property -/

/-- The block that holds the inode's `naive_disk_inode`. -/
def Inode.diskBlock (nd : Inode) : Option Nat :=
  nd.iPrivate.map fun nii => nii.diskInode / naiveBlockSize

/-- Numbers and table blocks of the inodes in memory, the root among them, are
pairwise distinct; the root has number 1 and the table's first block. -/
def Identity (e : Endian) (image : Bytes) (s : FS) : Prop :=
  (∃ id nd, s.sRoot = some id ∧ s.inodes id = some nd ∧ nd.iIno = naiveRootIno ∧
    nd.diskBlock = some ((SbInfo.ofImage image).rootBlock e)) ∧
  ∀ i j a b, s.inodes i = some a → s.inodes j = some b → i ≠ j →
    a.iIno ≠ b.iIno ∧ a.diskBlock ≠ b.diskBlock

/-- A step that does not fail. -/
def NoFailure (_ : FS) (_ : Op) (r : Int) : Prop := r = 0

/-- `naive_unlink` is only called for a file whose number does not follow that of
a live inode. -/
def ClearsNoLiveBit (s : FS) : Op → Prop
  | .create .. => True
  | .unlink dir name => ∀ id nd, s.dcache dir name = some id → s.inodes id = some nd →
      ∀ j b, s.inodes j = some b → b.iIno + 1 ≠ nd.iIno

/-- The structure stored at block `b` does not reach the bytes of the inode bitmap
that the scan reads. -/
def ClearOfBitmap (count b : Nat) : Prop :=
  naiveBlockSize * b + sizeofDiskInode ≤ 1536 ∨ 1536 + (count + 7) / 8 ≤ naiveBlockSize * b

/-- The image's inode table lies apart from its inode bitmap. -/
structure TableApart (e : Endian) (sbi : SbInfo) : Prop where
  root : ClearOfBitmap (le32ToCpu e sbi.inodesCount) (sbi.rootBlock e)
  file : ∀ n : Nat, 2 ≤ n → n < le32ToCpu e sbi.inodesCount →
    ClearOfBitmap (le32ToCpu e sbi.inodesCount) (sbi.tableBlock e n)

/-! ## The invariant -/

section Blocks

variable {e : Endian} {sbi : SbInfo} {n k : Nat}

theorem tableBlock_inj (hn : n < 2 ^ 31) (hk : k < 2 ^ 31)
    (h : sbi.tableBlock e n = sbi.tableBlock e k) : n = k := by
  unfold SbInfo.tableBlock toU64 toInt32 at h
  omega

theorem tableBlock_ne_rootBlock (hn : n < 2 ^ 31) (h1 : 1 ≤ n) :
    sbi.tableBlock e n ≠ sbi.rootBlock e := by
  unfold SbInfo.tableBlock SbInfo.rootBlock toU64 toInt32 toU32 naiveRootIno
  omega

end Blocks

/-- A live file: its bit is its number's, its block its number's, and it has no
data blocks. -/
structure FileOk (e : Endian) (sbi : SbInfo) (m : Bytes) (nd : Inode) : Prop where
  two : 2 ≤ nd.iIno
  total : nd.iIno < le32ToCpu e sbi.inodesCount
  int : nd.iIno < 2 ^ 31
  marked : m.bit (8 * 1536 + nd.iIno) = true
  link : nd.iNlink = 1
  info : nd.iPrivate = some ⟨bData (sbi.tableBlock e nd.iIno), sbi.tableBlock e nd.iIno⟩
  blocks : ∀ k, 12 ≤ k → k < 44 → m (bData (sbi.tableBlock e nd.iIno) + k) = 0

structure Inv (e : Endian) (sbi : SbInfo) (s : FS) : Prop where
  info : s.sFsInfo = .live sbi
  bitmap : sbi.inodeBitmap = 1536
  sRoot : s.sRoot = some 0
  root : ∃ nd, s.inodes 0 = some nd ∧ nd.iIno = 1 ∧
    nd.iPrivate = some ⟨bData (sbi.rootBlock e), sbi.rootBlock e⟩
  reserved : ∀ n, n < 2 → n < le32ToCpu e sbi.inodesCount → s.mem.bit (8 * 1536 + n) = true
  file : ∀ id nd, id ≠ 0 → s.inodes id = some nd → FileOk e sbi s.mem nd
  inj : ∀ i j a b, i ≠ 0 → j ≠ 0 → s.inodes i = some a → s.inodes j = some b →
    a.iIno = b.iIno → i = j
  dentry : ∀ dir name id, s.dcache dir name = some id → id ≠ 0
  fresh : ∀ id, s.nextInode ≤ id → s.inodes id = none

theorem diskBlock_of {nd : Inode} {b : Nat} (h : nd.iPrivate = some ⟨bData b, b⟩) :
    nd.diskBlock = some b := by
  rw [Inode.diskBlock, h, Option.map_some, bData, Nat.mul_div_cancel_left _ (by decide)]

/-- The invariant is enough. -/
theorem Inv.identity {e : Endian} {image : Bytes} {s : FS} (h : Inv e (.ofImage image) s) :
    Identity e image s := by
  obtain ⟨rnd, hrnd, hrno, hrp⟩ := h.root
  refine ⟨⟨0, rnd, h.sRoot, hrnd, hrno, diskBlock_of hrp⟩, ?_⟩
  -- a file against the root
  have hroot : ∀ j b, j ≠ 0 → s.inodes j = some b →
      b.iIno ≠ rnd.iIno ∧ b.diskBlock ≠ rnd.diskBlock := by
    intro j b hj hb
    have hf := h.file j b hj hb
    refine ⟨by rw [hrno]; have := hf.two; omega, ?_⟩
    rw [diskBlock_of hf.info, diskBlock_of hrp]
    intro hc
    exact tableBlock_ne_rootBlock hf.int (by have := hf.two; omega) (Option.some.inj hc)
  intro i j a b ha hb hij
  by_cases hi : i = 0
  · subst hi
    rw [hrnd] at ha
    cases ha
    have := hroot j b (Ne.symm hij) hb
    exact ⟨this.1.symm, this.2.symm⟩
  by_cases hj : j = 0
  · subst hj
    rw [hrnd] at hb
    cases hb
    exact hroot i a hi ha
  have hne : a.iIno ≠ b.iIno := fun hc => hij (h.inj i j a b hi hj ha hb hc)
  have hfa := h.file i a hi ha
  have hfb := h.file j b hj hb
  refine ⟨hne, ?_⟩
  rw [diskBlock_of hfa.info, diskBlock_of hfb.info]
  intro hc
  exact hne (tableBlock_inj hfa.int hfb.int (Option.some.inj hc))

section Steps

variable {e : Endian} {sbi : SbInfo} {s t : FS} {dir id n : Nat} {name : Name} {nd : Inode}
  {m : Bytes}

theorem FileOk.congr (h : FileOk e sbi s.mem nd)
    (hbit : s.mem.bit (8 * 1536 + nd.iIno) = true → m.bit (8 * 1536 + nd.iIno) = true)
    (hmem : ∀ k, 12 ≤ k → k < 44 → m (bData (sbi.tableBlock e nd.iIno) + k)
      = s.mem (bData (sbi.tableBlock e nd.iIno) + k)) : FileOk e sbi m nd :=
  ⟨h.two, h.total, h.int, hbit h.marked, h.link, h.info,
    fun k h1 h2 => (hmem k h1 h2).trans (h.blocks k h1 h2)⟩

/-- Setting up file `n` keeps the bits of the bitmap and the pointers of the
other files. -/
theorem Created.mem_frame (hap : TableApart e sbi) (hbm : sbi.inodeBitmap = 1536)
    (hc : Created e sbi s t dir name n) (h2 : 2 ≤ n) :
    (∀ k, k < le32ToCpu e sbi.inodesCount → t.mem.bit (8 * 1536 + k)
      = (decide (k = n) || s.mem.bit (8 * 1536 + k))) ∧
    (∀ j, 2 ≤ j → j < le32ToCpu e sbi.inodesCount → j < 2 ^ 31 → j ≠ n → ∀ k, 12 ≤ k → k < 44 →
      t.mem (bData (sbi.tableBlock e j) + k) = s.mem (bData (sbi.tableBlock e j) + k)) ∧
    ∀ k, 12 ≤ k → k < 44 → t.mem (bData (sbi.tableBlock e n) + k) = 0 := by
  obtain ⟨nd, ts, hmem⟩ := hc.mem
  have hn := hap.file n h2 hc.total
  have htotal := hc.total
  rw [hbm] at hmem
  unfold ClearOfBitmap naiveBlockSize sizeofDiskInode at hn
  unfold bData naiveBlockSize at hmem ⊢
  refine ⟨fun k hk => ?_, fun j hj2 hj hj31 hjn k hk hk' => ?_, fun k hk hk' => ?_⟩
  · have hbyte : t.mem ((8 * 1536 + k) / 8)
        = (s.mem.setBit (8 * 1536 + n)) ((8 * 1536 + k) / 8) := by
      rw [hmem, initDiskInode_out (by omega)]
    rw [bit_congr hbyte, bit_setBit]
    congr 1
    simp only [decide_eq_decide]
    omega
  · have hja := hap.file j hj2 hj
    unfold ClearOfBitmap naiveBlockSize sizeofDiskInode at hja
    have hne : sbi.tableBlock e j ≠ sbi.tableBlock e n := fun h =>
      hjn (tableBlock_inj hj31 hc.int h)
    rw [hmem, initDiskInode_out (by omega), setBit_out (by omega)]
  · rw [hmem, initDiskInode_zero (by omega)]

theorem Created.inv (hap : TableApart e sbi) (h : Inv e sbi s)
    (hc : Created e sbi s t dir name n) : Inv e sbi t := by
  have htotal := hc.total
  have hfree : s.mem.bit (8 * 1536 + n) = false := by
    rw [← h.bitmap]
    exact hc.free
  have h2 : 2 ≤ n := by
    by_contra hlt
    rw [h.reserved n (by omega) htotal] at hfree
    cases hfree
  -- the bits 0 and 1 are taken, so the new number is neither
  obtain ⟨hbit, hother, hown⟩ := hc.mem_frame hap h.bitmap h2
  obtain ⟨nd, hinodes, hino, hlink, hpriv⟩ := hc.inodes
  obtain ⟨rnd, hrnd, hrno, hrp⟩ := h.root
  have hpos : s.nextInode ≠ 0 := by
    intro h0
    rw [h.fresh 0 (by omega)] at hrnd
    cases hrnd
  have hold : ∀ j, j ≠ s.nextInode → t.inodes j = s.inodes j := fun j hj => by
    rw [hinodes, Function.update_of_ne hj]
  have hnew : t.inodes s.nextInode = some nd := by rw [hinodes, Function.update_self]
  have hfile : ∀ id a, id ≠ 0 → s.inodes id = some a → FileOk e sbi t.mem a ∧ a.iIno ≠ n := by
    intro id a hid ha
    have hf := h.file id a hid ha
    have hne : a.iIno ≠ n := fun hc => by
      have := hf.marked
      rw [hc, hfree] at this
      cases this
    exact ⟨hf.congr (fun hm => by rw [hbit _ hf.total, hm, Bool.or_true])
      (hother _ hf.two hf.total hf.int hne), hne⟩
  refine ⟨hc.info.trans h.info, h.bitmap, hc.root.trans h.sRoot,
    ⟨rnd, (hold 0 (Ne.symm hpos)).trans hrnd, hrno, hrp⟩, fun k hk hk' => ?_,
    fun id a hid ha => ?_, fun i j a b hi hj ha hb hab => ?_, fun d nm id hd => ?_,
    fun id hid => ?_⟩
  · rw [hbit k hk', h.reserved k hk hk', Bool.or_true]
  · by_cases hidn : id = s.nextInode
    · subst hidn
      rw [hnew] at ha
      cases ha
      refine ⟨by omega, by omega, by have := hc.int; omega, ?_, hlink, ?_, ?_⟩
      · rw [hino, hbit n htotal, decide_eq_true rfl, Bool.true_or]
      · rw [hino]
        exact hpriv
      · rw [hino]
        exact hown
    · rw [hold id hidn] at ha
      exact (hfile id a hid ha).1
  · by_cases hin : i = s.nextInode
    · by_cases hjn : j = s.nextInode
      · rw [hin, hjn]
      · subst hin
        rw [hnew] at ha
        cases ha
        rw [hold j hjn] at hb
        exact absurd (hab.symm.trans hino) (hfile j b hj hb).2
    · rw [hold i hin] at ha
      by_cases hjn : j = s.nextInode
      · subst hjn
        rw [hnew] at hb
        cases hb
        exact absurd (hab.trans hino) (hfile i a hi ha).2
      · rw [hold j hjn] at hb
        exact h.inj i j a b hi hj ha hb hab
  · rw [hc.dentry, FS.dcache_setDentry] at hd
    split at hd
    · cases hd
      exact hpos
    · exact h.dentry d nm id hd
  · rw [hc.next] at hid
    rw [hold id (by omega)]
    exact h.fresh id (by omega)

/-- The memory after `naive_unlink` of a file without data blocks. -/
theorem unlinkMem_eq (hf : FileOk e sbi s.mem nd) (hbm : sbi.inodeBitmap = 1536) :
    unlinkMem e sbi nd.iIno ⟨bData (sbi.tableBlock e nd.iIno), sbi.tableBlock e nd.iIno⟩ s.mem
      = .ok ((clearDiskInode e (bData (sbi.tableBlock e nd.iIno)) (store32 e s.mem
        (bData (sbi.tableBlock e nd.iIno) + 8) 0)).clearBit (8 * 1536 + (nd.iIno - 1))) := by
  have hint := hf.int
  have hino : toInt32 ((nd.iIno : Int) - 1) = ((nd.iIno - 1 : Nat) : Int) := by
    have := hf.two
    rw [toInt32_of_small (by omega) (by omega)]
    omega
  have hzero : ∀ j, 0 ≤ j → j < 0 + naiveDirectBlocks →
      s.mem.getLE32 (bData (sbi.tableBlock e nd.iIno) + 12 + 4 * j) = 0 := by
    intro j _ hj
    unfold naiveDirectBlocks at hj
    refine getLE32_of_zero fun k hk => ?_
    rw [show bData (sbi.tableBlock e nd.iIno) + 12 + 4 * j + k
      = bData (sbi.tableBlock e nd.iIno) + (12 + 4 * j + k) by omega]
    exact hf.blocks _ (by omega) (by omega)
  rw [unlinkMem, freeFileBlocksLoop_zero hzero, hbm]
  show naiveClearBit _ _ _ = _
  rw [hino, naiveClearBit_nat]

/-- Deleting file `nd` clears the bit before its own and keeps the pointers of the
other files. -/
theorem unlinkMem_frame (hap : TableApart e sbi) (hbm : sbi.inodeBitmap = 1536)
    (hf : FileOk e sbi s.mem nd)
    (h : unlinkMem e sbi nd.iIno ⟨bData (sbi.tableBlock e nd.iIno), sbi.tableBlock e nd.iIno⟩
      s.mem = .ok m) :
    (∀ k, k < le32ToCpu e sbi.inodesCount → k ≠ nd.iIno - 1 →
      m.bit (8 * 1536 + k) = s.mem.bit (8 * 1536 + k)) ∧
    ∀ j, 2 ≤ j → j < le32ToCpu e sbi.inodesCount → j < 2 ^ 31 → j ≠ nd.iIno →
      ∀ k, 12 ≤ k → k < 44 → m (bData (sbi.tableBlock e j) + k)
        = s.mem (bData (sbi.tableBlock e j) + k) := by
  have htwo := hf.two
  have htotal := hf.total
  have hn := hap.file _ htwo htotal
  rw [unlinkMem_eq hf hbm] at h
  cases h
  unfold ClearOfBitmap naiveBlockSize sizeofDiskInode at hn
  unfold bData naiveBlockSize
  refine ⟨fun k hk hkn => ?_, fun j hj2 hj hj31 hjn k hk hk' => ?_⟩
  · rw [bit_clearBit, decide_eq_true (show 8 * 1536 + k ≠ 8 * 1536 + (nd.iIno - 1) by omega),
      Bool.true_and]
    apply bit_congr
    rw [clearDiskInode_out (by omega), store32_out (by omega)]
  · have hja := hap.file j hj2 hj
    unfold ClearOfBitmap naiveBlockSize sizeofDiskInode at hja
    have hne : sbi.tableBlock e j ≠ sbi.tableBlock e nd.iIno := fun hc =>
      hjn (tableBlock_inj hj31 hf.int hc)
    rw [clearBit_out (by omega), clearDiskInode_out (by omega), store32_out (by omega)]

theorem SameInode.some_iff {id : Nat} {a : Inode} (h : SameInode s t id)
    (ha : t.inodes id = some a) : ∃ b, s.inodes id = some b ∧ a.iIno = b.iIno ∧
      a.iNlink = b.iNlink ∧ a.iPrivate = b.iPrivate := by
  obtain h1 | ⟨d, ts, h1, h2⟩ := h
  · exact ⟨a, h1 ▸ ha, rfl, rfl, rfl⟩
  · rw [h2] at ha
    cases ha
    exact ⟨d, h1, rfl, rfl, rfl⟩

/-- Deleting keeps the invariant when no live inode has the number before the
file's. -/
theorem Inv.unlink {ans : Answers} {r : Int} (hap : TableApart e sbi) (h : Inv e sbi s)
    (hdc : s.dcache dir name = some id) (hclear : ClearsNoLiveBit s (.unlink dir name))
    (hrun : (vfsUnlink e dir name).exec ans s = .ok (r, t)) : Inv e sbi t := by
  have hid0 := h.dentry dir name id hdc
  cases hid : s.inodes id with
  | none =>
      -- the code would follow a dangling pointer
      rw [vfsUnlink, Prog.exec_read_bind, hdc] at hrun
      obtain ⟨_, _, hun, -⟩ := Prog.exec_bind_ok.mp hrun
      rw [naiveUnlink, naiveI] at hun
      obtain ⟨_, _, hbad, -⟩ := Prog.exec_bind_ok.mp hun
      rw [Prog.exec_step, hid] at hbad
      cases hbad
  | some nd =>
  have hf := h.file id nd hid0 hid
  obtain ⟨hmem, hsame, hgone, hnext, hdct, hroot, hinfo⟩ :=
    vfsUnlink_cases hdc hid hf.info h.info hf.link hrun
  obtain ⟨hbit, hother⟩ := unlinkMem_frame hap h.bitmap hf hmem
  have hno := hclear id nd hdc hid
  obtain ⟨rnd, hrnd, hrno, hrp⟩ := h.root
  have hn2 : nd.iIno ≠ 2 := fun h2 => hno 0 rnd hrnd (by rw [hrno, h2])
  have htwo := hf.two
  have hback : ∀ j a, t.inodes j = some a → j ≠ id ∧ ∃ b, s.inodes j = some b ∧
      a.iIno = b.iIno ∧ a.iNlink = b.iNlink ∧ a.iPrivate = b.iPrivate := by
    intro j a ha
    have hj : j ≠ id := by
      rintro rfl
      rw [hgone] at ha
      cases ha
    exact ⟨hj, (hsame j hj).some_iff ha⟩
  refine ⟨hinfo.trans h.info, h.bitmap, hroot.trans h.sRoot, ?_, fun k hk hk' => ?_,
    fun j a hj ha => ?_, fun i j a b hi hj ha hb hab => ?_, fun d nm x hx => ?_, fun j hj => ?_⟩
  · obtain h1 | ⟨d, ts, h1, h2⟩ := hsame 0 (Ne.symm hid0)
    · exact ⟨rnd, h1.trans hrnd, hrno, hrp⟩
    · rw [hrnd] at h1
      cases h1
      exact ⟨_, h2, hrno, hrp⟩
  · rw [hbit k hk' (by omega)]
    exact h.reserved k hk hk'
  · obtain ⟨hjid, b, hb, hbi, hbl, hbp⟩ := hback j a ha
    have hfb := h.file j b hj hb
    have hne : b.iIno ≠ nd.iIno := fun hc => hjid (h.inj j id b nd hj hid0 hb hid hc)
    have hfb' : FileOk e sbi t.mem b := hfb.congr
      (fun hm => by rw [hbit _ hfb.total (by have := hno j b hb; omega), hm])
      (hother _ hfb.two hfb.total hfb.int hne)
    exact ⟨hbi ▸ hfb'.two, hbi ▸ hfb'.total, hbi ▸ hfb'.int, hbi ▸ hfb'.marked, hbl ▸ hfb'.link,
      by rw [hbp, hbi]; exact hfb'.info, by rw [hbi]; exact hfb'.blocks⟩
  · obtain ⟨-, a', ha', hai, -⟩ := hback i a ha
    obtain ⟨-, b', hb', hbi, -⟩ := hback j b hb
    exact h.inj i j a' b' hi hj ha' hb' (by rw [← hai, ← hbi, hab])
  · rw [hdct, FS.dcache_setDentry] at hx
    split at hx
    · cases hx
    · exact h.dentry d nm x hx
  · rw [hnext] at hj
    cases hj' : t.inodes j with
    | none => rfl
    | some a =>
        obtain ⟨-, b, hb, -⟩ := hback j a hj'
        rw [h.fresh j hj] at hb
        cases hb

end Steps

/-! ## Runs -/

section Runs

variable {e : Endian} {image : Bytes} {s t : FS}

/-- A mount of an image that marks bit 1 establishes the invariant. -/
theorem MountOf.inv (h : MountOf e image s) (hap : TableApart e (.ofImage image))
    (hbit : image.bit (8 * 1536 + 1) = true) : Inv e (.ofImage image) s := by
  obtain ⟨nd, ts, hmem⟩ := h.mem
  obtain ⟨rnd, hinodes, hino, hp⟩ := h.inodes
  have hnone : ∀ id, id ≠ 0 → s.inodes id = none := fun id hid => by
    rw [hinodes, Function.update_of_ne hid]
  have hroot := hap.root
  unfold ClearOfBitmap naiveBlockSize sizeofDiskInode at hroot
  unfold bData naiveBlockSize at hmem
  refine ⟨h.info, rfl, h.root, ⟨rnd, by rw [hinodes, Function.update_self], hino, hp⟩,
    fun n hn hcount => ?_, fun id nd hid hnd => ?_, fun i j a b hi hj ha hb hab => ?_,
    fun d nm id hd => ?_, fun id hid => ?_⟩
  · have hbyte : s.mem ((8 * 1536 + n) / 8) = image.setBit (8 * 1536) ((8 * 1536 + n) / 8) := by
      rw [hmem, initDiskInode_out (by omega)]
    rw [bit_congr hbyte, bit_setBit]
    obtain rfl | rfl : n = 0 ∨ n = 1 := by omega
    · rfl
    · rw [hbit, Bool.or_true]
  · rw [hnone id hid] at hnd
    cases hnd
  · rw [hnone i hi] at ha
    cases ha
  · rw [h.dentry] at hd
    cases hd
  · rw [h.next] at hid
    exact hnone id (by omega)

/-- After the mount of an image whose bitmap marks bit 1, and as long as no file
is deleted while the number before its own is in use, numbers and table blocks
are shared by no two inodes. -/
theorem inode_identity (hm : Mounted e image s) (hap : TableApart e (.ofImage image))
    (hbit : image.bit (8 * 1536 + 1) = true)
    (hr : Run e (fun s op r => NoFailure s op r ∧ ClearsNoLiveBit s op) s t) :
    Identity e image t := by
  refine Inv.identity (?_ : Inv e (.ofImage image) t)
  induction hr with
  | refl => exact hm.cases.inv hap hbit
  | tail _ hstep ih =>
      obtain ⟨op, ans, r, ⟨hr, hclear⟩, hexec⟩ := hstep
      rw [NoFailure] at hr
      subst hr
      cases op with
      | create dir name perm =>
          obtain ⟨n, hc⟩ := naiveCreate_zero ih.info hexec
          exact hc.inv hap ih
      | unlink dir name =>
          rename_i u v _
          cases hdc : u.dcache dir name with
          | none =>
              change (vfsUnlink e dir name).exec ans u = _ at hexec
              rw [vfsUnlink, Prog.exec_read_bind, hdc] at hexec
              cases hexec
          | some id => exact ih.unlink hap hdc hclear hexec

/-- The usual layout: the table behind the bitmaps, a bitmap of one block. -/
theorem TableApart.of_layout {sbi : SbInfo} (h4 : 4 ≤ le32ToCpu e sbi.inodeTableStart)
    (hcount : le32ToCpu e sbi.inodesCount ≤ 4096)
    (hend : le32ToCpu e sbi.inodeTableStart + le32ToCpu e sbi.inodesCount < 2 ^ 31) :
    TableApart e sbi := by
  constructor
  · unfold ClearOfBitmap naiveBlockSize SbInfo.rootBlock toU32 naiveRootIno
    omega
  · intro n _ hn
    unfold ClearOfBitmap naiveBlockSize SbInfo.tableBlock toU64 toInt32
    omega

/-- The same image with bit 1 marked as well. -/
def reservedImage : Bytes := sampleImage 128 1000 4 132 [0, 1]

/-- Two files on the image that marks bit 1. -/
theorem inode_identity_two_files : ∃ s t, Mounted .little reservedImage s ∧
    Run .little (fun s op r => NoFailure s op r ∧ ClearsNoLiveBit s op) s t ∧
    t.nextInode = 3 ∧ Identity .little reservedImage t := by
  have h : succeeds (naiveFillSuper .little) (.good ⟨4, 0⟩ 0 0) { mem := reservedImage }
      (fun s => runsTo .little [createFile 1 (by decide) (by decide) ⟨5, 0⟩,
        createFile 2 (by decide) (by decide) ⟨6, 0⟩] s fun t => t.nextInode == 3) = true := by
    decide +kernel
  obtain ⟨s, hm, hruns⟩ := exists_of_succeeds h
  obtain ⟨t, hr, hnext⟩ := exists_of_runsTo
    (P := fun s op r => NoFailure s op r ∧ ClearsNoLiveBit s op) (by
      intro s x hx
      simp only [List.mem_cons, List.not_mem_nil, or_false] at hx
      obtain rfl | rfl := hx <;> exact ⟨rfl, trivial⟩) hruns
  have hcount : (SbInfo.ofImage reservedImage).inodesCount = 128 := by decide +kernel
  have hstart : (SbInfo.ofImage reservedImage).inodeTableStart = 4 := by decide +kernel
  have hap : TableApart .little (.ofImage reservedImage) := by
    apply TableApart.of_layout
    · rw [le32ToCpu, hstart]
    · rw [le32ToCpu, hcount]
      decide
    · rw [le32ToCpu, le32ToCpu, hstart, hcount]
      decide
  exact ⟨s, t, ⟨_, hm⟩, hr, by simpa using hnext,
    inode_identity ⟨_, hm⟩ hap (by decide +kernel) hr⟩

/-- On a fresh image the first file is given the root's number. -/
theorem first_file_number_one : ∃ s t, Mounted .little freshImage s ∧
    Run .little NoFailure s t ∧ ¬ Identity .little freshImage t := by
  have h : succeeds (naiveFillSuper .little) (.good ⟨4, 0⟩ 0 0) { mem := freshImage }
      (fun s => runsTo .little [createFile 1 (by decide) (by decide) ⟨5, 0⟩] s fun t =>
        (t.inodes 0).any (·.iIno == 1) && (t.inodes 1).any (·.iIno == 1)) = true := by
    decide +kernel
  obtain ⟨s, hm, hruns⟩ := exists_of_succeeds h
  obtain ⟨t, hr, hsame⟩ := exists_of_runsTo (P := NoFailure) (fun s x hx => rfl) hruns
  refine ⟨s, t, ⟨_, hm⟩, hr, fun hid => ?_⟩
  simp only [Bool.and_eq_true, Option.any_eq_true, beq_iff_eq] at hsame
  obtain ⟨⟨a, ha, hai⟩, b, hb, hbi⟩ := hsame
  exact (hid.2 0 1 a b ha hb (by decide)).1 (hai.trans hbi.symm)

end Runs

end NaiveFS.V8
