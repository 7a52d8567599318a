import NaiveFS.V8.Code

/-!
# What the single-file module's functions do

For each function, what a call that returns leaves: the memory, the inodes, the
dentries. The states are given field by field.
-/

namespace NaiveFS.V8

open Bytes

/-! ## Where the stores go -/

section Stores

variable {e : Endian} {a ino links i : Nat} {nd : Inode} {ts : Timespec} {m : Bytes}

/-- Bytes outside the structure are left alone. -/
theorem initDiskInode_out (h : i < a ∨ a + 524 ≤ i) :
    initDiskInode e a nd ino links ts m i = m i := by
  unfold initDiskInode sizeofDiskInode
  rw [store32_out (by omega), store32_out (by omega), store32_out (by omega),
    store32_out (by omega), store32_out (by omega), store32_out (by omega),
    store32_out (by omega), store32_out (by omega), zero_out (by omega)]

/-- The block pointers, and all other bytes without a store, are zero. -/
theorem initDiskInode_zero {k : Nat} (h : 8 ≤ k ∧ k < 48 ∨ 72 ≤ k ∧ k < 524) :
    initDiskInode e a nd ino links ts m (a + k) = 0 := by
  unfold initDiskInode sizeofDiskInode
  rw [store32_out (by omega), store32_out (by omega), store32_out (by omega),
    store32_out (by omega), store32_out (by omega), store32_out (by omega),
    store32_out (by omega), store32_out (by omega), zero_in (by omega) (by omega)]

/-- So are the words among them. -/
theorem getLE32_initDiskInode {k : Nat} (h : 8 ≤ k ∧ k + 4 ≤ 48 ∨ 72 ≤ k ∧ k + 4 ≤ 524) :
    (initDiskInode e a nd ino links ts m).getLE32 (a + k) = 0 := by
  apply getLE32_of_zero
  intro j hj
  rw [Nat.add_assoc]
  exact initDiskInode_zero (by omega)

theorem clearDiskInode_out (h : i < a + 8 ∨ a + 60 ≤ i) : clearDiskInode e a m i = m i := by
  unfold clearDiskInode
  rw [store32_out (by omega), store32_out (by omega), store32_out (by omega)]

/-- A file without blocks frees none. -/
theorem freeFileBlocksLoop_zero {blockBitmap n : Nat}
    (h : ∀ j, i ≤ j → j < i + n → m.getLE32 (a + 12 + 4 * j) = 0) :
    freeFileBlocksLoop e blockBitmap a n i m = .ok m := by
  induction n generalizing i with
  | zero => rfl
  | succ n ih =>
      have hload := load32_eq_zero (e := e) (h i (by omega) (by omega))
      rw [freeFileBlocksLoop]
      simp only [hload, ne_eq, not_true_eq_false, if_false]
      exact ih fun j hj hj' => h j (by omega) (by omega)

theorem bit_congr {b c : Bytes} {n : Nat} (h : b (n / 8) = c (n / 8)) : b.bit n = c.bit n := by
  rw [bit, h, bit]

end Stores

/-! ## Bits and allocation -/

theorem bitByte_nat (n addr : Nat) : bitByte (n : Int) addr = .ok (addr + n / 8) := by
  unfold bitByte
  rw [if_neg (by omega)]
  congr 1

theorem flat_bit (n addr : Nat) : 8 * (addr + n / 8) + ((n : Int) % 8).toNat = 8 * addr + n := by
  omega

theorem naiveTestBit_nat (n addr : Nat) (m : Bytes) :
    naiveTestBit (n : Int) addr m = .ok (m.bit (8 * addr + n)) := by
  rw [naiveTestBit, bitByte_nat, ← flat_bit n addr]
  rfl

theorem naiveSetBit_nat (n addr : Nat) (m : Bytes) :
    naiveSetBit (n : Int) addr m = .ok (m.setBit (8 * addr + n)) := by
  rw [naiveSetBit, bitByte_nat, ← flat_bit n addr]
  rfl

theorem naiveClearBit_nat (n addr : Nat) (m : Bytes) :
    naiveClearBit (n : Int) addr m = .ok (m.clearBit (8 * addr + n)) := by
  rw [naiveClearBit, bitByte_nat, ← flat_bit n addr]
  rfl

/-- The scan returns the first clear bit. -/
theorem findClear_some {bitmap n i : Nat} {m : Bytes} {k : Int}
    (h : findClear bitmap m n (i : Int) = .ok (some k)) :
    ∃ j : Nat, k = j ∧ i ≤ j ∧ j < i + n ∧ j < 2 ^ 31 ∧ m.bit (8 * bitmap + j) = false ∧
      ∀ l, i ≤ l → l < j → m.bit (8 * bitmap + l) = true := by
  induction n generalizing i with
  | zero => cases h
  | succ n ih =>
      rw [findClear] at h
      by_cases hover : (2 : Int) ^ 31 ≤ i
      · rw [if_pos hover] at h
        cases h
      rw [if_neg hover, naiveTestBit_nat] at h
      cases hb : m.bit (8 * bitmap + i) with
      | false =>
          rw [hb] at h
          cases h
          exact ⟨i, rfl, by omega, by omega, by omega, hb, fun l h1 h2 => by omega⟩
      | true =>
          rw [hb] at h
          obtain ⟨j, rfl, h1, h2, h3, h4, h5⟩ := ih (i := i + 1) (by exact_mod_cast h)
          refine ⟨j, rfl, by omega, by omega, h3, h4, fun l hl hl' => ?_⟩
          by_cases hli : l = i
          · rw [hli, hb]
          · exact h5 l (by omega) hl'

/-- The scan finds nothing when every bit is set. -/
theorem findClear_none {bitmap n i : Nat} {m : Bytes}
    (h : findClear bitmap m n (i : Int) = .ok none) :
    ∀ k, i ≤ k → k < i + n → m.bit (8 * bitmap + k) = true := by
  induction n generalizing i with
  | zero =>
      intro k hk hk'
      omega
  | succ n ih =>
      rw [findClear] at h
      by_cases hover : (2 : Int) ^ 31 ≤ i
      · rw [if_pos hover] at h
        cases h
      rw [if_neg hover, naiveTestBit_nat] at h
      cases hb : m.bit (8 * bitmap + i) with
      | false =>
          rw [hb] at h
          cases h
      | true =>
          rw [hb] at h
          intro k hk hk'
          by_cases hki : k = i
          · rw [hki, hb]
          · exact ih (i := i + 1) (by exact_mod_cast h) k (by omega) (by omega)

/-- `naive_find_free_inode` takes the first clear bit, or returns -1. -/
theorem naiveFindFreeInode_cases {e : Endian} {sbi : SbInfo} {ans : Answers} {s t : FS} {r : Int}
    (h : (naiveFindFreeInode e sbi).exec ans s = .ok (r, t)) :
    (r = -1 ∧ t = s ∧
      ∀ k, k < le32ToCpu e sbi.inodesCount → s.mem.bit (8 * sbi.inodeBitmap + k) = true) ∨
    ∃ n : Nat, r = n ∧ n < le32ToCpu e sbi.inodesCount ∧ n < 2 ^ 31 ∧
      s.mem.bit (8 * sbi.inodeBitmap + n) = false ∧
      (∀ k, k < n → s.mem.bit (8 * sbi.inodeBitmap + k) = true) ∧
      t = (s.setMem (s.mem.setBit (8 * sbi.inodeBitmap + n))).markDirty sbi.inodeBitmapBh := by
  rw [naiveFindFreeInode, takeClear, Prog.exec_step] at h
  cases hf : findClear sbi.inodeBitmap s.mem (le32ToCpu e sbi.inodesCount) 0 with
  | error x =>
      rw [hf] at h
      cases h
  | ok k =>
      rw [hf] at h
      cases k with
      | none =>
          cases h
          exact .inl ⟨rfl, rfl, fun k hk => findClear_none (i := 0) hf k (by omega) (by omega)⟩
      | some k =>
          obtain ⟨n, rfl, -, hlt, h31, hfree, hleast⟩ := findClear_some (i := 0) hf
          have hset : naiveSetBit n sbi.inodeBitmap s.mem = .ok _ := naiveSetBit_nat ..
          simp only [bind, Except.bind, hset, pure, Except.pure, Except.ok.injEq,
            Prod.mk.injEq] at h
          obtain ⟨rfl, rfl⟩ := h
          exact .inr ⟨n, rfl, by omega, h31, hfree, fun k hk => hleast k (by omega) hk, rfl⟩

section Exec

variable {ans : Answers} {s t : FS} {id : Nat}

theorem exec_tryMem_ok {f : Bytes → Except Fault Bytes}
    (h : (tryMem f).exec ans s = .ok ((), t)) : ∃ m, f s.mem = .ok m ∧ t = s.setMem m := by
  rw [tryMem, Prog.exec_step] at h
  cases hf : f s.mem with
  | error x =>
      rw [hf] at h
      cases h
  | ok m =>
      rw [hf] at h
      cases h
      exact ⟨m, rfl, rfl⟩

theorem exec_updInode_ok {f : Inode → Inode} (h : (updInode id f).exec ans s = .ok ((), t)) :
    ∃ nd, s.inodes id = some nd ∧ t = s.setInode id (f nd) := by
  rw [updInode] at h
  obtain ⟨nd, u, hnd, hrest⟩ := Prog.exec_bind_ok.mp h
  obtain ⟨hnd, rfl⟩ := exec_inode_ok hnd
  cases hrest
  exact ⟨nd, hnd, rfl⟩

theorem exec_iput_ok (h : (iput id).exec ans s = .ok ((), t)) :
    ∃ c, t = { s.dropInode id with bCount := c } := by
  rw [iput, naiveDestroyInode] at h
  obtain ⟨nd, u, hnd, hrest⟩ := Prog.exec_bind_ok.mp h
  obtain ⟨-, rfl⟩ := exec_inode_ok hnd
  cases hp : nd.iPrivate with
  | none =>
      simp only [hp] at hrest
      cases hrest
      exact ⟨_, rfl⟩
  | some nii =>
      simp only [hp] at hrest
      cases hrest
      exact ⟨_, rfl⟩

end Exec

/-! ## `naive_create` -/

/-- `n` is the number `naive_find_free_inode` returns. -/
structure Found (e : Endian) (sbi : SbInfo) (s : FS) (n : Nat) : Prop where
  total : n < le32ToCpu e sbi.inodesCount
  int : n < 2 ^ 31
  free : s.mem.bit (8 * sbi.inodeBitmap + n) = false
  least : ∀ k, k < n → s.mem.bit (8 * sbi.inodeBitmap + k) = true

/-- A successful `naive_create` that took number `n`. -/
structure Created (e : Endian) (sbi : SbInfo) (s t : FS) (dir : Nat) (name : Name) (n : Nat) :
    Prop extends Found e sbi s n where
  mem : ∃ nd ts, t.mem = initDiskInode e (bData (sbi.tableBlock e n)) nd n 1 ts
    (s.mem.setBit (8 * sbi.inodeBitmap + n))
  inodes : ∃ nd, t.inodes = Function.update s.inodes s.nextInode (some nd) ∧ nd.iIno = n ∧
    nd.iNlink = 1 ∧ nd.iPrivate = some ⟨bData (sbi.tableBlock e n), sbi.tableBlock e n⟩
  next : t.nextInode = s.nextInode + 1
  dentry : t.dcache = (s.setDentry dir name (some s.nextInode)).dcache
  root : t.sRoot = s.sRoot
  info : t.sFsInfo = s.sFsInfo
  size : ∀ nd, t.inodes s.nextInode = some nd → nd.iSize = 0

section Create

variable {e : Endian} {sbi : SbInfo} {ans : Answers} {s t : FS} {dir : Nat} {name : Name}
  {mode n : Nat}

@[simp] theorem Inode.iIno_initOwner (nd : Inode) (dir : Option Inode) (uid gid mode : Nat) :
    (nd.initOwner dir uid gid mode).iIno = nd.iIno := by
  unfold initOwner
  split
  · split <;> rfl
  · rfl

@[simp] theorem Inode.iSize_initOwner (nd : Inode) (dir : Option Inode) (uid gid mode : Nat) :
    (nd.initOwner dir uid gid mode).iSize = nd.iSize := by
  unfold initOwner
  split
  · split <;> rfl
  · rfl

/-- The clean-up paths clear the bit and return their error code. -/
theorem cleanup_cases {id : Nat} {f : Bytes → Except Fault Bytes} {r r' : Int}
    (h : (do iput id; tryMem f; pure r : K Int).exec ans s = .ok (r', t)) :
    r' = r ∧ f s.mem = .ok t.mem := by
  obtain ⟨_, u, hput, h⟩ := Prog.exec_bind_ok.mp h
  obtain ⟨_, v, hbit, h⟩ := Prog.exec_bind_ok.mp h
  obtain ⟨c, rfl⟩ := exec_iput_ok hput
  obtain ⟨m, hm, rfl⟩ := exec_tryMem_ok hbit
  cases h
  exact ⟨rfl, hm⟩

/-- What `naive_create` from `sb_bread` on stores, by outcome. -/
inductive OnDisk (e : Endian) (sbi : SbInfo) (ans : Answers) (b n : Nat) (m : Bytes) :
    Int → Bytes → Prop where
  | unreadable (read : ans (.sbBread .create b) = false) :
      OnDisk e sbi ans b n m (- EIO) (m.clearBit (8 * sbi.inodeBitmap + n))
  | noMemory (read : ans (.sbBread .create b) = true) (mem : ans (.kmalloc .inodeInfo) = false)
      (nd : Inode) (ts : Timespec) : OnDisk e sbi ans b n m (-ENOMEM)
        ((initDiskInode e (bData b) nd (toU32 n) 1 ts m).clearBit (8 * sbi.inodeBitmap + n))
  | stored (read : ans (.sbBread .create b) = true) (mem : ans (.kmalloc .inodeInfo) = true)
      (nd : Inode) (ts : Timespec) : OnDisk e sbi ans b n m 0
        (initDiskInode e (bData b) nd (toU32 n) 1 ts m)

theorem createOnDisk_cases {id b : Nat} {nd : Inode} {ts : Timespec} {r : Int}
    (hid : s.inodes id = some nd)
    (h : (createOnDisk e sbi dir name mode n id ts b).exec ans s = .ok (r, t)) :
    OnDisk e sbi ans b n s.mem r t.mem ∧ (r = 0 →
    t.inodes = (s.setInode id
      { nd with iOp := .ofMode mode, iPrivate := some ⟨bData b, b⟩ }).inodes ∧
    t.nextInode = s.nextInode ∧ t.dcache = (s.setDentry dir name (some id)).dcache ∧
    t.sRoot = s.sRoot ∧ t.sFsInfo = s.sFsInfo) := by
  rw [createOnDisk] at h
  cases hread : ans (.sbBread .create b) with
  | false =>
      rw [Prog.exec_bind_of (exec_sbBread_fail hread), Bool.not_false, if_pos rfl] at h
      obtain ⟨rfl, hm⟩ := cleanup_cases h
      rw [← Except.ok.inj ((naiveClearBit_nat ..).symm.trans hm)]
      exact ⟨.unreadable hread, fun h0 => by cases h0⟩
  | true =>
      have hid' : (s.addRef b 1).inodes id = some nd := hid
      have hid'' : ((s.addRef b 1).setMem
          (initDiskInode e (bData b) nd (toU32 n) 1 ts (s.addRef b 1).mem)).inodes id = some nd :=
        hid
      rw [Prog.exec_bind_of (exec_sbBread_ok hread), Bool.not_true, if_neg Bool.false_ne_true,
        Prog.exec_bind_of (exec_inode hid'), Prog.exec_bind_of exec_updMem,
        Prog.exec_bind_of (exec_updInode hid''), Prog.exec_ask_bind] at h
      cases hmem : (ans (.kmalloc .inodeInfo) : Bool) with
      | false =>
          rw [hmem, Bool.not_false, if_pos rfl, Prog.exec_bind_of exec_brelse] at h
          obtain ⟨rfl, hm⟩ := cleanup_cases h
          rw [← Except.ok.inj ((naiveClearBit_nat ..).symm.trans hm)]
          exact ⟨.noMemory hread hmem nd ts, fun h0 => by cases h0⟩
      | true =>
          rw [hmem, Bool.not_true, if_neg Bool.false_ne_true,
            Prog.exec_bind_of (exec_updInode FS.inodes_setInode_self), FS.setInode_setInode,
            Prog.exec_bind_of exec_dAdd, Prog.exec_bind_of exec_markBufferDirty,
            Prog.exec_bind_of exec_markBufferDirty] at h
          cases h
          exact ⟨.stored hread hmem nd ts, fun _ => ⟨rfl, rfl, rfl, rfl, rfl⟩⟩

theorem OnDisk.of_zero {b : Nat} {m m' : Bytes} (h : OnDisk e sbi ans b n m 0 m')
    (hn : n < 2 ^ 32) : ∃ nd ts, m' = initDiskInode e (bData b) nd n 1 ts m := by
  cases h with
  | stored _ _ nd ts => exact ⟨nd, ts, by rw [toU32_natCast hn]⟩

/-- The part before it sets the new inode up. -/
theorem createInode_onDisk {r : Int} (h : (createInode e sbi dir name mode n s.nextInode).exec ans
      (s.withNew { iNlink := 1 }) = .ok (r, t)) :
    ∃ nd, nd.iIno = toU64 n ∧ nd.iNlink = 1 ∧ nd.iSize = 0 ∧
      (createOnDisk e sbi dir name mode n s.nextInode (ans .ktime) (sbi.tableBlock e n)).exec ans
        (s.withNew nd) = .ok (r, t) := by
  rw [createInode, Prog.exec_bind_of (exec_updInode FS.inodes_withNew_self),
    FS.setInode_withNew] at h
  obtain ⟨d, v, hd, hrest⟩ := Prog.exec_bind_ok.mp h
  obtain ⟨-, rfl⟩ := exec_inode_ok hd
  rw [Prog.exec_bind_of (exec_inodeInitOwner FS.inodes_withNew_self), FS.setInode_withNew,
    Prog.exec_bind_of exec_ktime, Prog.exec_bind_of (exec_updInode FS.inodes_withNew_self),
    FS.setInode_withNew, Prog.exec_bind_of (exec_updInode FS.inodes_withNew_self),
    FS.setInode_withNew] at hrest
  exact ⟨_, by simp [Inode.setTimes], rfl, by simp [Inode.setTimes], hrest⟩

/-- How a call of `naive_create` ends: no number is free, `new_inode` fails, or one
of the outcomes on disk. -/
theorem naiveCreate_cases {r : Int} (hsbi : s.sFsInfo = .live sbi)
    (h : (naiveCreate e dir name mode).exec ans s = .ok (r, t)) :
    (r = -ENOSPC ∧ t = s ∧
      ∀ k, k < le32ToCpu e sbi.inodesCount → s.mem.bit (8 * sbi.inodeBitmap + k) = true) ∨
    ∃ n, Found e sbi s n ∧
      ((ans .newInode = false ∧ r = -ENOMEM ∧ t.mem =
          (s.mem.setBit (8 * sbi.inodeBitmap + n)).clearBit (8 * sbi.inodeBitmap + n)) ∨
        (ans .newInode = true ∧
          OnDisk e sbi ans (sbi.tableBlock e n) n (s.mem.setBit (8 * sbi.inodeBitmap + n)) r
            t.mem ∧ (r = 0 → Created e sbi s t dir name n))) := by
  rw [naiveCreate, Prog.exec_bind_of (exec_naiveSb hsbi)] at h
  obtain ⟨ino, u, hino, hrest⟩ := Prog.exec_bind_ok.mp h
  obtain ⟨rfl, rfl, hfull⟩ | ⟨n, rfl, htotal, h31, hfree, hleast, rfl⟩ :=
    naiveFindFreeInode_cases hino
  · rw [if_pos (by decide)] at hrest
    cases hrest
    exact .inl ⟨rfl, rfl, hfull⟩
  rw [if_neg (by omega)] at hrest
  refine .inr ⟨n, ⟨htotal, h31, hfree, hleast⟩, ?_⟩
  cases hnew : ans .newInode with
  | false =>
      rw [Prog.exec_bind_of (exec_newInode_fail hnew)] at hrest
      obtain ⟨_, _, hbit, hret⟩ := Prog.exec_bind_ok.mp hrest
      obtain ⟨m, hm, rfl⟩ := exec_tryMem_ok hbit
      cases hret
      exact .inl ⟨rfl, rfl, (Except.ok.inj ((naiveClearBit_nat ..).symm.trans hm)).symm⟩
  | true =>
      rw [Prog.exec_bind_of (exec_newInode_ok hnew)] at hrest
      obtain ⟨nd, hino, hlink, hsize, hdisk⟩ := createInode_onDisk hrest
      obtain ⟨hmem, hzero⟩ := createOnDisk_cases FS.inodes_withNew_self hdisk
      refine .inr ⟨rfl, hmem, ?_⟩
      rintro rfl
      obtain ⟨hinodes, hnext, hdentry, hroot, hinfo⟩ := hzero rfl
      rw [FS.setInode_withNew] at hinodes
      refine ⟨⟨htotal, h31, hfree, hleast⟩, hmem.of_zero (by omega), ⟨_, hinodes, ?_, hlink, rfl⟩,
        hnext, hdentry, hroot, hinfo, fun nd' hnd' => ?_⟩
      · exact hino.trans (toU64_natCast (by omega))
      · rw [hinodes] at hnd'
        obtain rfl := Option.some.inj (FS.inodes_withNew_self.symm.trans hnd')
        exact hsize

/-- A successful `naive_create` takes a free number and stores the file's inode in
that number's block. -/
theorem naiveCreate_zero (hsbi : s.sFsInfo = .live sbi)
    (h : (naiveCreate e dir name mode).exec ans s = .ok (0, t)) :
    ∃ n, Created e sbi s t dir name n := by
  obtain ⟨h0, -⟩ | ⟨n, -, ⟨-, h0, -⟩ | ⟨-, -, hzero⟩⟩ := naiveCreate_cases hsbi h
  · cases h0
  · cases h0
  · exact ⟨n, hzero rfl⟩

end Create

/-! ## `naive_unlink` -/

section Unlink

variable {e : Endian} {sbi : SbInfo} {ans : Answers} {s t : FS} {dir id : Nat} {name : Name}
  {nd : Inode} {nii : NaiveInodeInfo} {r : Int}

/-- What `naive_unlink` of the last link of inode number `ino` leaves in memory. -/
def unlinkMem (e : Endian) (sbi : SbInfo) (ino : Nat) (nii : NaiveInodeInfo) (m : Bytes) :
    Except Fault Bytes := do
  let m ← freeFileBlocksLoop e sbi.blockBitmap nii.diskInode naiveDirectBlocks 0 m
  naiveClearBit (toInt32 ((ino : Int) - 1)) sbi.inodeBitmap
    (clearDiskInode e nii.diskInode (store32 e m (nii.diskInode + 8) 0))

/-- Inode `id` is in `t` what it is in `s`, up to times. -/
def SameInode (s t : FS) (id : Nat) : Prop :=
  t.inodes id = s.inodes id ∨
    ∃ d ts, s.inodes id = some d ∧ t.inodes id = some { d with iMtime := ts, iCtime := ts }

theorem unlinkRelease_mem (h : (unlinkRelease e sbi nii nd).exec ans s = .ok ((), t))
    (hsbi : s.sFsInfo = .live sbi) (hlink : nd.iNlink = 0) :
    unlinkMem e sbi nd.iIno nii s.mem = .ok t.mem ∧ t.inodes = s.inodes ∧
    t.nextInode = s.nextInode ∧ t.dcache = s.dcache ∧ t.sRoot = s.sRoot ∧
    t.sFsInfo = s.sFsInfo := by
  rw [unlinkRelease, if_neg (not_not.mpr hlink)] at h
  obtain ⟨_, u, hblocks, hrest⟩ := Prog.exec_bind_ok.mp h
  rw [naiveFreeFileBlocks, Prog.exec_bind_of (exec_naiveSb hsbi)] at hblocks
  obtain ⟨_, v, hloop, hdirty⟩ := Prog.exec_bind_ok.mp hblocks
  obtain ⟨m, hm, rfl⟩ := exec_tryMem_ok hloop
  cases hdirty
  rw [Prog.exec_bind_of exec_updMem] at hrest
  obtain ⟨_, w, hbit, hend⟩ := Prog.exec_bind_ok.mp hrest
  obtain ⟨m', hm', rfl⟩ := exec_tryMem_ok hbit
  cases hend
  refine ⟨?_, rfl, rfl, rfl, rfl, rfl⟩
  rw [unlinkMem, hm]
  exact hm'

/-- `naive_unlink` of a file with one link. -/
theorem naiveUnlink_cases (hid : s.inodes id = some nd) (hnii : nd.iPrivate = some nii)
    (hsbi : s.sFsInfo = .live sbi) (hlink : nd.iNlink = 1)
    (h : (naiveUnlink e dir id).exec ans s = .ok (r, t)) :
    r = 0 ∧ unlinkMem e sbi nd.iIno nii s.mem = .ok t.mem ∧ (∀ x, x ≠ id → SameInode s t x) ∧
    t.nextInode = s.nextInode ∧ t.dcache = s.dcache ∧ t.sRoot = s.sRoot ∧
    t.sFsInfo = s.sFsInfo := by
  rw [naiveUnlink, Prog.exec_bind_of (exec_naiveI hid hnii), Prog.exec_bind_of (exec_naiveSb hsbi),
    inodeDecLinkCount, Prog.exec_bind_of (exec_updInode hid),
    Prog.exec_bind_of (exec_inode FS.inodes_setInode_self)] at h
  obtain ⟨_, u, hrel, hrest⟩ := Prog.exec_bind_ok.mp h
  obtain ⟨hmem, hino, hnext, hdc, hroot, hinfo⟩ := unlinkRelease_mem hrel hsbi (by simp [hlink])
  rw [Prog.exec_bind_of exec_ktime] at hrest
  obtain ⟨_, v, hupd, hret⟩ := Prog.exec_bind_ok.mp hrest
  obtain ⟨d, hd, rfl⟩ := exec_updInode_ok hupd
  cases hret
  refine ⟨rfl, hmem, fun x hx => ?_, hnext, hdc, hroot, hinfo⟩
  have hux : u.inodes x = s.inodes x := by rw [hino, FS.inodes_setInode_ne hx]
  by_cases hxd : x = dir
  · subst hxd
    exact .inr ⟨d, _, hux ▸ hd, FS.inodes_setInode_self⟩
  · exact .inl ((FS.inodes_setInode_ne hxd).trans hux)

/-- `unlink` of a file with one link: its memory is cleared, its inode is gone. -/
theorem vfsUnlink_cases (hdc : s.dcache dir name = some id) (hid : s.inodes id = some nd)
    (hnii : nd.iPrivate = some nii) (hsbi : s.sFsInfo = .live sbi) (hlink : nd.iNlink = 1)
    (h : (vfsUnlink e dir name).exec ans s = .ok (r, t)) :
    unlinkMem e sbi nd.iIno nii s.mem = .ok t.mem ∧ (∀ x, x ≠ id → SameInode s t x) ∧
    t.inodes id = none ∧ t.nextInode = s.nextInode ∧
    t.dcache = (s.setDentry dir name none).dcache ∧ t.sRoot = s.sRoot ∧
    t.sFsInfo = s.sFsInfo := by
  rw [vfsUnlink, Prog.exec_read_bind, hdc] at h
  obtain ⟨r', u, hun, hrest⟩ := Prog.exec_bind_ok.mp h
  obtain ⟨rfl, hmem, hsame, hnext, hdcu, hroot, hinfo⟩ :=
    naiveUnlink_cases hid hnii hsbi hlink hun
  rw [if_pos rfl, Prog.exec_modify_bind] at hrest
  obtain ⟨_, v, hput, hret⟩ := Prog.exec_bind_ok.mp hrest
  obtain ⟨c, rfl⟩ := exec_iput_ok hput
  cases hret
  refine ⟨hmem, fun x hx => ?_, FS.inodes_dropInode_self, hnext, ?_, hroot, hinfo⟩
  · have hx' : ((u.setDentry dir name none).dropInode id).inodes x = u.inodes x :=
      FS.inodes_dropInode_ne hx
    obtain h1 | ⟨d, ts, h1, h2⟩ := hsame x hx
    · exact .inl (hx'.trans h1)
    · exact .inr ⟨d, ts, h1, hx'.trans h2⟩
  · show (u.setDentry dir name none).dcache = _
    rw [FS.setDentry, hdcu]
    rfl

end Unlink

/-! ## Mount -/

/-- `sbi` after a mount of `image`. -/
def SbInfo.ofImage (image : Bytes) : SbInfo where
  sbBh := 1
  blockBitmapBh := 2
  inodeBitmapBh := 3
  blockBitmap := 1024
  inodeBitmap := 1536
  inodeTableStart := image.getLE32 (512 + 12)
  dataBlocksStart := image.getLE32 (512 + 16)
  inodesCount := image.getLE32 (512 + 4)
  blocksCount := image.getLE32 (512 + 8)

/-- The state a successful mount of `image` leaves. -/
structure MountOf (e : Endian) (image : Bytes) (s : FS) : Prop where
  info : s.sFsInfo = .live (.ofImage image)
  mem : ∃ nd ts, s.mem = initDiskInode e (bData ((SbInfo.ofImage image).rootBlock e)) nd 1 2 ts
    (image.setBit (8 * 1536))
  inodes : ∃ nd, s.inodes = Function.update (fun _ => none) 0 (some nd) ∧ nd.iIno = 1 ∧
    nd.iPrivate = some ⟨bData ((SbInfo.ofImage image).rootBlock e),
      (SbInfo.ofImage image).rootBlock e⟩
  next : s.nextInode = 1
  dentry : s.dcache = fun _ _ => none
  root : s.sRoot = some 0

section Mount

variable {e : Endian} {image : Bytes} {ans : Answers} {s t : FS} {r r' : Int}

/-! The clean-up ladder returns the code it was given and stores nothing. -/

theorem outFreeSbi_cases (h : (outFreeSbi r).exec ans s = .ok (r', t)) :
    r' = r ∧ t.mem = s.mem := by
  cases h
  exact ⟨rfl, rfl⟩

/-- Dereferencing `sbi` changes nothing. -/
theorem exec_naiveSb_ok {sbi : SbInfo} (h : naiveSb.exec ans s = .ok (sbi, t)) : t = s := by
  rw [naiveSb, Prog.exec_step] at h
  split at h
  · cases h
    rfl
  · cases h

theorem outBrelseSb_cases (h : (outBrelseSb r).exec ans s = .ok (r', t)) :
    r' = r ∧ t.mem = s.mem := by
  obtain ⟨sbi, u, hsb, hrest⟩ := Prog.exec_bind_ok.mp h
  obtain rfl := exec_naiveSb_ok hsb
  rw [Prog.exec_bind_of exec_brelse] at hrest
  obtain ⟨rfl, hm⟩ := outFreeSbi_cases hrest
  exact ⟨rfl, hm⟩

theorem outBrelseBlockBitmap_cases (h : (outBrelseBlockBitmap r).exec ans s = .ok (r', t)) :
    r' = r ∧ t.mem = s.mem := by
  obtain ⟨sbi, u, hsb, hrest⟩ := Prog.exec_bind_ok.mp h
  obtain rfl := exec_naiveSb_ok hsb
  rw [Prog.exec_bind_of exec_brelse] at hrest
  obtain ⟨rfl, hm⟩ := outBrelseSb_cases hrest
  exact ⟨rfl, hm⟩

theorem outBrelseInodeBitmap_cases (h : (outBrelseInodeBitmap r).exec ans s = .ok (r', t)) :
    r' = r ∧ t.mem = s.mem := by
  obtain ⟨sbi, u, hsb, hrest⟩ := Prog.exec_bind_ok.mp h
  obtain rfl := exec_naiveSb_ok hsb
  rw [Prog.exec_bind_of exec_brelse] at hrest
  obtain ⟨rfl, hm⟩ := outBrelseBlockBitmap_cases hrest
  exact ⟨rfl, hm⟩

/-- A mount gets as far as storing the root's inode. -/
structure MountReaches (e : Endian) (image : Bytes) (ans : Answers) : Prop where
  sbInfo : ans (.kmalloc .sbInfo) = true
  super : ans (.sbBread .fillSuper naiveSuperBlockBlock) = true
  magic : image.getLE32 512 = naiveMagic
  blockBitmap : ans (.sbBread .fillSuperBlockBitmap naiveBlockBitmapBlock) = true
  inodeBitmap : ans (.sbBread .fillSuperInodeBitmap naiveInodeBitmapBlock) = true
  newInode : ans .newInode = true
  root : ans (.sbBread .fillSuperRoot ((SbInfo.ofImage image).rootBlock e)) = true
  rootInfo : ans (.kmalloc .rootInfo) = true

/-- The state before the root is made: only `sbi` and reference counts. -/
def FS.unrooted (image : Bytes) (c : Nat → Int) (sbi : SbInfo) : FS :=
  { mem := image, bCount := c, sFsInfo := .live sbi }

/-- Either a bitmap is unreadable, or both are there. -/
theorem fillSuperBitmaps_cases {c : Nat → Int}
    (h : (fillSuperBitmaps e).exec ans (FS.unrooted image c { sbBh := 1 }) = .ok (r, t)) :
    ((ans (.sbBread .fillSuperBlockBitmap naiveBlockBitmapBlock) = false ∨
        ans (.sbBread .fillSuperInodeBitmap naiveInodeBitmapBlock) = false) ∧
      r < 0 ∧ t.mem = image) ∨
    ∃ c, ans (.sbBread .fillSuperBlockBitmap naiveBlockBitmapBlock) = true ∧
      ans (.sbBread .fillSuperInodeBitmap naiveInodeBitmapBlock) = true ∧
      (fillSuperInfo e).exec ans (FS.unrooted image c
        { sbBh := 1, blockBitmapBh := 2, inodeBitmapBh := 3, blockBitmap := 1024,
          inodeBitmap := 1536 }) = .ok (r, t) := by
  rw [fillSuperBitmaps] at h
  cases h1 : ans (.sbBread .fillSuperBlockBitmap naiveBlockBitmapBlock) with
  | false =>
      rw [Prog.exec_bind_of (exec_sbBread_fail h1), Bool.not_false, if_pos rfl] at h
      obtain ⟨rfl, hm⟩ := outBrelseSb_cases h
      exact .inl ⟨.inl rfl, by decide, hm⟩
  | true =>
  rw [Prog.exec_bind_of (exec_sbBread_ok h1), Bool.not_true, if_neg Bool.false_ne_true,
    Prog.exec_bind_of (exec_updSbi rfl)] at h
  cases h2 : ans (.sbBread .fillSuperInodeBitmap naiveInodeBitmapBlock) with
  | false =>
      rw [Prog.exec_bind_of (exec_sbBread_fail h2), Bool.not_false, if_pos rfl] at h
      obtain ⟨rfl, hm⟩ := outBrelseBlockBitmap_cases h
      exact .inl ⟨.inr rfl, by decide, hm⟩
  | true =>
  rw [Prog.exec_bind_of (exec_sbBread_ok h2), Bool.not_true, if_neg Bool.false_ne_true,
    Prog.exec_bind_of (exec_updSbi rfl)] at h
  exact .inr ⟨_, rfl, rfl, h⟩

/-- The inode of the root, set up in memory. -/
theorem fillSuperRoot_onDisk (sbi : SbInfo) (hsbi : s.sFsInfo = .live sbi)
    (h : (fillSuperRoot e s.nextInode).exec ans (s.withNew { iNlink := 1 }) = .ok (r, t)) :
    ∃ nd, nd.iIno = 1 ∧ (fillSuperOnDisk e s.nextInode (ans .ktime) (sbi.rootBlock e)).exec ans
      (s.withNew nd) = .ok (r, t) := by
  rw [fillSuperRoot, Prog.exec_bind_of (exec_updInode FS.inodes_withNew_self),
    FS.setInode_withNew, Prog.exec_bind_of (exec_inodeInitOwner FS.inodes_withNew_self),
    FS.setInode_withNew, Prog.exec_bind_of exec_ktime,
    Prog.exec_bind_of (exec_updInode FS.inodes_withNew_self), FS.setInode_withNew,
    Prog.exec_bind_of (exec_updInode FS.inodes_withNew_self), FS.setInode_withNew,
    Prog.exec_bind_of (exec_naiveSb (s := s.withNew _) hsbi)] at h
  exact ⟨_, rfl, h⟩

/-- The root's block is unreadable, there is no memory, or the root is stored. When
`d_make_root` fails the code drops the inode twice and does not return. -/
theorem fillSuperOnDisk_cases {id b : Nat} {nd : Inode} {ts : Timespec}
    (hid : s.inodes id = some nd)
    (h : (fillSuperOnDisk e id ts b).exec ans s = .ok (r, t)) :
    ((ans (.sbBread .fillSuperRoot b) = false ∨ ans (.kmalloc .rootInfo) = false) ∧
      r < 0 ∧ t.mem = s.mem) ∨
    (ans (.sbBread .fillSuperRoot b) = true ∧ ans (.kmalloc .rootInfo) = true ∧ r = 0 ∧
      (∃ nd, t.mem = initDiskInode e (bData b) nd 1 2 ts s.mem) ∧
      t.inodes = (s.setInode id { nd with iPrivate := some ⟨bData b, b⟩ }).inodes ∧
      t.nextInode = s.nextInode ∧ t.dcache = s.dcache ∧ t.sRoot = some id ∧
      t.sFsInfo = s.sFsInfo) := by
  rw [fillSuperOnDisk] at h
  cases h1 : ans (.sbBread .fillSuperRoot b) with
  | false =>
      rw [Prog.exec_bind_of (exec_sbBread_fail h1), Bool.not_false, if_pos rfl] at h
      obtain ⟨_, u, hput, hret⟩ := Prog.exec_bind_ok.mp h
      obtain ⟨c, rfl⟩ := exec_iput_ok hput
      obtain ⟨rfl, hm⟩ := outBrelseInodeBitmap_cases hret
      exact .inl ⟨.inl rfl, by decide, hm⟩
  | true =>
  rw [Prog.exec_bind_of (exec_sbBread_ok h1), Bool.not_true, if_neg Bool.false_ne_true,
    Prog.exec_ask_bind] at h
  cases h2 : (ans (.kmalloc .rootInfo) : Bool) with
  | false =>
      rw [h2, Bool.not_false, if_pos rfl, Prog.exec_bind_of exec_brelse] at h
      obtain ⟨_, u, hput, hret⟩ := Prog.exec_bind_ok.mp h
      obtain ⟨c, rfl⟩ := exec_iput_ok hput
      obtain ⟨rfl, hm⟩ := outBrelseInodeBitmap_cases hret
      exact .inl ⟨.inr rfl, by decide, hm⟩
  | true =>
  have hid' : (s.addRef b 1).inodes id = some nd := hid
  rw [h2, Bool.not_true, if_neg Bool.false_ne_true, Prog.exec_bind_of (exec_updInode hid'),
    Prog.exec_bind_of (exec_inode FS.inodes_setInode_self), Prog.exec_bind_of exec_updMem,
    Prog.exec_bind_of exec_markBufferDirty, Prog.exec_ask_bind] at h
  cases h3 : (ans .dMakeRoot : Bool) with
  | false =>
      -- the second `iput` finds no inode
      rw [h3, if_neg Bool.false_ne_true] at h
      obtain ⟨_, u, hput, h⟩ := Prog.exec_bind_ok.mp h
      obtain ⟨c, rfl⟩ := exec_iput_ok hput
      rw [Prog.exec_bind_of exec_brelse] at h
      obtain ⟨_, v, hput', -⟩ := Prog.exec_bind_ok.mp h
      obtain ⟨nd', w, hnd', -⟩ := Prog.exec_bind_ok.mp hput'
      obtain ⟨hgone, -⟩ := exec_inode_ok hnd'
      exact absurd (FS.inodes_dropInode_self.symm.trans hgone) (by simp)
  | true =>
      rw [h3, if_pos rfl] at h
      cases h
      exact .inr ⟨rfl, rfl, rfl, ⟨_, rfl⟩, rfl, rfl, rfl, rfl, rfl⟩

/-- How a mount ends. -/
theorem naiveFillSuper_cases
    (h : (naiveFillSuper e).exec ans { mem := image } = .ok (r, t)) :
    (MountReaches e image ans ∧ r = 0 ∧ MountOf e image t) ∨
    (¬ MountReaches e image ans ∧ r < 0 ∧
      (t.mem = image ∨ t.mem = image.setBit (8 * 1536))) := by
  rw [naiveFillSuper, Prog.exec_ask_bind] at h
  cases h1 : (ans (.kmalloc .sbInfo) : Bool) with
  | false =>
      rw [h1] at h
      cases h
      exact .inr ⟨fun hr => Bool.false_ne_true (h1.symm.trans hr.sbInfo), by decide, .inl rfl⟩
  | true =>
  rw [h1, Bool.not_true, if_neg Bool.false_ne_true, Prog.exec_modify_bind] at h
  -- each failure goes to its place in the ladder, with the memory it had reached
  cases h2 : ans (.sbBread .fillSuper naiveSuperBlockBlock) with
  | false =>
      rw [Prog.exec_bind_of (exec_sbBread_fail h2), Bool.not_false, if_pos rfl] at h
      obtain ⟨rfl, hm⟩ := outFreeSbi_cases h
      exact .inr ⟨fun hr => Bool.false_ne_true (h2.symm.trans hr.super), by decide, .inl hm⟩
  | true =>
  rw [Prog.exec_bind_of (exec_sbBread_ok h2), Bool.not_true, if_neg Bool.false_ne_true,
    Prog.exec_bind_of (exec_updSbi rfl), Prog.exec_read_bind, le32ToCpu_load32,
    Prog.exec_ite] at h
  split at h
  · rename_i hmagic
    obtain ⟨rfl, hm⟩ := outBrelseSb_cases h
    exact .inr ⟨fun hr => hmagic hr.magic, by decide, .inl hm⟩
  rename_i hmagic
  change (fillSuperBitmaps e).exec ans (FS.unrooted image _ { sbBh := 1 }) = .ok (r, t) at h
  obtain ⟨hfail, hr, hm⟩ | ⟨c, h3, h4, hinfo⟩ := fillSuperBitmaps_cases h
  · refine .inr ⟨?_, hr, .inl hm⟩
    intro hreach
    obtain h3 | h4 := hfail
    · exact Bool.false_ne_true (h3.symm.trans hreach.blockBitmap)
    · exact Bool.false_ne_true (h4.symm.trans hreach.inodeBitmap)
  rw [fillSuperInfo, Prog.exec_read_bind, Prog.exec_bind_of (exec_updSbi rfl),
    Prog.exec_bind_of (exec_naiveSb rfl)] at hinfo
  simp only [le32ToCpu_load32] at hinfo
  -- from here on the bit of the root is set, also in what a failure leaves
  obtain ⟨_, u, hbit, hrest⟩ := Prog.exec_bind_ok.mp hinfo
  obtain ⟨m, hm, rfl⟩ := exec_tryMem_ok hbit
  have hbit0 : naiveSetBit 0 1536 image = .ok _ := naiveSetBit_nat 0 1536 image
  cases hm.symm.trans hbit0
  rw [Prog.exec_bind_of exec_markBufferDirty] at hrest
  cases h5 : ans .newInode with
  | false =>
      rw [Prog.exec_bind_of (exec_newInode_fail h5)] at hrest
      obtain ⟨rfl, hm⟩ := outBrelseInodeBitmap_cases hrest
      exact .inr ⟨fun hr => Bool.false_ne_true (h5.symm.trans hr.newInode), by decide, .inr hm⟩
  | true =>
      rw [Prog.exec_bind_of (exec_newInode_ok h5)] at hrest
      obtain ⟨nd, hino, hdisk⟩ :=
        fillSuperRoot_onDisk (.ofImage image) (show _ = _ from rfl) hrest
      obtain ⟨hfail, hr, hm⟩ | ⟨h6, h7, hr, ⟨nd', hmem⟩, hinodes, hnext, hdc, hroot, hfs⟩ :=
        fillSuperOnDisk_cases FS.inodes_withNew_self hdisk
      · refine .inr ⟨?_, hr, .inr hm⟩
        intro hreach
        obtain h6 | h7 := hfail
        · exact Bool.false_ne_true (h6.symm.trans hreach.root)
        · exact Bool.false_ne_true (h7.symm.trans hreach.rootInfo)
      · rw [FS.setInode_withNew] at hinodes
        exact .inl ⟨⟨h1, h2, not_not.mp hmagic, h3, h4, h5, h6, h7⟩, hr, hfs, ⟨nd', _, hmem⟩,
          ⟨_, hinodes, hino, rfl⟩, hnext, hdc, hroot⟩

/-- A successful mount. -/
theorem Mounted.cases (h : Mounted e image s) : MountOf e image s := by
  obtain ⟨ans, h⟩ := h
  obtain ⟨-, -, hm⟩ | ⟨-, h0, -⟩ := naiveFillSuper_cases h
  · exact hm
  · cases h0

end Mount

/-! ## Runs on given inputs -/

/-- An image with the given superblock and inode bitmap marks. -/
def sampleImage (inodeTotal blockTotal tableNo dataNo : Nat) (marks : List Nat) : Bytes :=
  marks.foldl (fun m k => m.setBit (8 * 1536 + k))
    (((((zeros.putLE32 512 naiveMagic).putLE32 516 inodeTotal).putLE32 520 blockTotal).putLE32
      524 tableNo).putLE32 528 dataNo)

/-- The code returns 0 and the state it leaves passes the check. -/
def succeeds (p : K Int) (ans : Answers) (s : FS) (check : FS → Bool) : Bool :=
  match p.exec ans s with
  | .ok (r, t) => r == 0 && check t
  | .error _ => false

theorem exists_of_succeeds {p : K Int} {ans : Answers} {s : FS} {check : FS → Bool}
    (h : succeeds p ans s check = true) : ∃ t, p.exec ans s = .ok (0, t) ∧ check t = true := by
  unfold succeeds at h
  split at h
  · rename_i r t ht
    rw [Bool.and_eq_true, beq_iff_eq] at h
    exact ⟨t, h.1 ▸ ht, h.2⟩
  · cases h

/-- The operations all return 0 and the state they leave passes the check. -/
def runsTo (e : Endian) : List (Op × Answers) → FS → (FS → Bool) → Bool
  | [], s, check => check s
  | (op, ans) :: ops, s, check => succeeds (op.prog e) ans s fun t => runsTo e ops t check

theorem exists_of_runsTo {e : Endian} {P : FS → Op → Int → Prop} {ops : List (Op × Answers)}
    {s : FS} {check : FS → Bool} (hP : ∀ s x, x ∈ ops → P s x.1 0)
    (h : runsTo e ops s check = true) : ∃ t, Run e P s t ∧ check t = true := by
  induction ops generalizing s with
  | nil => exact ⟨s, .refl, h⟩
  | cons x ops ih =>
      obtain ⟨op, ans⟩ := x
      obtain ⟨u, hu, hrest⟩ := exists_of_succeeds h
      obtain ⟨t, ht, hcheck⟩ := ih (fun s x hx => hP s x (by simp [hx])) hrest
      exact ⟨t, .head ⟨op, ans, 0, hP s (op, ans) (by simp), hu⟩ ht, hcheck⟩

/-- The image of a fresh device: only bit 0, the root's, is marked. -/
def freshImage : Bytes := sampleImage 128 1000 4 132 [0]

/-- Create a file whose name has `n` letters, at time `ts`. -/
def createFile (n : Nat) (hpos : 0 < n) (hle : n ≤ 255) (ts : Timespec) : Op × Answers :=
  (.create 0 (Name.letters n hpos hle) 0o644, .good ts 0 0)

end NaiveFS.V8
