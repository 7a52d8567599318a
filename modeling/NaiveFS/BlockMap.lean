import NaiveFS.Session

/-!
# The block map of an inode

`naive_file_write` attaches a block at slot `block_count`, `naive_add_entry` at
the first zero slot. The two agree because the slots in use are always the first
`block_count` ones. The blocks in them are data blocks that the device's bitmap
had as free, so nothing that is stored in a file or a directory reaches a block
the device keeps for itself.
-/

namespace NaiveFS

open Bytes

/-! ## Slots in use come first -/

/-- The first `block_count` slots hold blocks with `P`, the others hold none. -/
structure Inode.Prefix (P : Int → Prop) (nd : Inode) : Prop where
  count_nonneg : 0 ≤ nd.blockCount
  count_le : nd.blockCount ≤ 8
  below : ∀ i : Nat, (i : Int) < nd.blockCount → P (nd.blockPointers i)
  above : ∀ i : Nat, nd.blockCount ≤ i → i < 8 → nd.blockPointers i = 0

section Prefix

variable {P Q : Int → Prop} {nd nd' : Inode} {p : Int} {i : Nat}

theorem Inode.Prefix.congr (h : nd.Prefix P) (hcount : nd'.blockCount = nd.blockCount)
    (hptr : nd'.blockPointers = nd.blockPointers) : nd'.Prefix P := by
  refine ⟨?_, ?_, ?_, ?_⟩
  · rw [hcount]
    exact h.count_nonneg
  · rw [hcount]
    exact h.count_le
  · intro i hi
    rw [hptr]
    exact h.below i (by omega)
  · intro i hi hi8
    rw [hptr]
    exact h.above i (by omega) hi8

theorem Inode.Prefix.mono (h : nd.Prefix P) (hPQ : ∀ p, P p → Q p) : nd.Prefix Q :=
  ⟨h.count_nonneg, h.count_le, fun i hi => hPQ _ (h.below i hi), h.above⟩

/-- An inode without blocks. -/
theorem Inode.Prefix.empty (hcount : nd.blockCount = 0) (hptr : ∀ i, nd.blockPointers i = 0) :
    nd.Prefix P :=
  ⟨by omega, by omega, fun i hi => by omega, fun i _ _ => hptr i⟩

/-- A scan up to `block_count` sees every attached block. -/
theorem Inode.Prefix.lt_count (h : nd.Prefix P) (hi : i < 8) (hne : nd.blockPointers i ≠ 0) :
    (i : Int) < nd.blockCount := by
  by_contra hge
  exact hne (h.above i (by omega) hi)

/-- Attach a block at slot `block_count`. -/
theorem Inode.Prefix.push (h : nd.Prefix P) (hp : P p) (room : nd.blockCount < 8)
    (hcount : nd'.blockCount = nd.blockCount + 1)
    (hptr : nd'.blockPointers = Function.update nd.blockPointers nd.blockCount.toNat p) :
    nd'.Prefix P := by
  have hlow := h.count_nonneg
  refine ⟨by omega, by omega, ?_, ?_⟩
  · intro i hi
    rw [hptr, Function.update_apply]
    split
    · exact hp
    · exact h.below i (by omega)
  · intro i hi hi8
    rw [hptr, Function.update_of_ne (by omega)]
    exact h.above i (by omega) hi8

/-- The first zero slot is slot `block_count`. -/
theorem Inode.Prefix.zeroSlot (h : nd.Prefix P) (hP : ∀ p, P p → p ≠ 0)
    (hz : zeroSlot nd = some i) : nd.blockCount = i ∧ i < 8 := by
  unfold NaiveFS.zeroSlot at hz
  rw [List.find?_range_eq_some] at hz
  obtain ⟨hzero, hmem, hbefore⟩ := hz
  have hi : i < 8 := List.mem_range.mp hmem
  have hlow := h.count_nonneg
  have hcount : nd.blockCount ≤ i := by
    by_contra hlt
    exact hP _ (h.below i (by omega)) (by simpa using hzero)
  refine ⟨?_, hi⟩
  by_contra hne
  -- slot `block_count` is a zero slot before `i`
  have hslot := h.above nd.blockCount.toNat (by omega) (by omega)
  have := hbefore nd.blockCount.toNat (by omega)
  simp [hslot] at this

theorem Inode.Prefix.attach (h : nd.Prefix P) (hP : ∀ p, P p → p ≠ 0) (hp : P p) :
    (attachBlock nd p).Prefix P := by
  unfold attachBlock
  cases hz : NaiveFS.zeroSlot nd with
  | none => exact h
  | some i =>
      obtain ⟨hcount, hi⟩ := h.zeroSlot hP hz
      refine h.push hp (by omega) rfl ?_
      rw [hcount, Int.toNat_natCast]
      rfl

end Prefix

/-! ## The blocks of a device -/

namespace Disk

/-- `data_block_no` and `block_total` of the device, as the allocator reads them. -/
def dataStart (disk : Nat → Bytes) : Int :=
  toInt32 (SuperBlock.dataBlockNo (disk naiveSuperBlockBlock))
def totalBlocks (disk : Nat → Bytes) : Int :=
  toInt32 (SuperBlock.blockTotal (disk naiveSuperBlockBlock))

/-- The boot block, the superblock, the bitmaps, and the inode-table blocks of
the inode numbers the device has. -/
def Metadata (disk : Nat → Bytes) (c : Nat) : Prop :=
  c < 4 ∨ ∃ ino : Nat, 1 ≤ ino ∧
    (ino : Int) ≤ toInt32 (SuperBlock.inodeTotal (disk naiveSuperBlockBlock)) ∧
    c = toU64 (inodeTableBlock (disk naiveSuperBlockBlock) ino)

/-- The blocks in `M` that lie in the data area are marked on the device. -/
def Reserved (M : Nat → Prop) (disk : Nat → Bytes) : Prop :=
  ∀ c : Nat, M c → dataStart disk ≤ c → (c : Int) < totalBlocks disk → (disk 2).bit c = true

/-- A block of the data area. -/
def InData (disk : Nat → Bytes) (p : Int) : Prop := dataStart disk ≤ p ∧ p < totalBlocks disk

/-- A block of the data area that the device's bitmap has as free. -/
def FreeData (disk : Nat → Bytes) (p : Int) : Prop :=
  InData disk p ∧ (disk 2).bit p.toNat = false

/-- The data area leaves out the boot block, and as free blocks those in `M`;
the superblock is one of them. -/
structure Guarded (M : Nat → Prop) (disk : Nat → Bytes) : Prop where
  start : 0 < dataStart disk
  super : M naiveSuperBlockBlock
  reserved : Reserved M disk

theorem totalBlocks_lt (disk : Nat → Bytes) : totalBlocks disk < 2 ^ 31 := by
  unfold totalBlocks toInt32
  omega

variable {M : Nat → Prop}

theorem InData.toU64 {disk : Nat → Bytes} {p : Int} (hg : Guarded M disk) (h : InData disk p) :
    NaiveFS.toU64 p = p.toNat := by
  have hstart := hg.start
  have htotal := totalBlocks_lt disk
  obtain ⟨hlow, hhigh⟩ := h
  unfold NaiveFS.toU64
  omega

/-- A free data block is none of the guarded blocks. -/
theorem FreeData.not_guarded {disk : Nat → Bytes} {p : Int} {c : Nat} (hg : Guarded M disk)
    (h : FreeData disk p) (hc : M c) : c ≠ NaiveFS.toU64 p := by
  rintro rfl
  have hstart := hg.start
  obtain ⟨hdata, hbit⟩ := h
  have hbit' := hg.reserved _ hc
  rw [hdata.toU64 hg] at hbit'
  obtain ⟨hlow, hhigh⟩ := hdata
  rw [hbit' (by omega) (by omega)] at hbit
  cases hbit

end Disk

/-! ## The invariant -/

/-- The block maps hold free data blocks of the device, whose guarded blocks stay
as they were. -/
structure FS.Mapped (M : Nat → Prop) (disk : Nat → Bytes) (s : FS) : Prop where
  guarded : ∀ c, M c → s.cache c = disk c
  marked : ∀ b, b < 4096 → (disk 2).bit b = true → s.marked b = true
  node : ∀ id nd, s.inodes id = some nd → nd.Prefix (Disk.FreeData disk)

section Mapped

variable {M : Nat → Prop} {disk : Nat → Bytes} {ans : Answers} {s t : FS} {id dir b : Nat}
  {d nd nd' : Inode} {name : Name} {r p : Int}

theorem FS.Mapped.same (h : s.Mapped M disk) (t : FS)
    (ht : t.cache = s.cache ∧ t.inodes = s.inodes ∧ t.sbi.blockBitmap = s.sbi.blockBitmap) :
    t.Mapped M disk := by
  obtain ⟨h1, h2, h3⟩ := ht
  refine ⟨?_, ?_, ?_⟩
  · rw [h1]
    exact h.guarded
  · intro b hb hbit
    rw [FS.marked, h3]
    exact h.marked b hb hbit
  · rw [h2]
    exact h.node

/-- The allocator takes a data block that was free on the device. -/
theorem FS.Mapped.freeData (hg : Disk.Guarded M disk) (h : s.Mapped M disk)
    (free : s.NextFree b) : Disk.FreeData disk b := by
  have hsb : s.block naiveSuperBlockBlock = disk naiveSuperBlockBlock :=
    h.guarded naiveSuperBlockBlock hg.super
  have hstart := free.start
  have htotal := free.total
  rw [FS.dataStart, hsb] at hstart
  rw [FS.totalBlocks, hsb, tdiv_eight] at htotal
  refine ⟨⟨hstart, ?_⟩, ?_⟩
  · show (b : Int) < toInt32 (SuperBlock.blockTotal (disk naiveSuperBlockBlock))
    split at htotal <;> omega
  · rw [Int.toNat_natCast]
    by_contra hbit
    have := h.marked b free.bitmap (by simpa using hbit)
    rw [free.clear] at this
    cases this

theorem Disk.FreeData.ne_zero (hg : Disk.Guarded M disk) (h : Disk.FreeData disk p) : p ≠ 0 := by
  have hstart := hg.start
  have hlow := h.1.1
  omega

theorem FS.Mapped.markBlock (h : s.Mapped M disk) (b : Nat) : (s.markBlock b).Mapped M disk := by
  refine ⟨h.guarded, ?_, h.node⟩
  intro c hc hbit
  unfold FS.marked FS.markBlock
  rw [bit_setBit, Bool.or_eq_true]
  exact .inr (h.marked c hc hbit)

theorem FS.Mapped.unmarkBlock (h : s.Mapped M disk) (hbit : (disk 2).bit b = false) :
    (s.unmarkBlock b).Mapped M disk := by
  refine ⟨h.guarded, ?_, h.node⟩
  intro c hc hc'
  have hne : c ≠ b := by
    rintro rfl
    rw [hbit] at hc'
    cases hc'
  unfold FS.marked FS.unmarkBlock
  rw [bit_clearBit, Bool.and_eq_true, decide_eq_true_eq]
  exact ⟨hne, h.marked c hc hc'⟩

/-- Storing into a free data block. -/
theorem FS.Mapped.writeBlock (hg : Disk.Guarded M disk) (h : s.Mapped M disk)
    (hp : Disk.FreeData disk p) (v : Bytes) : (s.writeBlock p v).Mapped M disk := by
  refine ⟨?_, h.marked, h.node⟩
  intro c hc
  exact (Function.update_of_ne (hp.not_guarded hg hc) _ _).trans (h.guarded c hc)

theorem FS.Mapped.setInode (h : s.Mapped M disk) (hnd : nd.Prefix (Disk.FreeData disk)) :
    (s.setInode id nd).Mapped M disk := by
  refine ⟨h.guarded, h.marked, ?_⟩
  intro k e he
  by_cases hk : k = id
  · subst hk
    rw [FS.inodes_setInode_self] at he
    cases he
    exact hnd
  · rw [FS.inodes_setInode_ne hk] at he
    exact h.node k e he

theorem FS.Mapped.withNew (h : s.Mapped M disk) (hnd : nd.Prefix (Disk.FreeData disk)) :
    (s.withNew nd).Mapped M disk :=
  (h.setInode hnd).same _ ⟨rfl, rfl, rfl⟩

theorem FS.Mapped.dropInode (h : s.Mapped M disk) (id : Nat) : (s.dropInode id).Mapped M disk := by
  refine ⟨h.guarded, h.marked, ?_⟩
  intro k e he
  by_cases hk : k = id
  · rw [hk, FS.inodes_dropInode_self] at he
    cases he
  · rw [FS.inodes_dropInode_ne hk] at he
    exact h.node k e he

theorem FS.Mapped.mapInode {f : Inode → Inode} (h : s.Mapped M disk) (id : Nat)
    (hf : ∀ nd, (f nd).blockCount = nd.blockCount ∧ (f nd).blockPointers = nd.blockPointers) :
    (s.mapInode id f).Mapped M disk := by
  unfold FS.mapInode
  split
  · rename_i nd hnd
    obtain ⟨hcount, hptr⟩ := hf nd
    exact h.setInode ((h.node id nd hnd).congr hcount hptr)
  · exact h

/-- Releasing an inode clears no mark that is on the device. -/
theorem FS.Mapped.removed (h : s.Mapped M disk) (hnd : nd.Prefix (Disk.FreeData disk)) (dir : Nat)
    (name : Name) (id : Nat) : (s.removed dir name id nd).Mapped M disk := by
  obtain ⟨bm, im, hframe⟩ := s.released_frame nd
  have hreleased : (s.released nd).Mapped M disk := by
    refine ⟨?_, ?_, ?_⟩
    · rw [hframe]
      exact h.guarded
    · intro b hb hbit
      show (s.freedSlots nd nd.blockCount.toNat 0).marked b = true
      rw [FS.marked_freedSlots hb]
      refine ⟨h.marked b hb hbit, ?_⟩
      intro k _ hk _ heq
      have hclear := (hnd.below k (by omega)).2
      rw [heq, Int.toNat_natCast, hbit] at hclear
      cases hclear
    · rw [FS.released_inodes]
      exact h.node
  exact (hreleased.same ((s.released nd).setDentry dir name none) ⟨rfl, rfl, rfl⟩).dropInode id

/-! ### Each operation -/

theorem AddEntry.mapped {ino : Int} (hg : Disk.Guarded M disk) (h : s.Mapped M disk)
    (hd : s.inodes dir = some d) (he : AddEntry ans s dir d name ino r t) : t.Mapped M disk := by
  have hdir := h.node dir d hd
  have hP : ∀ p, Disk.FreeData disk p → p ≠ 0 := fun p hp => hp.ne_zero hg
  cases he with
  | @filled i j stop =>
      have hslot := hdir.below i stop.slot.count
      exact (h.writeBlock hg hslot _).same _ ⟨rfl, rfl, rfl⟩
  | unreadable | noSpace => exact h
  | newUnreadable full free unread =>
      -- the block stays attached although it is free again
      exact h.setInode (hdir.attach hP (h.freeData hg free))
  | @grown b full free read =>
      have hfree := h.freeData hg free
      have hput : ((s.markBlock b).putFirst b name ino).Mapped M disk :=
        (h.markBlock b).writeBlock hg hfree _
      exact hput.setInode ((hdir.attach hP hfree).congr rfl rfl)

theorem newFile_blockMap {P : Int → Prop} (ans : Answers) (d : Inode) (mode ino : Nat) :
    (Inode.newFile ans d mode ino).Prefix P := by
  obtain ⟨_, hptr, hcount⟩ := initOwner_fields { iNlink := 1, iIno := ino } d (ans .currentFsuid)
    (ans .currentFsgid) mode
  exact .empty hcount fun i => congrFun hptr i

theorem newDir_blockMap {P : Int → Prop} (ans : Answers) (d : Inode) (mode ino : Nat) (hb : P b) :
    (Inode.newDir ans d mode ino b).Prefix P := by
  obtain ⟨_, hptr, hcount⟩ := initOwner_fields { iNlink := 1, iIno := ino } d (ans .currentFsuid)
    (ans .currentFsgid) (sIfdir ||| (mode &&& 0o777))
  have hnone : (({ iNlink := 1, iIno := ino } : Inode).initOwner d (ans .currentFsuid)
      (ans .currentFsgid) (sIfdir ||| (mode &&& 0o777))).Prefix P :=
    .empty hcount fun i => congrFun hptr i
  refine hnone.push hb ?_ ?_ ?_
  · rw [hcount]
    show (0 : Int) < 8
    decide
  · rw [hcount]
    rfl
  · rw [hcount]
    rfl

theorem FS.Mapped.fileMade {mode ino : Nat} (h : s.Mapped M disk) :
    (s.fileMade ans d mode ino).Mapped M disk :=
  (h.withNew (newFile_blockMap ans d mode ino)).same _ ⟨rfl, rfl, rfl⟩

theorem FS.Mapped.dirMade {mode ino : Nat} (hg : Disk.Guarded M disk) (h : s.Mapped M disk)
    (block : s.NextFree b) : (s.dirMade ans d mode ino b).Mapped M disk := by
  have hfree := h.freeData hg block
  have hput : ((s.markBlock b).writeBlock b (dotBlock (s.block b) ino d.iIno)).Mapped M disk :=
    (h.markBlock b).writeBlock hg hfree _
  exact (hput.withNew (newDir_blockMap ans d mode ino hfree)).same _ ⟨rfl, rfl, rfl⟩

theorem Create.mapped {mode : Nat} (hg : Disk.Guarded M disk) (hs : s.Ready) (h : s.Mapped M disk)
    (hd : s.inodes dir = some d) (hc : Create ans s dir d name mode r t) : t.Mapped M disk := by
  cases hc with
  | noInode | noMemory => exact h
  | notLinked free mem entry fail =>
      exact (entry.mapped hg h.fileMade (hs.inodes_fileMade hd)).dropInode _
  | linked free mem entry =>
      exact (entry.mapped hg h.fileMade (hs.inodes_fileMade hd)).same _ ⟨rfl, rfl, rfl⟩

theorem Mkdir.mapped {mode : Nat} (hg : Disk.Guarded M disk) (hs : s.Ready) (h : s.Mapped M disk)
    (hd : s.inodes dir = some d) (hm : Mkdir ans s dir d name mode r t) : t.Mapped M disk := by
  cases hm with
  | noInode | noMemory => exact h
  | noBlock | blockUnreadable => exact h.same _ ⟨rfl, rfl, rfl⟩
  | @notLinked ino b _ u free mem block read entry fail =>
      have hu := entry.mapped hg (h.dirMade hg block) (hs.inodes_dirMade hd)
      have hbit := (h.freeData hg block).2
      rw [Int.toNat_natCast] at hbit
      exact (hu.unmarkBlock hbit).dropInode _
  | linked free mem block read entry =>
      have hu := entry.mapped hg (h.dirMade hg block) (hs.inodes_dirMade hd)
      exact (hu.mapInode (f := Inode.addLink) dir fun _ => ⟨rfl, rfl⟩).same _ ⟨rfl, rfl, rfl⟩

theorem FS.Mapped.clearRecord {i j : Nat} (hg : Disk.Guarded M disk) (h : s.Mapped M disk)
    (hd : s.inodes dir = some d) (hi : (i : Int) < d.blockCount) :
    (s.clearRecord d i j).Mapped M disk :=
  h.writeBlock hg ((h.node dir d hd).below i hi) _

theorem Unlink.mapped (hg : Disk.Guarded M disk) (h : s.Mapped M disk)
    (hu : Unlink ans s dir name r t) : t.Mapped M disk := by
  cases hu with
  | noDentry | notRemoved => exact h
  | removed dentry parent target node stop =>
      exact (h.clearRecord hg parent stop.slot.count).removed (h.node _ _ target) _ _ _

theorem Rmdir.mapped (hg : Disk.Guarded M disk) (h : s.Mapped M disk)
    (hu : Rmdir ans s dir name r t) : t.Mapped M disk := by
  cases hu with
  | noDentry | notDir | unreadable | notEmpty | notRemoved => exact h
  | @removed d nd id i j dentry parent target node isDir empty stop =>
      have hcleared := h.clearRecord (j := j) hg parent stop.slot.count
      exact (hcleared.mapInode (f := Inode.dropLink) dir fun _ => ⟨rfl, rfl⟩).removed
        (h.node _ _ target) _ _ _

theorem Extend.mapped (hg : Disk.Guarded M disk) (h : s.Mapped M disk) (he : Extend id s t) :
    t.Mapped M disk := by
  induction he with
  | refl => exact h
  | @step t b nd _ free node low room ih =>
      exact (ih.markBlock b).setInode ((ih.node id nd node).push (ih.freeData hg free) room rfl rfl)

theorem Write.mapped (hg : Disk.Guarded M disk) (h : s.Mapped M disk) (hw : Write s id r t) :
    t.Mapped M disk := by
  cases hw with
  | tooBig => exact h
  | noSpace grow => exact grow.mapped hg h
  | @written u v nd nd' r grow node data same =>
      have hu := grow.mapped hg h
      have hnode := hu.node id nd node
      have hv : v.Mapped M disk := by
        refine ⟨?_, ?_, ?_⟩
        · intro c hc
          rw [data.cache c]
          · exact hu.guarded c hc
          · intro k _ hk
            exact ((hnode.below k hk).not_guarded hg hc).symm
        · intro b hb hbit
          rw [FS.marked, data.sbi]
          exact hu.marked b hb hbit
        · rw [data.inodes]
          exact hu.node
      exact hv.setInode (hnode.congr same.blockCount same.blockPointers)

/-- Every step of a run in which the inodes stay cached keeps the block maps. -/
theorem Step.mapped {op : Op} (hg : Disk.Guarded M disk) (hs : s.Ready) (h : s.Mapped M disk)
    (hop : op.cached) (hstep : Step s op ans r t) : t.Mapped M disk := by
  cases op with
  | create dir name perm =>
      obtain ⟨d, hd, hcases⟩ := naiveCreate_cases hs hstep
      exact hcases.mapped hg hs h hd
  | mkdir dir name mode =>
      obtain ⟨d, hd, hcases⟩ := naiveMkdir_cases hs hstep
      exact hcases.mapped hg hs h hd
  | unlink dir name => exact (vfsUnlink_cases hs hstep).mapped hg h
  | rmdir dir name => exact (vfsRmdir_cases hs hstep).mapped hg h
  | write id data pos =>
      obtain ⟨q, u, hwrite, hend⟩ := Prog.exec_bind_ok.mp hstep
      cases hend
      exact (naiveFileWrite_cases hs hwrite).mapped hg h
  | lookup => exact hop.elim

theorem mapped_mounted (disk : Nat → Bytes) (ts : Timespec) :
    (FS.mounted disk ts).Mapped M disk := by
  refine ⟨fun _ _ => rfl, fun _ _ h => h, ?_⟩
  intro id nd hnd
  obtain ⟨_, rfl⟩ := inodes_mounted hnd
  exact .empty rfl fun _ => rfl

theorem Reach.mapped {P : FS → Op → Answers → Int → Prop} {s0 : FS} (hg : Disk.Guarded M disk)
    (h0 : Mounted disk s0) (h : Reach P s0 s) (hP : ∀ s op ans r, P s op ans r → op.cached) :
    s.Mapped M disk := by
  obtain ⟨_, ts, rfl⟩ := mounted_eq h0
  refine (h.invariant (I := fun s => s.Ready ∧ s.Mapped M disk)
    ⟨h0.ready, mapped_mounted disk ts⟩ ?_).2
  intro t op ans r u ht hp hstep
  exact ⟨hstep.ready ht.1, hstep.mapped hg ht.1 ht.2 (hP _ _ _ _ hp)⟩

/-- On a device that marks its own blocks of the data area, in every run whose
inodes stay cached and whatever fails: the first `block_count` slots of an inode
hold blocks of the data area, the others are 0, a scan up to `block_count` sees
every attached block, and the metadata blocks hold what the device holds. -/
theorem block_map_keeps {s0 : FS} (h0 : Mounted disk s0) (hstart : 0 < Disk.dataStart disk)
    (hres : Disk.Reserved (Disk.Metadata disk) disk) (h : Reach (fun _ op _ _ => op.cached) s0 s) :
    (∀ id nd, s.inodes id = some nd → nd.Prefix (Disk.InData disk) ∧
      ∀ i, i < 8 → nd.blockPointers i ≠ 0 → (i : Int) < nd.blockCount) ∧
    ∀ c, Disk.Metadata disk c → s.cache c = disk c := by
  have hg : Disk.Guarded (Disk.Metadata disk) disk := ⟨hstart, .inl (by decide), hres⟩
  have hs := h.mapped hg h0 fun _ _ _ _ hop => hop
  refine ⟨?_, hs.guarded⟩
  intro id nd hnd
  have hnode := hs.node id nd hnd
  exact ⟨hnode.mono fun _ hp => hp.1, fun i hi hne => hnode.lt_count hi hne⟩

end Mapped

/-- A device with 128 inodes and its data behind the inode table keeps its own
blocks out of the data area. -/
theorem reserved_sampleDisk : Disk.Reserved (Disk.Metadata (sampleDisk 128 1000 4 132))
    (sampleDisk 128 1000 4 132) := by
  have hstart : Disk.dataStart (sampleDisk 128 1000 4 132) = 132 := by decide +kernel
  have htable : toInt32 (SuperBlock.inodeTableBlockNo
      (sampleDisk 128 1000 4 132 naiveSuperBlockBlock)) = 4 := by decide +kernel
  have htotal : toInt32 (SuperBlock.inodeTotal
      (sampleDisk 128 1000 4 132 naiveSuperBlockBlock)) = 128 := by decide +kernel
  intro c hc hlow _
  rw [hstart] at hlow
  rcases hc with hc | ⟨ino, hpos, hle, rfl⟩
  · omega
  · rw [htotal] at hle
    rw [inodeTableBlock, htable] at hlow
    unfold toU64 at hlow
    omega

/-- A file is created and grows to two blocks; then its directory cannot be read. -/
def blockMapRun : List (Op × Answers) :=
  [(.create 0 (.letters 1 Nat.one_pos Name.one_le_max) 0o644, Answers.good default 0 0),
    (.write 1 (List.replicate 600 0x61#8) 0, Answers.good default 0 0),
    (.mkdir 0 (.letters 2 Nat.two_pos Name.two_le_max) 0o755,
      Answers.unreadable .addEntryScan default 0 0)]

theorem block_map_keeps_sample : ∃ s,
    runOps (FS.mounted (sampleDisk 128 1000 4 132) default) blockMapRun = .ok s ∧
      (∀ id nd, s.inodes id = some nd →
        nd.Prefix (Disk.InData (sampleDisk 128 1000 4 132)) ∧
        ∀ i, i < 8 → nd.blockPointers i ≠ 0 → (i : Int) < nd.blockCount) ∧
      ∀ c, Disk.Metadata (sampleDisk 128 1000 4 132) c →
        s.cache c = sampleDisk 128 1000 4 132 c := by
  obtain ⟨s, hs, _⟩ := exists_of_runsTo
    (show runsTo (FS.mounted (sampleDisk 128 1000 4 132) default)
    blockMapRun (fun _ => true) = true by decide +kernel)
  refine ⟨s, hs, ?_⟩
  apply block_map_keeps (sampleDisk_mounted 128 1000 4 132 default) (by decide +kernel)
    reserved_sampleDisk
  refine Reach.of_runOps (fun _ x _ hx => ?_) .refl hs
  simp only [blockMapRun, List.mem_cons, List.not_mem_nil, or_false] at hx
  rcases hx with rfl | rfl | rfl <;> trivial

/-- On a device whose data starts at block 1, the first `create` puts the root's
records over the superblock. -/
theorem block_map_over_superblock : ¬ ∀ (disk : Nat → Bytes) (s0 s : FS), Mounted disk s0 →
    0 < Disk.dataStart disk → Disk.dataStart disk ≤ Disk.totalBlocks disk →
    Disk.totalBlocks disk ≤ 4096 → Reach (fun _ op _ _ => op.cached) s0 s →
    (∀ id nd, s.inodes id = some nd → nd.Prefix (Disk.InData disk)) ∧
      ∀ c, Disk.Metadata disk c → s.cache c = disk c := by
  intro hall
  obtain ⟨s, hs, hcheck⟩ := exists_of_runsTo
    (show runsTo (FS.mounted (sampleDisk 64 64 4 1) default)
      [(.create 0 (.letters 1 (by decide) (by decide)) 0o644, Answers.good default 0 0)]
      (fun s => decide (SuperBlock.magic (s.cache 1) ≠ naiveMagic)) = true by decide +kernel)
  have hreach : Reach (fun _ op _ _ => op.cached)
    (FS.mounted (sampleDisk 64 64 4 1) default) s := by
    refine Reach.of_runOps (fun _ x _ hx => ?_) .refl hs
    simp only [List.mem_cons, List.not_mem_nil, or_false] at hx
    cases hx
    trivial
  have hkept := (hall _ _ s (sampleDisk_mounted 64 64 4 1 default) (by decide +kernel)
    (by decide +kernel) (by decide +kernel) hreach).2 1 (.inl (by decide))
  rw [hkept] at hcheck
  exact of_decide_eq_true hcheck (by decide +kernel)

end NaiveFS
