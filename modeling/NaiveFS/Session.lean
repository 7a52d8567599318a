import NaiveFS.Run

/-!
# What a session keeps of the mount

Two invariants of every run in which the inodes stay cached. `Rooted`: the root
stays a directory in memory and no name leads to it. `Above`, on a device laid
out with its inode table and its data above the two bitmaps: the superblock and
the bitmaps on the device stay as they were, and what the session allocates was
free in them.
-/

namespace NaiveFS

open Bytes

/-! ## The root -/

/-- The root is a directory at address 0 that no dentry leads to. -/
structure FS.Rooted (s : FS) : Prop where
  sRoot : s.sRoot = 0
  pos : 0 < s.nextInode
  root : ∃ nd, s.inodes 0 = some nd ∧ nd.isDir = true
  dentry : ∀ dir name id, s.dcache dir name = some id → id ≠ 0

section Rooted

variable {ans : Answers} {s t : FS} {id dir : Nat} {d nd nd' : Inode} {name : Name} {r : Int}

theorem FS.Rooted.same (h : s.Rooted) (t : FS)
    (ht : t.sRoot = s.sRoot ∧ t.nextInode = s.nextInode ∧ t.inodes = s.inodes ∧
      t.dcache = s.dcache) : t.Rooted := by
  obtain ⟨h1, h2, h3, h4⟩ := ht
  refine ⟨h1.trans h.sRoot, h2 ▸ h.pos, h3 ▸ h.root, h4 ▸ h.dentry⟩

theorem FS.Rooted.setInode (h : s.Rooted) (hnd : s.inodes id = some nd)
    (hmode : nd'.iMode = nd.iMode) : (s.setInode id nd').Rooted := by
  refine ⟨h.sRoot, h.pos, ?_, h.dentry⟩
  obtain ⟨e, he, hdir⟩ := h.root
  by_cases hid : id = 0
  · subst hid
    obtain rfl := Option.some.inj (hnd.symm.trans he)
    refine ⟨nd', FS.inodes_setInode_self, ?_⟩
    rwa [Inode.isDir, hmode]
  · exact ⟨e, (FS.inodes_setInode_ne (Ne.symm hid)).trans he, hdir⟩

theorem FS.Rooted.withNew (h : s.Rooted) (nd : Inode) : (s.withNew nd).Rooted := by
  have hpos := h.pos
  refine ⟨h.sRoot, Nat.succ_pos _, ?_, h.dentry⟩
  obtain ⟨e, he, hdir⟩ := h.root
  exact ⟨e, (FS.inodes_withNew_ne (by omega)).trans he, hdir⟩

theorem FS.Rooted.dropInode (h : s.Rooted) (hid : id ≠ 0) : (s.dropInode id).Rooted := by
  refine ⟨h.sRoot, h.pos, ?_, h.dentry⟩
  obtain ⟨e, he, hdir⟩ := h.root
  exact ⟨e, (FS.inodes_dropInode_ne (Ne.symm hid)).trans he, hdir⟩

theorem FS.Rooted.setDentry {x : Option Nat} (h : s.Rooted) (hx : x ≠ some 0) :
    (s.setDentry dir name x).Rooted := by
  refine ⟨h.sRoot, h.pos, h.root, fun dir' name' id hid => ?_⟩
  rw [FS.dcache_setDentry] at hid
  split at hid
  · exact fun h0 => hx (by rw [hid, h0])
  · exact h.dentry dir' name' id hid

theorem FS.Rooted.mapInode {f : Inode → Inode} (h : s.Rooted) (id : Nat)
    (hf : ∀ nd, (f nd).iMode = nd.iMode) : (s.mapInode id f).Rooted := by
  unfold FS.mapInode
  split
  · rename_i nd hnd
    exact h.setInode hnd (hf nd)
  · exact h

theorem FS.Rooted.removed (h : s.Rooted) (hid : id ≠ 0) (dir : Nat) (name : Name) (nd : Inode) :
    (s.removed dir name id nd).Rooted := by
  obtain ⟨bm, im, hrel⟩ := s.released_frame nd
  have hreleased : (s.released nd).Rooted := by
    rw [hrel]
    exact h.same _ ⟨rfl, rfl, rfl, rfl⟩
  exact (hreleased.setDentry (by simp)).dropInode hid

theorem attachBlock_iMode (nd : Inode) (c : Int) : (attachBlock nd c).iMode = nd.iMode := by
  unfold attachBlock
  split <;> rfl

theorem AddEntry.rooted {ino : Int} (h : s.Rooted) (hd : s.inodes dir = some d)
    (he : AddEntry ans s dir d name ino r t) : t.Rooted := by
  cases he with
  | filled | unreadable | noSpace => exact h.same _ ⟨rfl, rfl, rfl, rfl⟩
  | newUnreadable => exact h.setInode hd (attachBlock_iMode d _)
  | @grown b _ _ _ =>
      exact FS.Rooted.setInode (s := (s.markBlock b).putFirst b name ino)
        (h.same _ ⟨rfl, rfl, rfl, rfl⟩) hd (attachBlock_iMode d _)

theorem Create.rooted {mode : Nat} (hs : s.Ready) (h : s.Rooted) (hd : s.inodes dir = some d)
    (hc : Create ans s dir d name mode r t) : t.Rooted := by
  have hne : s.nextInode ≠ 0 := Nat.ne_of_gt h.pos
  have hmade (ino : Nat) : (s.fileMade ans d mode ino).Rooted :=
    (h.withNew (Inode.newFile ans d mode ino)).same _ ⟨rfl, rfl, rfl, rfl⟩
  cases hc with
  | noInode | noMemory => exact h
  | notLinked free mem entry fail =>
      exact (entry.rooted (hmade _) (hs.inodes_fileMade hd)).dropInode hne
  | linked free mem entry =>
      exact (entry.rooted (hmade _) (hs.inodes_fileMade hd)).setDentry (by simpa using hne)

theorem Mkdir.rooted {mode : Nat} (hs : s.Ready) (h : s.Rooted) (hd : s.inodes dir = some d)
    (hm : Mkdir ans s dir d name mode r t) : t.Rooted := by
  have hne : s.nextInode ≠ 0 := Nat.ne_of_gt h.pos
  have hmade (ino b : Nat) : (s.dirMade ans d mode ino b).Rooted :=
    (h.withNew (Inode.newDir ans d mode ino b)).same _ ⟨rfl, rfl, rfl, rfl⟩
  cases hm with
  | noInode | noMemory => exact h
  | noBlock | blockUnreadable => exact ⟨h.sRoot, Nat.succ_pos _, h.root, h.dentry⟩
  | notLinked free mem block read entry fail =>
      have ht := entry.rooted (hmade _ _) (hs.inodes_dirMade hd)
      exact (ht.same (FS.unmarkBlock _ _) ⟨rfl, rfl, rfl, rfl⟩).dropInode hne
  | linked free mem block read entry =>
      have ht := entry.rooted (hmade _ _) (hs.inodes_dirMade hd)
      exact FS.Rooted.setDentry (s := FS.mapInode _ dir Inode.addLink)
        (ht.mapInode dir fun _ => rfl)
        (by simpa using hne)

theorem Unlink.rooted (h : s.Rooted) (hu : Unlink ans s dir name r t) : t.Rooted := by
  cases hu with
  | noDentry | notRemoved => exact h
  | removed dentry =>
      exact FS.Rooted.removed (h.same (s.clearRecord _ _ _) ⟨rfl, rfl, rfl, rfl⟩)
        (h.dentry _ _ _ dentry) _ _ _

theorem Rmdir.rooted (h : s.Rooted) (hu : Rmdir ans s dir name r t) : t.Rooted := by
  cases hu with
  | noDentry | notDir | unreadable | notEmpty | notRemoved => exact h
  | @removed d nd id i j dentry =>
      have hcleared : (s.clearRecord d i j).Rooted := h.same _ ⟨rfl, rfl, rfl, rfl⟩
      exact (hcleared.mapInode (f := Inode.dropLink) dir fun _ => rfl).removed
        (h.dentry _ _ _ dentry) dir name nd

theorem Extend.rooted (h : s.Rooted) (he : Extend id s t) : t.Rooted := by
  induction he with
  | refl => exact h
  | @step t b nd _ _ node _ _ ih =>
      exact FS.Rooted.setInode (s := t.markBlock b) (ih.same _ ⟨rfl, rfl, rfl, rfl⟩) node rfl

theorem Write.rooted (h : s.Rooted) (hw : Write s id r t) : t.Rooted := by
  cases hw with
  | tooBig => exact h
  | noSpace grow => exact grow.rooted h
  | written grow node data same =>
      have hu := (grow.rooted h).same _ ⟨data.sRoot, data.nextInode, data.inodes, data.dcache⟩
      exact hu.setInode (by rw [data.inodes, node]) same.iMode

/-- Every step with the inodes staying cached keeps the root. -/
theorem Step.rooted {op : Op} (hs : s.Ready) (h : s.Rooted) (hop : op.cached)
    (hstep : Step s op ans r t) : t.Rooted := by
  cases op with
  | create dir name perm =>
      obtain ⟨d, hd, hcases⟩ := naiveCreate_cases hs hstep
      exact hcases.rooted hs h hd
  | mkdir dir name mode =>
      obtain ⟨d, hd, hcases⟩ := naiveMkdir_cases hs hstep
      exact hcases.rooted hs h hd
  | unlink dir name => exact (vfsUnlink_cases hs hstep).rooted h
  | rmdir dir name => exact (vfsRmdir_cases hs hstep).rooted h
  | write id data pos =>
      obtain ⟨q, u, hwrite, hend⟩ := Prog.exec_bind_ok.mp hstep
      cases hend
      exact (naiveFileWrite_cases hs hwrite).rooted h
  | lookup => exact hop.elim

theorem rooted_mounted (disk : Nat → Bytes) (ts : Timespec) : (FS.mounted disk ts).Rooted := by
  refine ⟨rfl, Nat.one_pos, ⟨_, rfl, ?_⟩, fun _ _ _ h => ?_⟩
  · show sIsdir (sIfdir ||| 0o755) = true
    decide
  · cases h

end Rooted

/-! ## Above the bitmaps -/

/-- The data blocks and the inode table lie behind the superblock and the bitmaps. -/
structure Laid (disk : Nat → Bytes) : Prop where
  data : 4 ≤ toInt32 (SuperBlock.dataBlockNo (disk naiveSuperBlockBlock))
  table : 4 ≤ toInt32 (SuperBlock.inodeTableBlockNo (disk naiveSuperBlockBlock))

/-- The pointer is 0, or a data block that the device's bitmap has as free. -/
def FreeOn (disk : Nat → Bytes) (p : Int) : Prop :=
  p = 0 ∨ (4 ≤ p ∧ p < 4096 ∧ (disk 2).bit p.toNat = false)

/-- The inode at `id` is the root, or its number was free on the device; so were
its blocks. -/
structure AboveInode (disk : Nat → Bytes) (id : Nat) (nd : Inode) : Prop where
  number : if id = 0 then nd.iIno = naiveRootInodeNo
    else 1 ≤ nd.iIno ∧ nd.iIno ≤ 4096 ∧ (disk 3).bit (nd.iIno - 1) = false
  pointers : ∀ i, i < 8 → FreeOn disk (nd.blockPointers i)

/-- The session uses only what was free on the device. -/
structure FS.Above (disk : Nat → Bytes) (s : FS) : Prop where
  device : s.disk = disk
  cache : ∀ c, 1 ≤ c → c < 4 → s.cache c = disk c
  node : ∀ id nd, s.inodes id = some nd → AboveInode disk id nd
  marked : ∀ b, b < 4096 → (disk 2).bit b = true → s.marked b = true
  inoMarked : ∀ n, n < 4096 → (disk 3).bit n = true → s.sbi.inodeBitmap.bit n = true

section Above

variable {disk : Nat → Bytes} {ans : Answers} {s t : FS} {id dir b : Nat} {d nd nd' : Inode}
  {name : Name} {r p : Int}

theorem AboveInode.congr (h : AboveInode disk id nd) (hino : nd'.iIno = nd.iIno)
    (hptr : ∀ i, i < 8 → FreeOn disk (nd'.blockPointers i)) : AboveInode disk id nd' := by
  refine ⟨?_, hptr⟩
  rw [hino]
  exact h.number

theorem FS.Above.same (h : s.Above disk) (t : FS)
    (ht : t.disk = s.disk ∧ t.cache = s.cache ∧ t.inodes = s.inodes ∧ t.sbi = s.sbi) :
    t.Above disk := by
  obtain ⟨h1, h2, h3, h4⟩ := ht
  refine ⟨h1.trans h.device, fun c hc hc' => ?_, fun id nd hnd => ?_, fun b hb hbit => ?_,
    fun n hn hbit => ?_⟩
  · rw [h2]
    exact h.cache c hc hc'
  · exact h.node id nd (by rw [← h3, hnd])
  · rw [FS.marked, h4]
    exact h.marked b hb hbit
  · rw [h4]
    exact h.inoMarked n hn hbit

/-- The next free block is a data block that was free on the device. -/
theorem FS.Above.freeOn (hl : Laid disk) (h : s.Above disk) (free : s.NextFree b) :
    4 ≤ b ∧ (disk 2).bit b = false := by
  have hstart := free.start
  have hdata := hl.data
  have hsb : s.dataStart = toInt32 (SuperBlock.dataBlockNo (disk naiveSuperBlockBlock)) := by
    have hcache : s.block naiveSuperBlockBlock = disk naiveSuperBlockBlock :=
      h.cache 1 (by decide) (by decide)
    rw [FS.dataStart, hcache]
  refine ⟨by omega, ?_⟩
  by_contra hbit
  have := h.marked b free.bitmap (by simpa using hbit)
  rw [free.clear] at this
  cases this

theorem FS.Above.freeOn_int (hl : Laid disk) (h : s.Above disk) (free : s.NextFree b) :
    FreeOn disk b := by
  obtain ⟨hlow, hbit⟩ := h.freeOn hl free
  exact .inr ⟨by omega, by have := free.bitmap; omega, by rwa [Int.toNat_natCast]⟩

theorem FS.Above.markBlock (h : s.Above disk) (b : Nat) : (s.markBlock b).Above disk := by
  refine ⟨h.device, h.cache, h.node, fun c hc hbit => ?_, h.inoMarked⟩
  unfold FS.marked FS.markBlock
  rw [bit_setBit, Bool.or_eq_true]
  exact .inr (h.marked c hc hbit)

theorem FS.Above.unmarkBlock (h : s.Above disk) (hbit : (disk 2).bit b = false) :
    (s.unmarkBlock b).Above disk := by
  refine ⟨h.device, h.cache, h.node, fun c hc hc' => ?_, h.inoMarked⟩
  have hne : c ≠ b := by
    rintro rfl
    rw [hbit] at hc'
    cases hc'
  unfold FS.marked FS.unmarkBlock
  rw [bit_clearBit, Bool.and_eq_true, decide_eq_true_eq]
  exact ⟨hne, h.marked c hc hc'⟩

theorem FS.Above.markInode (h : s.Above disk) (ino : Nat) : (s.markInode ino).Above disk := by
  refine ⟨h.device, h.cache, h.node, h.marked, fun n hn hbit => ?_⟩
  unfold FS.markInode
  simp only
  rw [bit_setBit, Bool.or_eq_true]
  exact .inr (h.inoMarked n hn hbit)

theorem FreeOn.toU64 (h : FreeOn disk p) : toU64 p = 0 ∨ 4 ≤ toU64 p := by
  unfold NaiveFS.toU64
  rcases h with rfl | ⟨hlow, hhigh, _⟩
  · exact .inl rfl
  · omega

theorem FS.Above.writeBlock (h : s.Above disk) (hp : toU64 p = 0 ∨ 4 ≤ toU64 p) (v : Bytes) :
    (s.writeBlock p v).Above disk := by
  refine ⟨h.device, fun c hc hc' => ?_, h.node, h.marked, h.inoMarked⟩
  exact (Function.update_of_ne (by omega) _ _).trans (h.cache c hc hc')

theorem FS.Above.setInode (h : s.Above disk) (hnd : AboveInode disk id nd) :
    (s.setInode id nd).Above disk := by
  refine ⟨h.device, h.cache, fun k e he => ?_, h.marked, h.inoMarked⟩
  by_cases hk : k = id
  · subst hk
    rw [FS.inodes_setInode_self] at he
    cases he
    exact hnd
  · rw [FS.inodes_setInode_ne hk] at he
    exact h.node k e he

theorem FS.Above.withNew (h : s.Above disk) (hnd : AboveInode disk s.nextInode nd) :
    (s.withNew nd).Above disk :=
  (h.setInode hnd).same _ ⟨rfl, rfl, rfl, rfl⟩

theorem FS.Above.dropInode (h : s.Above disk) (id : Nat) : (s.dropInode id).Above disk := by
  refine ⟨h.device, h.cache, fun k e he => ?_, h.marked, h.inoMarked⟩
  by_cases hk : k = id
  · rw [hk, FS.inodes_dropInode_self] at he
    cases he
  · rw [FS.inodes_dropInode_ne hk] at he
    exact h.node k e he

theorem FS.Above.mapInode {f : Inode → Inode} (h : s.Above disk) (id : Nat)
    (hf : ∀ nd, (f nd).iIno = nd.iIno ∧ (f nd).blockPointers = nd.blockPointers) :
    (s.mapInode id f).Above disk := by
  unfold FS.mapInode
  split
  · rename_i nd hnd
    obtain ⟨hino, hptr⟩ := hf nd
    exact h.setInode ((h.node id nd hnd).congr hino fun i hi => by
      rw [hptr]
      exact (h.node id nd hnd).pointers i hi)
  · exact h

/-- Releasing an inode of the session clears no bit that is set on the device. -/
theorem FS.Above.released (h : s.Above disk) (hid : id ≠ 0) (hnd : AboveInode disk id nd)
    (hrel : nd.Releasable) : (s.released nd).Above disk := by
  have hnumber := hnd.number
  rw [if_neg hid] at hnumber
  obtain ⟨hpos, hle, hbit⟩ := hnumber
  have hcount := hrel.count
  obtain ⟨bm, im, hframe⟩ := s.released_frame nd
  refine ⟨?_, ?_, ?_, fun b hb hb' => ?_, fun n hn hn' => ?_⟩
  · rw [hframe]
    exact h.device
  · rw [hframe]
    exact h.cache
  · rw [FS.released_inodes]
    exact h.node
  · show (s.freedSlots nd nd.blockCount.toNat 0).marked b = true
    rw [FS.marked_freedSlots hb]
    refine ⟨h.marked b hb hb', fun k _ hk hne heq => ?_⟩
    rcases hnd.pointers k (by omega) with hz | ⟨_, _, hclear⟩
    · exact hne hz
    · rw [heq, Int.toNat_natCast, hb'] at hclear
      cases hclear
  · obtain ⟨bm', hslots⟩ := s.freedSlots_frame nd nd.blockCount.toNat 0
    have hino : toInt32 nd.iIno = nd.iIno := toInt32_of_small (by omega) (by omega)
    show ((s.freedSlots nd nd.blockCount.toNat 0).numberFreed
      (toInt32 nd.iIno)).sbi.inodeBitmap.bit n = true
    rw [hino, hslots]
    rw [FS.numberFreed_of_pos (by omega), Int.toNat_natCast]
    unfold FS.unmarkInode
    simp only
    rw [bit_clearBit, Bool.and_eq_true, decide_eq_true_eq]
    refine ⟨?_, h.inoMarked n hn hn'⟩
    rintro rfl
    rw [hbit] at hn'
    cases hn'

theorem FS.Above.removed (h : s.Above disk) (hid : id ≠ 0) (hnd : AboveInode disk id nd)
    (hrel : nd.Releasable) (dir : Nat) (name : Name) : (s.removed dir name id nd).Above disk :=
  ((h.released hid hnd hrel).same ((s.released nd).setDentry dir name none)
    ⟨rfl, rfl, rfl, rfl⟩).dropInode id

/-! ### Each operation -/

theorem AboveInode.attach (h : AboveInode disk id nd) (hp : FreeOn disk p) :
    AboveInode disk id (attachBlock nd p) := by
  unfold attachBlock
  split
  · rename_i j _
    refine h.congr rfl fun i hi => ?_
    show FreeOn disk (Function.update nd.blockPointers j p i)
    rw [Function.update_apply]
    split
    · exact hp
    · exact h.pointers i hi
  · exact h

theorem AddEntry.above {ino : Int} (hl : Laid disk) (h : s.Above disk) (hd : s.inodes dir = some d)
    (he : AddEntry ans s dir d name ino r t) : t.Above disk := by
  have hdir := h.node dir d hd
  cases he with
  | @filled i j stop =>
      exact (h.writeBlock (hdir.pointers i stop.slot.bound).toU64 _).same _ ⟨rfl, rfl, rfl, rfl⟩
  | unreadable | noSpace => exact h
  | newUnreadable full free unread => exact h.setInode (hdir.attach (h.freeOn_int hl free))
  | @grown b full free read =>
      have hfree := h.freeOn_int hl free
      have hput : ((s.markBlock b).putFirst b name ino).Above disk :=
        (h.markBlock b).writeBlock hfree.toU64 _
      exact hput.setInode ((hdir.attach hfree).congr rfl (hdir.attach hfree).pointers)

/-- A new inode takes a number that was free on the device. -/
theorem FS.Above.newInode (h : s.Above disk) (hr : s.Rooted) {ino : Nat} (free : s.NextIno ino)
    (hino : nd.iIno = ino) (hptr : ∀ i, i < 8 → FreeOn disk (nd.blockPointers i)) :
    AboveInode disk s.nextInode nd := by
  refine ⟨?_, hptr⟩
  have hpos := free.pos
  have hle := free.bitmap
  rw [if_neg (Nat.ne_of_gt hr.pos), hino]
  refine ⟨hpos, hle, ?_⟩
  by_contra hbit
  have := h.inoMarked (ino - 1) (by omega) (by simpa using hbit)
  rw [show s.sbi.inodeBitmap.bit (ino - 1) = s.inoMarked ino from rfl, free.clear] at this
  cases this

theorem initOwner_fields (nd d : Inode) (uid gid mode : Nat) :
    (nd.initOwner d uid gid mode).iIno = nd.iIno ∧
      (nd.initOwner d uid gid mode).blockPointers = nd.blockPointers ∧
      (nd.initOwner d uid gid mode).blockCount = nd.blockCount := by
  unfold Inode.initOwner
  split <;> exact ⟨rfl, rfl, rfl⟩

theorem FS.Above.fileMade {mode ino : Nat} (h : s.Above disk) (hr : s.Rooted)
    (free : s.NextIno ino) : (s.fileMade ans d mode ino).Above disk := by
  obtain ⟨hino, hptr, _⟩ := initOwner_fields { iNlink := 1, iIno := ino } d (ans .currentFsuid)
    (ans .currentFsgid) mode
  have hnew : AboveInode disk s.nextInode (Inode.newFile ans d mode ino) :=
    h.newInode hr free hino fun i _ => .inl (congrFun hptr i)
  exact (h.withNew hnew).markInode ino

theorem FS.Above.dirMade {mode ino : Nat} (hl : Laid disk) (h : s.Above disk) (hr : s.Rooted)
    (free : s.NextIno ino) (block : s.NextFree b) : (s.dirMade ans d mode ino b).Above disk := by
  obtain ⟨hino, hptr, _⟩ := initOwner_fields { iNlink := 1, iIno := ino } d (ans .currentFsuid)
    (ans .currentFsgid) (sIfdir ||| (mode &&& 0o777))
  have hfree := h.freeOn_int hl block
  have hput : ((s.markBlock b).writeBlock b (dotBlock (s.block b) ino d.iIno)).Above disk :=
    (h.markBlock b).writeBlock hfree.toU64 _
  have hnew : AboveInode disk s.nextInode (Inode.newDir ans d mode ino b) := by
    refine h.newInode hr free hino fun i _ => ?_
    unfold Inode.newDir
    dsimp only
    rw [Function.update_apply]
    split
    · exact hfree
    · exact .inl (congrFun hptr i)
  exact (hput.withNew hnew).markInode ino

theorem Create.above {mode : Nat} (hl : Laid disk) (hs : s.Ready) (hr : s.Rooted)
    (h : s.Above disk) (hd : s.inodes dir = some d) (hc : Create ans s dir d name mode r t) :
    t.Above disk := by
  cases hc with
  | noInode | noMemory => exact h
  | notLinked free mem entry fail =>
      exact (entry.above hl (h.fileMade hr free) (hs.inodes_fileMade hd)).dropInode _
  | linked free mem entry =>
      exact (entry.above hl (h.fileMade hr free) (hs.inodes_fileMade hd)).same _
        ⟨rfl, rfl, rfl, rfl⟩

theorem Mkdir.above {mode : Nat} (hl : Laid disk) (hs : s.Ready) (hr : s.Rooted)
    (h : s.Above disk) (hd : s.inodes dir = some d) (hm : Mkdir ans s dir d name mode r t) :
    t.Above disk := by
  cases hm with
  | noInode | noMemory => exact h
  | noBlock | blockUnreadable => exact h.same _ ⟨rfl, rfl, rfl, rfl⟩
  | notLinked free mem block read entry fail =>
      have ht := entry.above hl (h.dirMade hl hr free block) (hs.inodes_dirMade hd)
      exact (ht.unmarkBlock (h.freeOn hl block).2).dropInode _
  | linked free mem block read entry =>
      have ht := entry.above hl (h.dirMade hl hr free block) (hs.inodes_dirMade hd)
      exact (ht.mapInode (f := Inode.addLink) dir fun _ => ⟨rfl, rfl⟩).same _ ⟨rfl, rfl, rfl, rfl⟩

theorem FS.Above.clearRecord {i j : Nat} (h : s.Above disk) (hd : s.inodes dir = some d)
    (hi : i < 8) : (s.clearRecord d i j).Above disk :=
  h.writeBlock ((h.node dir d hd).pointers i hi).toU64 _

theorem Unlink.above (hr : s.Rooted) (h : s.Above disk) (hu : Unlink ans s dir name r t) :
    t.Above disk := by
  cases hu with
  | noDentry | notRemoved => exact h
  | removed dentry parent target node stop =>
      exact (h.clearRecord parent stop.slot.bound).removed (hr.dentry _ _ _ dentry)
        (h.node _ _ target) node _ _

theorem Rmdir.above (hr : s.Rooted) (h : s.Above disk) (hu : Rmdir ans s dir name r t) :
    t.Above disk := by
  cases hu with
  | noDentry | notDir | unreadable | notEmpty | notRemoved => exact h
  | @removed d nd id i j dentry parent target node isDir empty stop =>
      exact ((h.clearRecord parent stop.slot.bound).mapInode (f := Inode.dropLink) dir
        fun _ => ⟨rfl, rfl⟩).removed (hr.dentry _ _ _ dentry) (h.node _ _ target) node _ _

theorem Extend.above (hl : Laid disk) (h : s.Above disk) (he : Extend id s t) : t.Above disk := by
  induction he with
  | refl => exact h
  | @step t b nd _ free node low room ih =>
      refine (ih.markBlock b).setInode ((ih.node id nd node).congr rfl fun i hi => ?_)
      show FreeOn disk (Function.update nd.blockPointers nd.blockCount.toNat (b : Int) i)
      rw [Function.update_apply]
      split
      · exact ih.freeOn_int hl free
      · exact (ih.node id nd node).pointers i hi

theorem Write.above (hl : Laid disk) (h : s.Above disk) (hw : Write s id r t) : t.Above disk := by
  cases hw with
  | tooBig => exact h
  | noSpace grow => exact grow.above hl h
  | @written t u nd nd' r grow node data same =>
      have ht := grow.above hl h
      have hnode := ht.node id nd node
      have hu : u.Above disk := by
        refine ⟨data.disk.trans ht.device, fun c hc hc' => ?_, fun k e he => ?_, ?_, ?_⟩
        · rw [data.cache c fun k hk _ => ?_]
          · exact ht.cache c hc hc'
          · have := (hnode.pointers k hk).toU64
            omega
        · exact ht.node k e (by rw [← data.inodes, he])
        · intro b hb hbit
          rw [FS.marked, data.sbi]
          exact ht.marked b hb hbit
        · intro n hn hbit
          rw [data.sbi]
          exact ht.inoMarked n hn hbit
      exact hu.setInode (hnode.congr same.iIno fun i hi => by
        rw [same.blockPointers]
        exact hnode.pointers i hi)

/-- Every step with the inodes staying cached stays above the bitmaps. -/
theorem Step.above {op : Op} (hl : Laid disk) (hs : s.Ready) (hr : s.Rooted) (h : s.Above disk)
    (hop : op.cached) (hstep : Step s op ans r t) : t.Above disk := by
  cases op with
  | create dir name perm =>
      obtain ⟨d, hd, hcases⟩ := naiveCreate_cases hs hstep
      exact hcases.above hl hs hr h hd
  | mkdir dir name mode =>
      obtain ⟨d, hd, hcases⟩ := naiveMkdir_cases hs hstep
      exact hcases.above hl hs hr h hd
  | unlink dir name => exact (vfsUnlink_cases hs hstep).above hr h
  | rmdir dir name => exact (vfsRmdir_cases hs hstep).above hr h
  | write id data pos =>
      obtain ⟨q, u, hwrite, hend⟩ := Prog.exec_bind_ok.mp hstep
      cases hend
      exact (naiveFileWrite_cases hs hwrite).above hl h
  | lookup => exact hop.elim

theorem above_mounted (disk : Nat → Bytes) (ts : Timespec) :
    (FS.mounted disk ts).Above disk := by
  refine ⟨rfl, fun _ _ _ => rfl, fun id nd hnd => ?_, fun _ _ h => h, fun _ _ h => h⟩
  by_cases hid : id = 0
  · subst hid
    cases hnd
    exact ⟨by rw [if_pos rfl]; rfl, fun i _ => .inl rfl⟩
  · simp [FS.mounted, hid] at hnd

end Above

/-- Both invariants along a run. -/
theorem Reach.session {P : FS → Op → Answers → Int → Prop} {disk : Nat → Bytes} {s0 s : FS}
    (h0 : Mounted disk s0) (h : Reach P s0 s) (hP : ∀ s op ans r, P s op ans r → op.cached) :
    s.Ready ∧ s.Rooted ∧ (Laid disk → s.Above disk) := by
  obtain ⟨_, ts, rfl⟩ := mounted_eq h0
  refine h.invariant (I := fun s => s.Ready ∧ s.Rooted ∧ (Laid disk → s.Above disk))
    ⟨h0.ready, rooted_mounted disk ts, fun _ => above_mounted disk ts⟩ ?_
  rintro t op ans r u ⟨hs, hr, ha⟩ hp hstep
  have hop := hP _ _ _ _ hp
  exact ⟨hstep.ready hs, hstep.rooted hs hr hop, fun hl => hstep.above hl hs hr (ha hl) hop⟩

end NaiveFS
