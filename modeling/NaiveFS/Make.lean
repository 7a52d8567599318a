import NaiveFS.Entries

/-!
# What `naive_create` and `naive_mkdir` do

One relation for each of the two: its return values and the state it leaves, as
updates of the state before. A run from a state that a mount can lead to is one
of the cases.
-/

namespace NaiveFS

open Bytes

/-- What holds of every state after a mount: the block bitmap is one block, and
the next inode is allocated where there is none. -/
structure FS.Ready (s : FS) : Prop where
  bitmapBlocks : s.sbi.blockBitmapBlocks = 1
  fresh : ∀ id, s.nextInode ≤ id → s.inodes id = none

/-! ## New inodes -/

namespace FS

/-- `ino` is the number `naive_find_free_inode` returns. -/
structure NextIno (s : FS) (ino : Nat) : Prop where
  pos : 1 ≤ ino
  bitmap : ino ≤ 4096
  total : (ino : Int) ≤ 8 * s.totalInodes.tdiv 8
  clear : s.inoMarked ino = false
  least : ∀ m, 1 ≤ m → m < ino → s.inoMarked m = true

/-- `naive_find_free_inode` finds nothing. -/
def NoIno (s : FS) : Prop :=
  ∀ m : Nat, 1 ≤ m → (m : Int) ≤ 8 * s.totalInodes.tdiv 8 → s.inoMarked m = true

/-- There is at most one next free number. -/
theorem NextIno.unique {s : FS} {i j : Nat} (hi : s.NextIno i) (hj : s.NextIno j) : i = j := by
  rcases Nat.lt_trichotomy i j with hlt | heq | hgt
  · have := hj.least i hi.pos hlt
    rw [hi.clear] at this
    cases this
  · exact heq
  · have := hi.least j hj.pos hgt
    rw [hj.clear] at this
    cases this

theorem NextIno.not_noIno {s : FS} {ino : Nat} (h : s.NextIno ino) : ¬ s.NoIno := by
  intro hf
  have := hf ino h.pos h.total
  rw [h.clear] at this
  cases this

/-- Put a new inode where `new_inode` allocates it. -/
def withNew (s : FS) (nd : Inode) : FS :=
  { s.setInode s.nextInode nd with nextInode := s.nextInode + 1 }

/-- Assign to an inode if it is in memory. -/
def mapInode (s : FS) (id : Nat) (f : Inode → Inode) : FS :=
  match s.inodes id with
  | some nd => s.setInode id (f nd)
  | none => s

variable {s : FS} {id dir : Nat} {nd nd' d : Inode}

@[simp] theorem inodes_withNew_self : (s.withNew nd).inodes s.nextInode = some nd :=
  inodes_setInode_self

theorem inodes_withNew_ne (h : id ≠ s.nextInode) : (s.withNew nd).inodes id = s.inodes id :=
  inodes_setInode_ne h

theorem Ready.ne_next (hs : s.Ready) (h : s.inodes dir = some d) : dir ≠ s.nextInode := by
  rintro rfl
  rw [hs.fresh _ (Nat.le_refl _)] at h
  cases h

theorem Ready.inodes_withNew (hs : s.Ready) (h : s.inodes dir = some d) :
    (s.withNew nd).inodes dir = some d := by
  rw [inodes_withNew_ne (hs.ne_next h), h]

@[simp] theorem setInode_withNew :
    (s.withNew nd).setInode s.nextInode nd' = s.withNew nd' := by
  unfold withNew setInode
  simp

/-- A new inode dropped at once leaves only its address used. -/
theorem Ready.dropInode_withNew (hs : s.Ready) :
    (s.withNew nd).dropInode s.nextInode = { s with nextInode := s.nextInode + 1 } := by
  have hnone : Function.update s.inodes s.nextInode none = s.inodes := by
    rw [← hs.fresh s.nextInode (Nat.le_refl _), Function.update_eq_self]
  unfold withNew setInode dropInode
  simp [hnone]

theorem mapInode_of (h : s.inodes id = some nd) (f : Inode → Inode) :
    s.mapInode id f = s.setInode id (f nd) := by
  rw [mapInode, h]

/-- The allocator sees the bitmap and the superblock only. -/
theorem NextFree.congr {t : FS} {b : Nat} (hbm : t.sbi.blockBitmap = s.sbi.blockBitmap)
    (hsb : t.block naiveSuperBlockBlock = s.block naiveSuperBlockBlock) (h : t.NextFree b) :
    s.NextFree b := by
  have hds : t.dataStart = s.dataStart := by rw [dataStart, hsb, dataStart]
  have htb : t.totalBlocks = s.totalBlocks := by rw [totalBlocks, hsb, totalBlocks]
  have hm : ∀ k, t.marked k = s.marked k := fun k => by rw [marked, hbm, marked]
  exact ⟨hds ▸ h.nonneg, hds ▸ h.start, htb ▸ h.total, h.bitmap, hm b ▸ h.clear,
    fun m hm1 hm2 => hm m ▸ h.least m (hds.symm ▸ hm1) hm2⟩

theorem Exhausted.congr {t : FS} (hbm : t.sbi.blockBitmap = s.sbi.blockBitmap)
    (hsb : t.block naiveSuperBlockBlock = s.block naiveSuperBlockBlock) (h : t.Exhausted) :
    s.Exhausted := by
  have hds : t.dataStart = s.dataStart := by rw [dataStart, hsb, dataStart]
  have htb : t.totalBlocks = s.totalBlocks := by rw [totalBlocks, hsb, totalBlocks]
  refine h.imp (fun hneg => hds ▸ hneg) fun hset k hk hk' => ?_
  have := hset k (by rw [hds]; exact hk) (by rw [htb]; exact hk')
  rw [marked, hbm] at this
  exact this

end FS

section Exec

variable {ans : Answers} {s t : FS} {id dir : Nat} {nd d : Inode} {r : Int}

theorem exec_findFreeInode (h : findFreeInode.exec ans s = .ok (r, t)) :
    t = s ∧ ((r = 0 ∧ s.NoIno) ∨ ∃ ino : Nat, r = ino ∧ s.NextIno ino) := by
  obtain ⟨rfl, ⟨rfl, hset⟩ | ⟨ino, rfl, h1, h2, h3, h4, h5⟩⟩ := exec_findFreeInode_cases h
  · refine ⟨rfl, .inl ⟨rfl, fun m hm hm' => hset (m - 1) ?_⟩⟩
    omega
  · exact ⟨rfl, .inr ⟨ino, rfl, h1, h2, h3, h4, h5⟩⟩

theorem exec_newInode_ok (h : ans .newInode = true) :
    newInode.exec ans s = .ok (some s.nextInode, s.withNew { iNlink := 1 }) := by
  have h' : (ans .newInode : Bool) = true := h
  simp [newInode, h', FS.withNew, FS.setInode]

theorem exec_newInode_fail (h : ans .newInode = false) :
    newInode.exec ans s = .ok (none, s) := by
  have h' : (ans .newInode : Bool) = false := h
  simp [newInode, h']

/-- An assignment that runs assigns to an inode in memory. -/
theorem exec_updInode_ok {f : Inode → Inode} (h : (updInode id f).exec ans s = .ok ((), t)) :
    ∃ nd, s.inodes id = some nd ∧ t = s.setInode id (f nd) := by
  rw [updInode] at h
  obtain ⟨nd, u, hnd, h1⟩ := Prog.exec_bind_ok.mp h
  obtain ⟨hnd, rfl⟩ := exec_inode_ok hnd
  cases h1
  exact ⟨nd, hnd, rfl⟩

theorem toU64_ino {ino : Nat} (h : ino ≤ 4096) : toU64 (ino : Int) = ino :=
  toU64_natCast (by omega)

end Exec

/-! ## `naive_create` -/

/-- The inode `naive_create` sets up. -/
def Inode.newFile (ans : Answers) (d : Inode) (mode ino : Nat) : Inode :=
  { ((({ iNlink := 1, iIno := ino } : Inode).initOwner d (ans .currentFsuid) (ans .currentFsgid)
      mode).setTimes (ans .ktime)) with iNlink := 1, iSize := 0 }

/-- The state in which `naive_create` adds the entry. -/
def FS.fileMade (s : FS) (ans : Answers) (d : Inode) (mode ino : Nat) : FS :=
  (s.withNew (Inode.newFile ans d mode ino)).markInode ino

theorem FS.Ready.inodes_fileMade {s : FS} {ans : Answers} {dir mode ino : Nat} {d nd : Inode}
    (hs : s.Ready) (h : s.inodes dir = some nd) :
    (s.fileMade ans d mode ino).inodes dir = some nd := hs.inodes_withNew h

/-- What `naive_create` returns and leaves, called on a directory that is `d`. -/
inductive Create (ans : Answers) (s : FS) (dir : Nat) (d : Inode) (name : Name) (mode : Nat) :
    Int → FS → Prop where
  | noInode (full : s.NoIno) : Create ans s dir d name mode (-ENOSPC) s
  | noMemory {ino : Nat} (free : s.NextIno ino) (mem : ans .newInode = false) :
      Create ans s dir d name mode (-ENOMEM) s
  | notLinked {ino : Nat} {r : Int} {t : FS} (free : s.NextIno ino) (mem : ans .newInode = true)
      (entry : AddEntry ans (s.fileMade ans d mode ino) dir d name ino r t) (fail : r < 0) :
      Create ans s dir d name mode r (t.dropInode s.nextInode)
  | linked {ino : Nat} {t : FS} (free : s.NextIno ino) (mem : ans .newInode = true)
      (entry : AddEntry ans (s.fileMade ans d mode ino) dir d name ino 0 t) :
      Create ans s dir d name mode 0 (t.setDentry dir name (some s.nextInode))

/-- `naive_add_entry` returns 0 or a negative code. -/
theorem AddEntry.ret {ans : Answers} {s t : FS} {dir : Nat} {d : Inode} {name : Name}
    {ino r : Int} (h : AddEntry ans s dir d name ino r t) : r = 0 ∨ r < 0 := by
  cases h
  case filled | grown => exact .inl rfl
  case unreadable | noSpace | newUnreadable => exact .inr (by decide)

section Create

variable {ans : Answers} {s t : FS} {dir : Nat} {d : Inode} {name : Name} {mode : Nat} {r : Int}

/-- The end of `naive_create`, once the new inode is set up. -/
def createLink (dir : Nat) (name : Name) (id : Nat) (ino : Int) : K Int := do
  let ret ← naiveAddEntry dir name ino
  if ret < 0 then
    iput id
    pure ret
  else
  dInstantiate dir name id
  pure 0

/-- Setting up the inode of a new file. -/
theorem exec_createInode (ans : Answers) (name : Name) (mode : Nat) {ino : Nat} (hs : s.Ready)
    (hd : s.inodes dir = some d) (h1 : 1 ≤ ino) (h2 : ino ≤ 4096) :
    (createInode dir name mode s.nextInode ino).exec ans (s.withNew { iNlink := 1 })
      = (createLink dir name s.nextInode ino).exec ans (s.fileMade ans d mode ino) := by
  rw [createInode, Prog.exec_bind_of (exec_updInode FS.inodes_withNew_self), FS.setInode_withNew,
    Prog.exec_bind_of (exec_inodeInitOwner FS.inodes_withNew_self (hs.inodes_withNew hd)),
    FS.setInode_withNew, Prog.exec_bind_of exec_ktime,
    Prog.exec_bind_of (exec_updInode FS.inodes_withNew_self), FS.setInode_withNew,
    Prog.exec_bind_of (exec_updInode FS.inodes_withNew_self), FS.setInode_withNew,
    Prog.exec_bind_of (exec_setInodeBit h1 h2), toU64_ino h2]
  rfl

theorem createInode_cases {ino : Nat} (hs : s.Ready) (hd : s.inodes dir = some d)
    (free : s.NextIno ino) (mem : ans .newInode = true)
    (h : (createInode dir name mode s.nextInode ino).exec ans (s.withNew { iNlink := 1 })
      = .ok (r, t)) : Create ans s dir d name mode r t := by
  rw [exec_createInode ans name mode hs hd free.pos free.bitmap, createLink] at h
  obtain ⟨q, u, hentry, hend⟩ := Prog.exec_bind_ok.mp h
  have hmade : (s.fileMade ans d mode ino).inodes dir = some d := hs.inodes_fileMade hd
  have hcases : AddEntry ans (s.fileMade ans d mode ino) dir d name ino q u :=
    naiveAddEntry_cases hs.bitmapBlocks hmade hentry
  rcases hcases.ret with rfl | hneg
  · rw [if_neg (by decide)] at hend
    cases hend
    exact .linked free mem hcases
  · rw [if_pos hneg] at hend
    cases hend
    exact .notLinked free mem hcases hneg

theorem naiveCreate_cases (hs : s.Ready) (h : (naiveCreate dir name mode).exec ans s = .ok (r, t)) :
    ∃ d, s.inodes dir = some d ∧ Create ans s dir d name mode r t := by
  rw [naiveCreate] at h
  obtain ⟨d, u, hdir, h1⟩ := Prog.exec_bind_ok.mp h
  obtain ⟨hd, rfl⟩ := exec_inode_ok hdir
  obtain ⟨q, u, hfind, h2⟩ := Prog.exec_bind_ok.mp h1
  refine ⟨d, hd, ?_⟩
  obtain ⟨rfl, ⟨rfl, hfull⟩ | ⟨ino, rfl, hfree⟩⟩ := exec_findFreeInode hfind
  · cases h2
    exact .noInode hfull
  have hpos := hfree.pos
  rw [if_neg (by omega)] at h2
  cases hmem : ans .newInode with
  | false =>
      rw [Prog.exec_bind_of (exec_newInode_fail hmem)] at h2
      cases h2
      exact .noMemory hfree hmem
  | true =>
      rw [Prog.exec_bind_of (exec_newInode_ok hmem)] at h2
      exact createInode_cases hs hd hfree hmem h2

end Create

/-! ## `naive_mkdir` -/

/-- The inode `naive_mkdir` sets up. -/
def Inode.newDir (ans : Answers) (d : Inode) (mode ino b : Nat) : Inode :=
  let nd := ((({ iNlink := 1, iIno := ino } : Inode).initOwner d (ans .currentFsuid)
    (ans .currentFsgid) (sIfdir ||| (mode &&& 0o777))).setTimes (ans .ktime))
  { nd with
    iNlink := 2, iSize := naiveBlockSize,
    blockCount := 1, blockPointers := Function.update nd.blockPointers 0 b }

/-- The state in which `naive_mkdir` adds the entry. -/
def FS.dirMade (s : FS) (ans : Answers) (d : Inode) (mode ino b : Nat) : FS :=
  (((s.markBlock b).writeBlock b (dotBlock (s.block b) ino d.iIno)).withNew
    (Inode.newDir ans d mode ino b)).markInode ino

theorem FS.Ready.inodes_dirMade {s : FS} {ans : Answers} {dir mode ino b : Nat} {d nd : Inode}
    (hs : s.Ready) (h : s.inodes dir = some nd) :
    (s.dirMade ans d mode ino b).inodes dir = some nd := hs.inodes_withNew h

/-- The parent of a new directory gets its link. -/
def Inode.addLink (nd : Inode) : Inode :=
  { nd with iNlink := toU32 (nd.iNlink + 1 : Int), iDirty := true }

/-- What `naive_mkdir` returns and leaves, called on a directory that is `d`. -/
inductive Mkdir (ans : Answers) (s : FS) (dir : Nat) (d : Inode) (name : Name) (mode : Nat) :
    Int → FS → Prop where
  | noInode (full : s.NoIno) : Mkdir ans s dir d name mode (-ENOSPC) s
  | noMemory {ino : Nat} (free : s.NextIno ino) (mem : ans .newInode = false) :
      Mkdir ans s dir d name mode (-ENOMEM) s
  | noBlock {ino : Nat} (free : s.NextIno ino) (mem : ans .newInode = true)
      (space : s.Exhausted) :
      Mkdir ans s dir d name mode (-ENOSPC) { s with nextInode := s.nextInode + 1 }
  | blockUnreadable {ino b : Nat} (free : s.NextIno ino) (mem : ans .newInode = true)
      (block : s.NextFree b) (unread : ans (.sbBread .mkdirNew 0 b) = false) :
      Mkdir ans s dir d name mode (- EIO) { s with nextInode := s.nextInode + 1 }
  | notLinked {ino b : Nat} {r : Int} {t : FS} (free : s.NextIno ino)
      (mem : ans .newInode = true) (block : s.NextFree b)
      (read : ans (.sbBread .mkdirNew 0 b) = true)
      (entry : AddEntry ans (s.dirMade ans d mode ino b) dir d name ino r t) (fail : r < 0) :
      Mkdir ans s dir d name mode r ((t.unmarkBlock b).dropInode s.nextInode)
  | linked {ino b : Nat} {t : FS} (free : s.NextIno ino) (mem : ans .newInode = true)
      (block : s.NextFree b) (read : ans (.sbBread .mkdirNew 0 b) = true)
      (entry : AddEntry ans (s.dirMade ans d mode ino b) dir d name ino 0 t) :
      Mkdir ans s dir d name mode 0
        ((t.mapInode dir Inode.addLink).setDentry dir name (some s.nextInode))

/-- Adding an entry keeps the directory in memory and `sbi`'s block count. -/
theorem AddEntry.frame {ans : Answers} {s t : FS} {dir : Nat} {d : Inode} {name : Name}
    {ino r : Int} (hd : s.inodes dir = some d) (h : AddEntry ans s dir d name ino r t) :
    t.sbi.blockBitmapBlocks = s.sbi.blockBitmapBlocks ∧ (∃ d', t.inodes dir = some d') ∧
      t.nextInode = s.nextInode ∧ ∀ id, id ≠ dir → t.inodes id = s.inodes id := by
  cases h with
  | filled | unreadable | noSpace => exact ⟨rfl, ⟨d, hd⟩, rfl, fun _ _ => rfl⟩
  | newUnreadable | grown =>
      exact ⟨rfl, ⟨_, FS.inodes_setInode_self⟩, rfl, fun id hid => FS.inodes_setInode_ne hid⟩

/-- Adding an entry does not touch the inode bitmap. -/
theorem AddEntry.inodeBitmap {ans : Answers} {s t : FS} {dir : Nat} {d : Inode} {name : Name}
    {ino r : Int} (h : AddEntry ans s dir d name ino r t) :
    t.sbi.inodeBitmap = s.sbi.inodeBitmap := by
  cases h <;> rfl

section Mkdir

variable {ans : Answers} {s t : FS} {dir : Nat} {d : Inode} {name : Name} {mode : Nat} {r : Int}

theorem mkdirLink_cases {ino b : Nat} (hs : s.Ready) (hd : s.inodes dir = some d)
    (free : s.NextIno ino) (mem : ans .newInode = true) (block : s.NextFree b)
    (read : ans (.sbBread .mkdirNew 0 b) = true)
    (h : (mkdirLink dir name s.nextInode ino b).exec ans (s.dirMade ans d mode ino b)
      = .ok (r, t)) : Mkdir ans s dir d name mode r t := by
  rw [mkdirLink] at h
  obtain ⟨q, u, hentry, hend⟩ := Prog.exec_bind_ok.mp h
  have hmade : (s.dirMade ans d mode ino b).inodes dir = some d := hs.inodes_dirMade hd
  have hcases : AddEntry ans (s.dirMade ans d mode ino b) dir d name ino q u :=
    naiveAddEntry_cases hs.bitmapBlocks hmade hentry
  obtain ⟨hblocks, ⟨d', hd'⟩, _, _⟩ := hcases.frame hmade
  rcases hcases.ret with rfl | hneg
  · rw [if_neg (by decide), Prog.exec_bind_of (exec_updInode hd'),
      Prog.exec_bind_of exec_dInstantiate] at hend
    cases hend
    have hmap : u.setInode dir { d' with iNlink := toU32 (d'.iNlink + 1 : Int), iDirty := true }
        = u.mapInode dir Inode.addLink := (FS.mapInode_of hd' Inode.addLink).symm
    rw [hmap]
    exact .linked free mem block read hcases
  · rw [if_pos hneg, Prog.exec_bind_of (exec_freeBlock block.bitmap
      (hblocks.trans hs.bitmapBlocks)), Prog.exec_bind_of exec_iput] at hend
    cases hend
    exact .notLinked free mem block read hcases hneg

/-- Setting up the inode of a new directory, from a state `m` that has its block. -/
theorem exec_mkdirFill (ans : Answers) (name : Name) (mode b : Nat) {m : FS} {ino : Nat}
    (hd : (m.withNew { iNlink := 1, iIno := ino }).inodes dir = some d) (h1 : 1 ≤ ino)
    (h2 : ino ≤ 4096) :
    (mkdirFill dir name mode m.nextInode ino b).exec ans
        (m.withNew { iNlink := 1, iIno := ino }) =
      (mkdirLink dir name m.nextInode ino b).exec ans
        ((m.withNew (Inode.newDir ans d mode ino b)).markInode ino) := by
  rw [mkdirFill, Prog.exec_bind_of (exec_inodeInitOwner FS.inodes_withNew_self hd),
    FS.setInode_withNew, Prog.exec_bind_of exec_ktime,
    Prog.exec_bind_of (exec_updInode FS.inodes_withNew_self), FS.setInode_withNew,
    Prog.exec_bind_of (exec_updInode FS.inodes_withNew_self), FS.setInode_withNew,
    Prog.exec_bind_of (exec_setInodeBit h1 h2)]
  rfl

theorem mkdirInode_cases {ino : Nat} (hs : s.Ready) (hd : s.inodes dir = some d)
    (free : s.NextIno ino) (mem : ans .newInode = true)
    (h : (mkdirInode dir name mode s.nextInode ino).exec ans (s.withNew { iNlink := 1 })
      = .ok (r, t)) : Mkdir ans s dir d name mode r t := by
  rw [mkdirInode, Prog.exec_bind_of (exec_updInode FS.inodes_withNew_self),
    FS.setInode_withNew, toU64_ino free.bitmap] at h
  obtain ⟨q, u, halloc, h1⟩ := Prog.exec_bind_ok.mp h
  rcases exec_allocBlock_cases halloc with ⟨hneg, rfl, hex⟩ | ⟨b, rfl, rfl, hfree⟩
  · rw [if_pos hneg, Prog.exec_bind_of exec_iput, hs.dropInode_withNew] at h1
    cases h1
    exact .noBlock free mem (FS.Exhausted.congr (s := s) (t := s.withNew _) rfl rfl hex)
  have hblock : s.NextFree b := FS.NextFree.congr (s := s) (t := s.withNew _) rfl rfl hfree
  rw [if_neg (by omega)] at h1
  -- marking the block and allocating the inode commute
  have hcomm : (s.withNew { iNlink := 1, iIno := ino }).markBlock b
      = (s.markBlock b).withNew { iNlink := 1, iIno := ino } := rfl
  rw [hcomm] at h1
  cases hread : ans (.sbBread .mkdirNew 0 b) with
  | false =>
      rw [Prog.exec_bind_of (exec_sbBread_fail hread)] at h1
      simp only [Bool.not_false, if_true] at h1
      rw [← hcomm, Prog.exec_bind_of (exec_freeBlock
        (s := (s.withNew { iNlink := 1, iIno := ino }).markBlock b) hfree.bitmap hs.bitmapBlocks),
        FS.unmarkBlock_markBlock hfree.clear, Prog.exec_bind_of exec_iput,
        hs.dropInode_withNew] at h1
      cases h1
      exact .blockUnreadable free mem hblock hread
  | true =>
      rw [Prog.exec_bind_of (exec_sbBread_ok hread)] at h1
      simp only [Bool.not_true, Bool.false_eq_true, if_false] at h1
      have hdir : (((s.markBlock b).withNew { iNlink := 1, iIno := ino }).addRef b 1).inodes dir
          = some d := hs.inodes_withNew hd
      rw [Prog.exec_bind_of exec_bData, Prog.exec_bind_of (exec_inode hdir),
        Prog.exec_bind_of exec_putData, FS.writeBlock_addRef, Prog.exec_bind_of exec_brelse,
        FS.addRef_cancel, toU32_natCast (by have := free.bitmap; omega)] at h1
      have hfill := exec_mkdirFill ans name mode b
        (m := (s.markBlock b).writeBlock b (dotBlock (s.block b) ino d.iIno))
        (hs.inodes_withNew hd) free.pos free.bitmap
      exact mkdirLink_cases hs hd free mem hblock hread (hfill.symm.trans h1)

theorem naiveMkdir_cases (hs : s.Ready) (h : (naiveMkdir dir name mode).exec ans s = .ok (r, t)) :
    ∃ d, s.inodes dir = some d ∧ Mkdir ans s dir d name mode r t := by
  rw [naiveMkdir] at h
  obtain ⟨d, u, hdir, h1⟩ := Prog.exec_bind_ok.mp h
  obtain ⟨hd, rfl⟩ := exec_inode_ok hdir
  obtain ⟨q, u, hfind, h2⟩ := Prog.exec_bind_ok.mp h1
  refine ⟨d, hd, ?_⟩
  obtain ⟨rfl, ⟨rfl, hfull⟩ | ⟨ino, rfl, hfree⟩⟩ := exec_findFreeInode hfind
  · cases h2
    exact .noInode hfull
  have hpos := hfree.pos
  rw [if_neg (by omega)] at h2
  cases hmem : ans .newInode with
  | false =>
      rw [Prog.exec_bind_of (exec_newInode_fail hmem)] at h2
      cases h2
      exact .noMemory hfree hmem
  | true =>
      rw [Prog.exec_bind_of (exec_newInode_ok hmem)] at h2
      exact mkdirInode_cases hs hd hfree hmem h2

end Mkdir

end NaiveFS
