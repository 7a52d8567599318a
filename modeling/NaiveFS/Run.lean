import NaiveFS.Write

/-!
# Runs

The state a mount leaves, and what every step of every run keeps.
-/

namespace NaiveFS

open Bytes

/-! ## The mounted state -/

/-- The root inode `naive_fill_super` makes. -/
def Inode.root (ts : Timespec) : Inode :=
  { (({ iIno := naiveRootInodeNo, iMode := sIfdir ||| 0o755 } : Inode).setTimes ts) with
    iNlink := 2 }

/-- The state after mounting `disk` at time `ts`: the bitmaps are copies of
blocks 2 and 3, the superblock's buffer is held. -/
def FS.mounted (disk : Nat → Bytes) (ts : Timespec) : FS :=
  { disk := disk
    cache := disk
    bCount := Function.update (fun _ => 0) 1 1
    sbi := { blockBitmap := disk 2, inodeBitmap := disk 3, blockBitmapBlocks := 1,
             inodeBitmapBlocks := 1 }
    inodes := Function.update (fun _ => none) 0 (some (Inode.root ts))
    nextInode := 1
    sRoot := 0 }

section Mount

variable {ans : Answers} {s t : FS} {disk : Nat → Bytes}

theorem exec_naiveAllocInode : naiveAllocInode.exec ans s =
    if ans (.kmalloc .rootInode) = true then .ok (some s.nextInode, s.withNew {})
    else .ok (none, s) := by
  rw [naiveAllocInode, Prog.exec_ask_bind, Prog.exec_ite]
  rfl

theorem exec_fillSuperFreeInodeBitmap_ne {r : Int}
    (h : fillSuperFreeInodeBitmap.exec ans s = .ok (r, t)) : r ≠ 0 := by
  cases h
  decide

/-- The root set-up returns 0 only when both allocations succeed. -/
theorem fillSuperRoot_zero (h : fillSuperRoot.exec ans s = .ok (0, t)) :
    t = { s.withNew (Inode.root (ans .ktime)) with sRoot := s.nextInode } := by
  rw [fillSuperRoot] at h
  by_cases hk : ans (.kmalloc .rootInode) = true
  · rw [Prog.exec_bind_of (exec_naiveAllocInode.trans (if_pos hk)),
      Prog.exec_bind_of (exec_updInode FS.inodes_withNew_self), FS.setInode_withNew,
      Prog.exec_bind_of exec_ktime, Prog.exec_bind_of (exec_updInode FS.inodes_withNew_self),
      FS.setInode_withNew, Prog.exec_bind_of (exec_updInode FS.inodes_withNew_self),
      FS.setInode_withNew, Prog.exec_ask_bind, Prog.exec_ite] at h
    split at h
    · cases h
      rfl
    · rw [Prog.exec_bind_of exec_iput] at h
      exact absurd rfl (exec_fillSuperFreeInodeBitmap_ne h)
  · rw [Prog.exec_bind_of (exec_naiveAllocInode.trans (if_neg hk))] at h
    exact absurd rfl (exec_fillSuperFreeInodeBitmap_ne h)

/-- A mount that succeeds found the magic number and leaves the mounted state. -/
theorem mounted_eq (h : Mounted disk s) :
    SuperBlock.magic (disk 1) = naiveMagic ∧ ∃ ts, s = FS.mounted disk ts := by
  obtain ⟨ans, h⟩ := h
  rw [naiveFillSuper, Prog.exec_ask_bind] at h
  split at h
  · cases h
  rw [Prog.exec_modify_bind] at h
  cases hsb : ans (.sbBread .fillSuper 0 naiveSuperBlockBlock) with
  | false =>
      rw [Prog.exec_bind_of (exec_sbBread_fail hsb)] at h
      cases h
  | true =>
  rw [Prog.exec_bind_of (exec_sbBread_ok hsb), if_neg (by decide),
    Prog.exec_bind_of exec_diskSb] at h
  split at h
  · cases h
  rename_i hmagic
  cases hbm : ans (.sbBread .fillSuperBlockBitmap 0 2) with
  | false =>
      rw [Prog.exec_bind_of (exec_sbBread_fail hbm)] at h
      cases h
  | true =>
  rw [Prog.exec_bind_of (exec_sbBread_ok hbm), if_neg (by decide), Prog.exec_ask_bind] at h
  split at h
  · cases h
  rw [Prog.exec_bind_of exec_bData, Prog.exec_modify_bind, Prog.exec_bind_of exec_brelse,
    FS.setSbi_addRef, FS.addRef_cancel] at h
  cases him : ans (.sbBread .fillSuperInodeBitmap 0 3) with
  | false =>
      rw [Prog.exec_bind_of (exec_sbBread_fail him)] at h
      cases h
  | true =>
  rw [Prog.exec_bind_of (exec_sbBread_ok him), if_neg (by decide), Prog.exec_ask_bind] at h
  split at h
  · exact absurd rfl (exec_fillSuperFreeInodeBitmap_ne h)
  rw [Prog.exec_bind_of exec_bData, Prog.exec_modify_bind, Prog.exec_bind_of exec_brelse,
    FS.setSbi_addRef, FS.addRef_cancel] at h
  exact ⟨not_ne_iff.mp hmagic, ans .ktime, fillSuperRoot_zero h⟩

/-- A device with the magic number can be mounted. -/
theorem mounted_of_magic (h : SuperBlock.magic (disk 1) = naiveMagic) (ts : Timespec) :
    Mounted disk (FS.mounted disk ts) := by
  have hread (site : Site) (b : Int) (s : FS) :
      (sbBread site 0 b).exec (Answers.good ts 0 0) s = .ok (true, s.addRef b 1) :=
    exec_sbBread_ok rfl
  have hmem (site : AllocSite) : ¬ (!Answers.good ts 0 0 (.kmalloc site)) = true :=
    Bool.false_ne_true
  have hmagic : ¬ SuperBlock.magic
      ((((FS.ofDisk disk).setSbi {}).addRef naiveSuperBlockBlock 1).block
      naiveSuperBlockBlock) ≠ naiveMagic := not_not.mpr h
  refine ⟨Answers.good ts 0 0, ?_⟩
  rw [naiveFillSuper, Prog.exec_ask_bind, if_neg (hmem _), Prog.exec_modify_bind,
    Prog.exec_bind_of (hread _ _ _), if_neg (by decide), Prog.exec_bind_of exec_diskSb,
    if_neg hmagic, Prog.exec_bind_of (hread _ _ _), if_neg (by decide),
    Prog.exec_ask_bind, if_neg (hmem _), Prog.exec_bind_of exec_bData, Prog.exec_modify_bind,
    Prog.exec_bind_of exec_brelse, FS.setSbi_addRef, FS.addRef_cancel,
    Prog.exec_bind_of (hread _ _ _), if_neg (by decide), Prog.exec_ask_bind, if_neg (hmem _),
    Prog.exec_bind_of exec_bData, Prog.exec_modify_bind, Prog.exec_bind_of exec_brelse,
    FS.setSbi_addRef, FS.addRef_cancel, fillSuperRoot,
    Prog.exec_bind_of (exec_naiveAllocInode.trans (if_pos rfl)),
    Prog.exec_bind_of (exec_updInode FS.inodes_withNew_self), FS.setInode_withNew,
    Prog.exec_bind_of exec_ktime, Prog.exec_bind_of (exec_updInode FS.inodes_withNew_self),
    FS.setInode_withNew, Prog.exec_bind_of (exec_updInode FS.inodes_withNew_self),
    FS.setInode_withNew, Prog.exec_ask_bind]
  rfl

/-- After a mount the root is the only inode in memory. -/
theorem inodes_mounted {ts : Timespec} {id : Nat} {nd : Inode}
    (h : (FS.mounted disk ts).inodes id = some nd) : id = 0 ∧ nd = Inode.root ts := by
  by_cases hid : id = 0
  · subst hid
    cases h
    exact ⟨rfl, rfl⟩
  · simp [FS.mounted, hid] at h

theorem Mounted.ready (h : Mounted disk s) : s.Ready := by
  obtain ⟨_, ts, rfl⟩ := mounted_eq h
  refine ⟨rfl, fun id hid => ?_⟩
  have hne : id ≠ 0 := by
    have : 1 ≤ id := hid
    omega
  simp [FS.mounted, hne]

end Mount

/-- A device with a superblock of these fields, on which only inode 1 is marked. -/
def sampleDisk (inodeTotal blockTotal tableNo dataNo : Nat) : Nat → Bytes := fun b =>
  if b = naiveSuperBlockBlock then
    ((((zeros.putLE32 16 dataNo).putLE32 12 tableNo).putLE32 8 blockTotal).putLE32 4
      inodeTotal).putLE32 0 naiveMagic
  else if b = 3 then zeros.setBit 0
  else zeros

theorem sampleDisk_mounted (inodeTotal blockTotal tableNo dataNo : Nat) (ts : Timespec) :
    Mounted (sampleDisk inodeTotal blockTotal tableNo dataNo)
      (FS.mounted (sampleDisk inodeTotal blockTotal tableNo dataNo) ts) := by
  refine mounted_of_magic ?_ ts
  rw [SuperBlock.magic, sampleDisk, if_pos rfl, getLE32_putLE32]
  rfl

/-! ## `naive_iget` -/

/-- What `naive_iget` returns and leaves. -/
inductive Iget (ans : Answers) (s : FS) (ino : Nat) : Except Int Nat → FS → Prop where
  | noMemory (mem : ans (.igetLocked ino) = false) : Iget ans s ino (.error (-ENOMEM)) s
  | cached {id : Nat} (found : s.findHashed ino = some id) : Iget ans s ino (.ok id) s
  | unreadable (none : s.findHashed ino = none) :
      Iget ans s ino (.error (- EIO)) { s with nextInode := s.nextInode + 1 }
  | loaded {nd : Inode} (none : s.findHashed ino = none)
      (decode : decodeInode { iIno := ino, iNlink := 1, iHashed := true }
        (s.block (inodeTableBlock (s.block naiveSuperBlockBlock) ino)) = .ok nd) :
      Iget ans s ino (.ok s.nextInode) (s.withNew nd)

theorem naiveIget_cases {ans : Answers} {s t : FS} {ino : Nat} {r : Except Int Nat}
    (hs : s.Ready) (h : (naiveIget ino).exec ans s = .ok (r, t)) : Iget ans s ino r t := by
  rw [naiveIget, Prog.exec_ask_bind] at h
  split at h
  · rename_i hmem
    cases h
    exact .noMemory (by simpa using hmem)
  rw [Prog.exec_read_bind] at h
  cases hfind : s.findHashed ino with
  | some id =>
      simp only [hfind] at h
      cases h
      exact .cached hfind
  | none =>
  simp only [hfind] at h
  rw [Prog.exec_read_bind, Prog.exec_modify_bind, Prog.exec_bind_of exec_diskSb] at h
  have hnew : ({ s.setInode s.nextInode { iIno := ino, iNlink := 1, iHashed := true } with
      nextInode := s.nextInode + 1 } : FS)
      = s.withNew { iIno := ino, iNlink := 1, iHashed := true } := rfl
  rw [hnew] at h
  generalize hb : inodeTableBlock ((s.withNew { iIno := ino, iNlink := 1, iHashed := true }).block
    naiveSuperBlockBlock) ino = b at h
  have hb' : inodeTableBlock (s.block naiveSuperBlockBlock) ino = b := hb
  cases hread : ans (.sbBread .iget 0 b) with
  | false =>
      rw [Prog.exec_bind_of (exec_sbBread_fail hread), if_pos (by decide),
        Prog.exec_bind_of exec_iput, hs.dropInode_withNew] at h
      cases h
      exact .unreadable hfind
  | true =>
  have hmem : ((s.withNew { iIno := ino, iNlink := 1, iHashed := true }).addRef b 1).inodes
      s.nextInode = some { iIno := ino, iNlink := 1, iHashed := true } := FS.inodes_withNew_self
  rw [Prog.exec_bind_of (exec_sbBread_ok hread), if_neg (by decide), Prog.exec_bind_of exec_bData,
    Prog.exec_bind_of (exec_inode hmem)] at h
  obtain ⟨nd, u, hdecode, h1⟩ := Prog.exec_bind_ok.mp h
  obtain ⟨hnd, rfl⟩ := Prog.exec_lift_ok.mp hdecode
  rw [Prog.exec_modify_bind, Prog.exec_bind_of exec_brelse] at h1
  cases h1
  -- the reference is dropped again and the loaded inode replaces the new one
  have hstate : (((s.withNew { iIno := ino, iNlink := 1, iHashed := true }).addRef b 1).setInode
      s.nextInode nd).addRef b (-1) = s.withNew nd :=
    (FS.addRef_cancel _ b).trans FS.setInode_withNew
  rw [hstate]
  exact .loaded hfind (hb' ▸ hnd)

/-- What `naive_write_inode` returns and leaves. -/
theorem naiveWriteInode_cases {ans : Answers} {s t : FS} {id : Nat} {nd : Inode} {r : Int}
    (hnd : s.inodes id = some nd) (h : (naiveWriteInode id).exec ans s = .ok (r, t)) :
    (r = - EIO ∧ t = s) ∨ ∃ v,
      encodeInode nd (s.block (inodeTableBlock (s.block naiveSuperBlockBlock) nd.iIno)) = .ok v ∧
      r = 0 ∧ t = s.writeBlock (inodeTableBlock (s.block naiveSuperBlockBlock) nd.iIno) v := by
  rw [naiveWriteInode, Prog.exec_bind_of (exec_inode hnd), Prog.exec_bind_of exec_diskSb] at h
  generalize inodeTableBlock (s.block naiveSuperBlockBlock) nd.iIno = b at h ⊢
  cases hread : ans (.sbBread .writeInode 0 b) with
  | false =>
      rw [Prog.exec_bind_of (exec_sbBread_fail hread)] at h
      cases h
      exact .inl ⟨rfl, rfl⟩
  | true =>
      rw [Prog.exec_bind_of (exec_sbBread_ok hread), if_neg (by decide),
        Prog.exec_bind_of exec_bData] at h
      obtain ⟨v, u, hencode, h1⟩ := Prog.exec_bind_ok.mp h
      obtain ⟨hv, rfl⟩ := Prog.exec_lift_ok.mp hencode
      rw [Prog.exec_bind_of exec_putData, FS.writeBlock_addRef, Prog.exec_bind_of exec_brelse,
        FS.addRef_cancel] at h1
      cases h1
      exact .inr ⟨v, hv, rfl, rfl⟩

/-! ## What every step keeps -/

section Ready

variable {ans : Answers} {s t : FS} {id dir : Nat} {d nd : Inode} {name : Name} {r : Int}

/-- A step that neither changes the number of bitmap blocks nor puts an inode
where the next one goes keeps `Ready`. -/
theorem FS.Ready.frame (hs : s.Ready) (hb : t.sbi.blockBitmapBlocks = s.sbi.blockBitmapBlocks)
    (hnext : s.nextInode ≤ t.nextInode)
    (hmem : ∀ id, t.nextInode ≤ id → s.inodes id = none → t.inodes id = none) : t.Ready :=
  ⟨hb.trans hs.bitmapBlocks, fun id hid => hmem id hid (hs.fresh id (by omega))⟩

theorem FS.Ready.same (hs : s.Ready) (t : FS)
    (h : t.sbi.blockBitmapBlocks = s.sbi.blockBitmapBlocks ∧ t.nextInode = s.nextInode ∧
      t.inodes = s.inodes) : t.Ready :=
  hs.frame h.1 (Nat.le_of_eq h.2.1.symm) fun _ _ hnone => by rw [h.2.2, hnone]

theorem FS.Ready.withNew (hs : s.Ready) (nd : Inode) : (s.withNew nd).Ready := by
  refine hs.frame rfl (Nat.le_succ _) fun id hid hnone => ?_
  have hid' : s.nextInode + 1 ≤ id := hid
  rw [FS.inodes_withNew_ne (by omega), hnone]

theorem FS.Ready.setInode (hs : s.Ready) (h : s.inodes id = some nd) (nd' : Inode) :
    (s.setInode id nd').Ready := by
  refine hs.frame rfl (Nat.le_refl _) fun k hk hnone => ?_
  have hne : k ≠ id := by
    rintro rfl
    rw [h] at hnone
    cases hnone
  rw [FS.inodes_setInode_ne hne, hnone]

theorem FS.Ready.dropInode (hs : s.Ready) (id : Nat) : (s.dropInode id).Ready := by
  refine hs.frame rfl (Nat.le_refl _) fun k _ hnone => ?_
  by_cases hk : k = id
  · rw [hk, FS.inodes_dropInode_self]
  · rw [FS.inodes_dropInode_ne hk, hnone]

theorem FS.Ready.mapInode (hs : s.Ready) (id : Nat) (f : Inode → Inode) :
    (s.mapInode id f).Ready := by
  unfold FS.mapInode
  split
  · rename_i nd h
    exact hs.setInode h (f nd)
  · exact hs

theorem AddEntry.ready {ino : Int} (hs : s.Ready) (hd : s.inodes dir = some d)
    (h : AddEntry ans s dir d name ino r t) : t.Ready := by
  obtain ⟨hb, ⟨d', hd'⟩, hnext, hother⟩ := h.frame hd
  refine hs.frame hb (Nat.le_of_eq hnext.symm) fun k _ hnone => ?_
  have hne : k ≠ dir := by
    rintro rfl
    rw [hd] at hnone
    cases hnone
  rw [hother k hne, hnone]

theorem FS.Ready.removed (hs : s.Ready) (dir : Nat) (name : Name) (id : Nat) (nd : Inode) :
    (s.removed dir name id nd).Ready := by
  obtain ⟨bm, im, h⟩ := s.released_frame nd
  have hreleased : (s.released nd).Ready := by
    rw [h]
    exact ⟨hs.bitmapBlocks, hs.fresh⟩
  exact FS.Ready.dropInode (s := (s.released nd).setDentry dir name none)
    ⟨hreleased.bitmapBlocks, hreleased.fresh⟩ id

theorem Create.ready {mode : Nat} (hs : s.Ready) (hd : s.inodes dir = some d)
    (h : Create ans s dir d name mode r t) : t.Ready := by
  have hmade (ino : Nat) : (s.fileMade ans d mode ino).Ready :=
    (hs.withNew (Inode.newFile ans d mode ino)).same _ ⟨rfl, rfl, rfl⟩
  cases h with
  | noInode | noMemory => exact hs
  | notLinked free mem entry fail =>
      exact (entry.ready (hmade _) (hs.inodes_withNew hd)).dropInode _
  | linked free mem entry =>
      exact (entry.ready (hmade _) (hs.inodes_withNew hd)).same _ ⟨rfl, rfl, rfl⟩

theorem Mkdir.ready {mode : Nat} (hs : s.Ready) (hd : s.inodes dir = some d)
    (h : Mkdir ans s dir d name mode r t) : t.Ready := by
  have hmade (ino b : Nat) : (s.dirMade ans d mode ino b).Ready :=
    (hs.withNew (Inode.newDir ans d mode ino b)).same _ ⟨rfl, rfl, rfl⟩
  have hnext : ({ s with nextInode := s.nextInode + 1 } : FS).Ready :=
    hs.frame rfl (Nat.le_succ _) fun _ _ hnone => hnone
  cases h with
  | noInode | noMemory => exact hs
  | noBlock | blockUnreadable => exact hnext
  | notLinked free mem block read entry fail =>
      have ht := entry.ready (hmade _ _) (hs.inodes_withNew hd)
      exact (ht.same (FS.unmarkBlock _ _) ⟨rfl, rfl, rfl⟩).dropInode _
  | linked free mem block read entry =>
      have ht := (entry.ready (hmade _ _) (hs.inodes_withNew hd)).mapInode dir Inode.addLink
      exact ht.same _ ⟨rfl, rfl, rfl⟩

theorem Unlink.ready (hs : s.Ready) (h : Unlink ans s dir name r t) : t.Ready := by
  cases h with
  | noDentry | notRemoved => exact hs
  | removed => exact (hs.same (s.clearRecord _ _ _) ⟨rfl, rfl, rfl⟩).removed _ _ _ _

theorem Rmdir.ready (hs : s.Ready) (h : Rmdir ans s dir name r t) : t.Ready := by
  cases h with
  | noDentry | notDir | unreadable | notEmpty | notRemoved => exact hs
  | removed =>
      exact ((hs.same (s.clearRecord _ _ _) ⟨rfl, rfl, rfl⟩).mapInode _ _).removed _ _ _ _

theorem Extend.ready (hs : s.Ready) (h : Extend id s t) : t.Ready := by
  induction h with
  | refl => exact hs
  | step _ _ node _ _ ih => exact (ih.setInode node _).same _ ⟨rfl, rfl, rfl⟩

theorem DataOf.ready (hs : s.Ready) (h : DataOf nd s t) : t.Ready :=
  hs.frame (by rw [h.sbi]) (Nat.le_of_eq h.nextInode.symm) fun _ _ hnone => by rw [h.inodes, hnone]

theorem Write.ready (hs : s.Ready) (h : Write s id r t) : t.Ready := by
  cases h with
  | tooBig => exact hs
  | noSpace grow => exact grow.ready hs
  | written grow node data same =>
      exact (data.ready (grow.ready hs)).setInode (by rw [data.inodes, node]) _

theorem Iget.ready {ino : Nat} {q : Except Int Nat} (hs : s.Ready) (h : Iget ans s ino q t) :
    t.Ready := by
  cases h with
  | noMemory | cached => exact hs
  | unreadable => exact hs.frame rfl (Nat.le_succ _) fun _ _ hnone => hnone
  | loaded => exact hs.withNew _

theorem scanRecords_keeps {I : FS → Prop} {α : Type} {site : Site} {test : Bytes → Nat → Bool}
    {miss : Option α} {hit : Int → Bytes → Nat → K α}
    (href : ∀ s b k, I s → I (s.addRef b k)) (hhit : ∀ b v j, Prog.Keeps ans I (hit b v j)) :
    Prog.Keeps ans I (scanRecords nd site test miss hit) := by
  intro s q t hs h
  have hbody : ∀ i p s q t, I s → (scanBlock site test miss hit i p).exec ans s = .ok (q, t) →
      I t := by
    intro i p s q t hs h
    rcases scanBlock_cases h with ⟨_, _, rfl⟩ | ⟨_, ⟨j, a, _, _, _, _, hj⟩ | ⟨_, _, rfl⟩⟩
    · exact hs
    · exact hhit _ _ _ _ _ _ (href s p 1 hs) hj
    · exact hs
  rw [scanRecords] at h
  generalize nd.blockCount.toNat = n at h
  generalize (0 : Nat) = i at h
  induction n generalizing s i with
  | zero =>
      cases h
      exact hs
  | succ n ih =>
      obtain ⟨_, ⟨_, hrest⟩ | ⟨_, q', u, hb, ⟨a, _, _, rfl⟩ | ⟨_, hrest⟩⟩⟩ := forBlocks_succ h
      · exact ih s hs _ hrest
      · exact hbody _ _ _ _ _ hs hb
      · exact ih u (hbody _ _ _ _ _ hs hb) _ hrest

theorem naiveLookup_ready {q : Option (Except Int Nat)} (hs : s.Ready)
    (h : (naiveLookup dir name).exec ans s = .ok (q, t)) : t.Ready := by
  rw [naiveLookup] at h
  obtain ⟨d, u, hdir, h1⟩ := Prog.exec_bind_ok.mp h
  obtain ⟨_, rfl⟩ := exec_inode_ok hdir
  obtain ⟨found, v, hscan, h2⟩ := Prog.exec_bind_ok.mp h1
  have hv : v.Ready := by
    refine scanRecords_keeps (fun s b k hs => hs.same _ ⟨rfl, rfl, rfl⟩) ?_ _ _ _ hs hscan
    intro b w j s a t hs h
    obtain ⟨r, u, higet, hend⟩ := Prog.exec_bind_ok.mp h
    cases hend
    exact ((naiveIget_cases hs higet).ready hs).same _ ⟨rfl, rfl, rfl⟩
  split at h2
  · cases h2
    exact hv.same _ ⟨rfl, rfl, rfl⟩
  · cases h2
    exact hv

/-- Every step of every run keeps `Ready`. -/
theorem Step.ready {op : Op} (hs : s.Ready) (h : Step s op ans r t) : t.Ready := by
  cases op with
  | create dir name perm =>
      obtain ⟨d, hd, hcases⟩ := naiveCreate_cases hs h
      exact hcases.ready hs hd
  | mkdir dir name mode =>
      obtain ⟨d, hd, hcases⟩ := naiveMkdir_cases hs h
      exact hcases.ready hs hd
  | unlink dir name => exact (vfsUnlink_cases hs h).ready hs
  | rmdir dir name => exact (vfsRmdir_cases hs h).ready hs
  | write id data pos =>
      obtain ⟨q, u, hwrite, hend⟩ := Prog.exec_bind_ok.mp h
      cases hend
      exact (naiveFileWrite_cases hs hwrite).ready hs
  | lookup dir name =>
      obtain ⟨q, u, hlookup, hend⟩ := Prog.exec_bind_ok.mp h
      cases hend
      exact naiveLookup_ready hs hlookup

theorem Reach.ready {P : FS → Op → Answers → Int → Prop} (h : Reach P s t) (hs : s.Ready) :
    t.Ready :=
  h.invariant hs fun _ _ _ _ _ hs _ hstep => hstep.ready hs

end Ready

end NaiveFS
