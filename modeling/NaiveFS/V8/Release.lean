import NaiveFS.V8.Sizes

/-!
# What deleting a file gives back (`naivefs-8`)

`naive_create` takes the bit of index `n` for number `n`; `naive_unlink` clears
the bit of index `n - 1`. So the deletion of a file never restores the inode
bitmap: it clears the bit before the file's own, which was set when the file was
created, or, for number 0, leaves the file's own bit set.
-/

namespace NaiveFS.V8

open Bytes

variable {e : Endian} {sbi : SbInfo} {nii : NaiveInodeInfo} {m m' : Bytes} {id n : Nat}
  {ans : Answers} {s t : FS} {r : Int}

/-! ## What every call leaves -/

/-- The calls of `naive_create`, `naive_file_write` and `naive_unlink`. -/
def Action.OnFiles : Action → Prop
  | .op _ | .write .. => True
  | _ => False

/-- A predicate that stores to memory, buffer counts and marks keep. -/
structure Frame (I : FS → Prop) : Prop where
  mem : ∀ s m, I s → I (s.setMem m)
  ref : ∀ s b d, I s → I (s.addRef b d)
  dirty : ∀ s b, I s → I (s.markDirty b)

section Frames

variable {I : FS → Prop}

theorem Frame.updMem (hI : Frame I) {f : Bytes → Bytes} : Prog.Keeps ans I (updMem f) :=
  .modify fun s hs => hI.mem s _ hs

theorem Frame.brelse (hI : Frame I) {b : Nat} : Prog.Keeps ans I (brelse b) :=
  .modify fun s hs => hI.ref s _ _ hs

theorem Frame.markBufferDirty (hI : Frame I) {b : Nat} : Prog.Keeps ans I (markBufferDirty b) :=
  .modify fun s hs => hI.dirty s _ hs

theorem Frame.sbBread (hI : Frame I) {site : Site} {b : Nat} :
    Prog.Keeps ans I (sbBread site b) :=
  .bind (.ask _) fun _ => .ite (.bind (.modify fun s hs => hI.ref s _ _ hs) fun _ => .pure _)
    (.pure _)

theorem Frame.tryMem (hI : Frame I) {f : Bytes → Except Fault Bytes} :
    Prog.Keeps ans I (tryMem f) := by
  intro s a t hs h
  obtain ⟨m, -, rfl⟩ := exec_tryMem_ok h
  exact hI.mem s m hs

theorem Frame.takeClear (hI : Frame I) {bitmap bh n : Nat} {i : Int} :
    Prog.Keeps ans I (takeClear bitmap bh n i) := by
  refine .step fun s a t hs h => ?_
  cases hf : findClear bitmap s.mem n i with
  | error x =>
      rw [hf] at h
      cases h
  | ok k =>
      rw [hf] at h
      cases k with
      | none =>
          cases h
          exact hs
      | some k =>
          cases hset : naiveSetBit k bitmap s.mem with
          | error x =>
              simp only [bind, Except.bind, hset] at h
              cases h
          | ok m =>
              simp only [bind, Except.bind, hset, pure, Except.pure, Except.ok.injEq,
                Prod.mk.injEq] at h
              obtain ⟨-, rfl⟩ := h
              exact hI.dirty _ _ (hI.mem _ _ hs)

theorem keeps_inode : Prog.Keeps ans I (inode id) := by
  intro s a t hs h
  obtain ⟨-, rfl⟩ := exec_inode_ok h
  exact hs

theorem keeps_naiveI : Prog.Keeps ans I (naiveI id) := by
  intro s a t hs h
  obtain ⟨-, rfl⟩ := exec_naiveI_ok h
  exact hs

theorem keeps_naiveSb : Prog.Keeps ans I naiveSb := by
  intro s a t hs h
  obtain rfl := exec_naiveSb_ok h
  exact hs

theorem keeps_updInode {f : Inode → Inode}
    (hf : ∀ s nd, I s → s.inodes id = some nd → I (s.setInode id (f nd))) :
    Prog.Keeps ans I (updInode id f) := by
  intro s a t hs h
  obtain ⟨nd, hnd, rfl⟩ := exec_updInode_ok h
  exact hf s nd hs hnd

/-- A write sets the size and two times of its inode. -/
theorem Frame.naiveFileWrite (hI : Frame I) {data : List Byte} {pos : Nat}
    (hino : ∀ s nd size mt ct, I s → s.inodes id = some nd →
      I (s.setInode id { nd with iSize := size, iMtime := mt, iCtime := ct })) :
    Prog.Keeps ans I (naiveFileWrite e id data pos) := by
  have hattach : ∀ sbi nii i, Prog.Keeps ans I (fileWriteAttach e sbi nii i) := fun sbi nii i =>
    .bind (.read _) fun _ => .ite (.pure _) (.bind hI.takeClear fun _ => .ite (.pure _)
      (.bind hI.updMem fun _ => .bind hI.updMem fun _ => .pure _))
  have hdetach : ∀ sbi nii i, Prog.Keeps ans I (fileWriteDetach e sbi nii i) :=
    fun sbi nii i => .bind (.read _) fun _ => .bind hI.tryMem fun _ => .bind hI.updMem fun _ =>
      hI.updMem
  have hcopy : ∀ nii i p pos data size,
      Prog.Keeps ans I (fileWriteCopy e id nii i p pos data size) := fun nii i p pos data size =>
    .bind (.ask _) fun _ => .bind hI.updMem fun _ => .ite
      (.bind hI.brelse fun _ => .pure _)
      (.bind hI.markBufferDirty fun _ => .bind hI.brelse fun _ => .ite
        (.bind hI.updMem fun _ => .bind
          (keeps_updInode fun s nd hs hnd => hino s nd _ nd.iMtime nd.iCtime hs hnd)
          fun _ => .pure _) (.pure _))
  have hround : ∀ sbi nii pos data size n,
      Prog.Keeps ans I (fileWriteRound e sbi id nii pos data size n) := by
    intro sbi nii pos data size n
    refine .ite (.pure _) (.bind (hattach sbi nii _) fun q => ?_)
    cases q with
    | none => exact .pure _
    | some isNew =>
        exact .bind (.read _) fun p => .bind hI.sbBread fun ok => .ite
          (.ite (.bind (hdetach sbi nii _) fun _ => .pure _) (.pure _)) (hcopy _ _ _ _ _ _)
  have hloop : ∀ sbi nii fuel pos data size n,
      Prog.Keeps ans I (fileWriteLoop e sbi id nii fuel pos data size n) := by
    intro sbi nii fuel
    induction fuel with
    | zero => exact fun pos data size n => .pure _
    | succ fuel ih =>
        intro pos data size n
        refine .ite (.pure _) (.bind (hround _ _ _ _ _ _) fun q => ?_)
        cases q with
        | stop n => exact .pure _
        | next k size => exact ih _ _ _ _
  exact .bind keeps_naiveI fun nii => .bind keeps_naiveSb fun sbi => .bind (.read _) fun size =>
    .ite (.pure _) (.bind (hloop _ _ _ _ _ _ _) fun q => .bind (.ask _) fun ts => .bind
      (keeps_updInode fun s nd hs hnd => hino s nd nd.iSize _ _ hs hnd)
      fun _ => .bind hI.markBufferDirty fun _ => .pure _)

end Frames

/-! ## The superblock's information stays -/

theorem frame_info (p : SbPtr) : Frame fun u => u.sFsInfo = p := ⟨fun _ _ h => h, fun _ _ _ h => h,
  fun _ _ h => h⟩

section Info

variable {p : SbPtr}

theorem info_updInode {f : Inode → Inode} :
    Prog.Keeps ans (fun u => u.sFsInfo = p) (updInode id f) := keeps_updInode fun _ _ h _ => h

theorem info_iput : Prog.Keeps ans (fun u => u.sFsInfo = p) (iput id) := by
  intro s a t hs h
  obtain ⟨c, rfl⟩ := exec_iput_ok h
  exact hs

theorem info_naiveCreate {dir mode : Nat} {name : Name} :
    Prog.Keeps ans (fun u => u.sFsInfo = p) (naiveCreate e dir name mode) := by
  have hI := frame_info p
  have hdisk : ∀ sbi ino id ts b, Prog.Keeps ans (fun u => u.sFsInfo = p)
      (createOnDisk e sbi dir name mode ino id ts b) := fun sbi ino id ts b =>
    .bind hI.sbBread fun _ => .ite
      (.bind info_iput fun _ => .bind hI.tryMem fun _ => .pure _)
      (.bind keeps_inode fun _ => .bind hI.updMem fun _ => .bind info_updInode fun _ =>
        .bind (.ask _) fun _ => .ite
          (.bind hI.brelse fun _ => .bind info_iput fun _ => .bind hI.tryMem fun _ => .pure _)
          (.bind info_updInode fun _ => .bind (.modify fun _ h => h) fun _ =>
            .bind hI.markBufferDirty fun _ => .bind hI.markBufferDirty fun _ => .pure _))
  refine .bind keeps_naiveSb fun sbi => .bind hI.takeClear fun ino => .ite (.pure _)
    (.bind (.bind (.ask _) fun _ => .ite (.bind (.read _) fun _ =>
      .bind (.modify fun _ h => h) fun _ => .pure _) (.pure _)) fun q => ?_)
  cases q with
  | none => exact .bind hI.tryMem fun _ => .pure _
  | some id =>
      exact .bind info_updInode fun _ => .bind keeps_inode fun _ =>
        .bind (.bind (.ask _) fun _ => .bind (.ask _) fun _ => info_updInode) fun _ =>
        .bind (.ask _) fun _ => .bind info_updInode fun _ => .bind info_updInode fun _ =>
          hdisk _ _ _ _ _

theorem info_vfsUnlink {dir : Nat} {name : Name} :
    Prog.Keeps ans (fun u => u.sFsInfo = p) (vfsUnlink e dir name) := by
  have hI := frame_info p
  refine .bind (.read _) fun q => ?_
  cases q with
  | none => exact .pure _
  | some id =>
      refine .bind (.bind keeps_naiveI fun nii => .bind keeps_naiveSb fun sbi =>
        .bind info_updInode fun _ => .bind keeps_inode fun nd => .bind
          (.ite (.pure _) (.bind (.bind keeps_naiveSb fun _ => .bind hI.tryMem fun _ =>
            .bind hI.updMem fun _ => hI.markBufferDirty) fun _ => .bind hI.updMem fun _ =>
              .bind hI.tryMem fun _ => .bind hI.markBufferDirty fun _ => hI.markBufferDirty))
          fun _ => .bind (.ask _) fun _ => .bind info_updInode fun _ => .pure _)
        fun ret => .ite (.bind (.modify fun _ h => h) fun _ => .bind info_iput fun _ => .pure _)
          (.pure _)

/-- No call on files touches it. -/
theorem info_run (hrun : Actions e (fun _ act => act.OnFiles) s t) : t.sFsInfo = s.sFsInfo := by
  induction hrun with
  | refl => rfl
  | tail _ hstep ih =>
      obtain ⟨act, ans, r, hact, hstep⟩ := hstep
      cases act with
      | op o =>
          cases o with
          | create dir name perm => exact info_naiveCreate _ _ _ ih hstep
          | unlink dir name => exact info_vfsUnlink _ _ _ ih hstep
      | write id data pos =>
          obtain ⟨q, u, hq, hret⟩ := Prog.exec_bind_ok.mp hstep
          cases hret
          exact (frame_info _).naiveFileWrite (fun _ _ _ _ _ h _ => h) _ _ _ ih hq
      | read | setattr | writeInode | freeBlocks => exact hact.elim

end Info

/-! ## The file until its deletion -/

/-- The calls of `naive_file_write` on inode `id`. -/
def Action.WritesTo (id : Nat) : Action → Prop
  | .write id' .. => id' = id
  | _ => False

/-- Inode `id` is a file with number `n`, one link and a record. -/
structure FileAt (sbi : SbInfo) (id n : Nat) (nii : NaiveInodeInfo)
    (dcache : Nat → Name → Option Nat) (s : FS) : Prop where
  info : s.sFsInfo = .live sbi
  dentry : s.dcache = dcache
  file : ∃ nd, s.inodes id = some nd ∧ nd.iIno = n ∧ nd.iNlink = 1 ∧ nd.iPrivate = some nii

theorem FileAt.frame {dcache : Nat → Name → Option Nat} :
    Frame (FileAt sbi id n nii dcache) :=
  ⟨fun _ _ h => ⟨h.info, h.dentry, h.file⟩, fun _ _ _ h => ⟨h.info, h.dentry, h.file⟩,
    fun _ _ h => ⟨h.info, h.dentry, h.file⟩⟩

/-- Writes on the file leave it so. -/
theorem FileAt.run {dcache : Nat → Name → Option Nat} (h : FileAt sbi id n nii dcache s)
    (hrun : Actions e (fun _ act => act.WritesTo id) s t) : FileAt sbi id n nii dcache t := by
  induction hrun with
  | refl => exact h
  | tail _ hstep ih =>
      obtain ⟨act, ans, r, hact, hstep⟩ := hstep
      cases act with
      | write id' data pos =>
          cases hact
          obtain ⟨q, u, hq, hret⟩ := Prog.exec_bind_ok.mp hstep
          cases hret
          refine FileAt.frame.naiveFileWrite (fun s nd size mt ct hs hnd => ?_) _ _ _ ih hq
          obtain ⟨nd', hnd', hno, hlink, hnii⟩ := hs.file
          obtain rfl := Option.some.inj (hnd.symm.trans hnd')
          exact ⟨hs.info, hs.dentry, _, FS.inodes_setInode_self, hno, hlink, hnii⟩
      | op | read | setattr | writeInode | freeBlocks => exact hact.elim

/-- What `naive_create` made is such a file. -/
theorem Created.fileAt {dir : Nat} {name : Name} (h : Created e sbi s t dir name n)
    (hsbi : s.sFsInfo = .live sbi) :
    FileAt sbi s.nextInode n ⟨bData (sbi.tableBlock e n), sbi.tableBlock e n⟩
      (s.setDentry dir name (some s.nextInode)).dcache t := by
  obtain ⟨nd, hino, hno, hlink, hnii⟩ := h.inodes
  exact ⟨h.info.trans hsbi, h.dentry, nd, by rw [hino, Function.update_self], hno, hlink, hnii⟩

/-- The deletion of such a file runs `unlinkMem`. -/
theorem FileAt.unlink {dir : Nat} {name : Name} {dcache : Nat → Name → Option Nat}
    (h : FileAt sbi id n nii dcache s) (hname : dcache dir name = some id)
    (hstep : Acts e s (.op (.unlink dir name)) ans r t) :
    unlinkMem e sbi n nii s.mem = .ok t.mem := by
  obtain ⟨nd, hnd, hno, hlink, hnii⟩ := h.file
  have hdc : s.dcache dir name = some id := by rw [h.dentry, hname]
  have hmem := (vfsUnlink_cases hdc hnd hnii h.info hlink hstep).1
  rw [hno] at hmem
  exact hmem

/-! ## A number above 0 -/

/-- The bit before the file's own ends clear. -/
theorem unlinkMem_bit (h : unlinkMem e sbi n nii m = .ok m') (hpos : 0 < n) (hn : n < 2 ^ 31) :
    m'.bit (8 * sbi.inodeBitmap + (n - 1)) = false := by
  have hpred : (n : Int) - 1 = ((n - 1 : Nat) : Int) := by omega
  rw [unlinkMem, toInt32_of_small (by omega) (by omega), hpred] at h
  cases hloop : freeFileBlocksLoop e sbi.blockBitmap nii.diskInode naiveDirectBlocks 0 m with
  | error x =>
      rw [hloop] at h
      cases h
  | ok b =>
      rw [hloop, ok_bind, naiveClearBit_nat] at h
      obtain rfl := Except.ok.inj h
      rw [bit_clearBit]
      simp

/-! ## Number 0 -/

/-- The data area, the bitmaps and the inode table's first block lie apart. -/
structure LaidOut (e : Endian) (sbi : SbInfo) : Prop where
  first : 0 < sbi.dataStart e
  last : sbi.dataEnd e ≤ 4096
  bitmapApart : ¬ sbi.InData e naiveBlockBitmapBlock
  inodeBitmapApart : ¬ sbi.InData e naiveInodeBitmapBlock
  table : sbi.tableBlock e 0 ≠ naiveBlockBitmapBlock ∧
    sbi.tableBlock e 0 ≠ naiveInodeBitmapBlock ∧ ¬ sbi.InData e (sbi.tableBlock e 0)

theorem LaidOut.laid (h : LaidOut e sbi) (hbm : sbi.blockBitmap = bData naiveBlockBitmapBlock) :
    Laid e sbi (onlyRecord id (sbi.tableBlock e 0)) where
  first := h.first
  last := h.last
  bitmap := hbm
  bitmapApart := h.bitmapApart
  start x nii hx := (onlyRecord_some hx).2.1
  inodeApart x nii hx := by
    rw [(onlyRecord_some hx).2.2]
    exact ⟨h.table.1, h.table.2.2⟩
  distinct x y nii nii' hx hy _ := (onlyRecord_some hx).1.trans (onlyRecord_some hy).1.symm

/-- The inode bitmap's block reads alike. -/
def SameInodeBitmap (m m' : Bytes) : Prop :=
  ∀ a, bData naiveInodeBitmapBlock ≤ a → a < bData naiveInodeBitmapBlock + naiveBlockSize →
    m' a = m a

theorem SameInodeBitmap.trans {m'' : Bytes} (h : SameInodeBitmap m m')
    (h' : SameInodeBitmap m' m'') : SameInodeBitmap m m'' :=
  fun a ha ha' => (h' a ha ha').trans (h a ha ha')

/-- No change of a write reaches the inode bitmap. -/
theorem Effect.inodeBitmap {recs : Records} {v v' : Int} (hlaid : Laid e sbi recs)
    (hid : recs id = some nii) (h3 : ¬ sbi.InData e naiveInodeBitmapBlock)
    (hb : nii.inodeBh ≠ naiveInodeBitmapBlock) (h : HeldInData e sbi recs m)
    (heff : Effect e sbi nii (m, v) (m', v')) : SameInodeBitmap m m' := by
  intro a ha ha'
  have hrec := bData_apart (i := a) hb.symm ha ha'
  rw [← hlaid.start _ _ hid] at hrec
  have hbm := bData_apart (i := a) (show naiveInodeBitmapBlock ≠ naiveBlockBitmapBlock by decide)
    ha ha'
  have hlast := hlaid.last
  cases heff with
  | attach i x hi free data clear =>
      have hend := data.2
      obtain ⟨hlo, hhi⟩ := blockBit_div (x := x) hlaid.bitmap (by omega)
      exact (putSlot_out hi (by unfold naiveBlockSize at hrec; omega)).trans
        (setBit_out (by omega))
  | detach i x hi held pos =>
      have hx : sbi.InData e x := held ▸ h _ _ _ hid hi (by omega)
      have hend := hx.2
      obtain ⟨hlo, hhi⟩ := blockBit_div (x := x) hlaid.bitmap (by omega)
      exact (putSlot_out hi (by unfold naiveBlockSize at hrec; omega)).trans
        (clearBit_out (by omega))
  | data i x off bytes hi held pos inBlock =>
      have hx : sbi.InData e x := held ▸ h _ _ _ hid hi (by omega)
      have hne : naiveInodeBitmapBlock ≠ x := by
        rintro rfl
        exact h3 hx
      have := bData_apart (i := a) hne ha ha'
      exact blit_out (by omega)
  | size w hw =>
      unfold naiveBlockSize at hrec
      exact putLE32_out (by omega)

/-- Writes on a file whose blocks are in the data area keep that, and the inode bitmap. -/
theorem writes_inodeBitmap {recs : Records} {dcache : Nat → Name → Option Nat}
    (hlaid : Laid e sbi recs) (hid : recs id = some nii)
    (h3 : ¬ sbi.InData e naiveInodeBitmapBlock) (hb : nii.inodeBh ≠ naiveInodeBitmapBlock)
    (hfile : FileAt sbi id n nii dcache s) (hdata : HeldInData e sbi recs s.mem)
    (hrun : Actions e (fun _ act => act.WritesTo id) s t) :
    HeldInData e sbi recs t.mem ∧ SameInodeBitmap s.mem t.mem := by
  induction hrun with
  | refl => exact ⟨hdata, fun _ _ _ => rfl⟩
  | tail hsu hstep ih =>
      rename_i u t
      obtain ⟨hu, hsame⟩ := ih
      obtain ⟨act, ans, r, hact, hstep⟩ := hstep
      cases act with
      | write id' data pos =>
          cases hact
          have hfu := hfile.run hsu
          obtain ⟨nd, hnd, -, -, hnii⟩ := hfu.file
          obtain ⟨nii', hid', hw⟩ := write_cases hlaid.first hfu.info hstep
          have hrec : u.records id = some nii := by simp [FS.records, hnd, hnii]
          obtain rfl := Option.some.inj (hid'.symm.trans hrec)
          obtain ⟨nd, size, mt, ct, -, -, heff⟩ := hw.self
          exact heff.keeps
            (P := fun a => HeldInData e sbi recs a.1 ∧ SameInodeBitmap s.mem a.1)
            (fun a b hab ha => ⟨(hab.sizes hlaid hid ha.1).1,
              ha.2.trans (hab.inodeBitmap hlaid hid h3 hb ha.1)⟩) ⟨hu, hsame⟩
      | op | read | setattr | writeInode | freeBlocks => exact hact.elim

/-- A record just stored holds no block. -/
theorem initDiskInode_slot {a b i ino links : Nat} {nd : Inode} {ts : Timespec}
    (hi : i < naiveDirectBlocks) :
    NaiveInodeInfo.slot ⟨a, b⟩ (initDiskInode e a nd ino links ts m) i = 0 := by
  unfold naiveDirectBlocks at hi
  have haddr : NaiveInodeInfo.iBlock ⟨a, b⟩ i = a + (12 + 4 * i) := Nat.add_assoc ..
  rw [NaiveInodeInfo.slot, haddr]
  exact getLE32_initDiskInode (by omega)

/-- Neither the record of a file numbered 0 nor its mark is elsewhere. -/
theorem Created.zero {dir : Nat} {name : Name} (h : Created e sbi s t dir name 0)
    (hlaid : LaidOut e sbi) (him : sbi.inodeBitmap = bData naiveInodeBitmapBlock) :
    HeldInData e sbi (onlyRecord id (sbi.tableBlock e 0)) t.mem ∧
      t.mem.bit (8 * sbi.inodeBitmap) = true := by
  obtain ⟨nd, ts, hmem⟩ := h.mem
  have h2 := hlaid.table.1
  have h3 := hlaid.table.2.1
  generalize hb : sbi.tableBlock e 0 = b at h2 h3
  have hb' : sbi.tableBlock e (0 : Nat) = b := hb
  rw [hb'] at hmem
  refine ⟨?_, ?_⟩
  · intro x nii i hx hi h0
    obtain ⟨-, hstart, hbh⟩ := onlyRecord_some hx
    obtain ⟨a, c⟩ := nii
    simp only at hstart hbh
    rw [hmem, hstart, hbh, initDiskInode_slot hi] at h0
    exact absurd rfl h0
  · have hout : t.mem 1536 = (s.mem.setBit (8 * sbi.inodeBitmap + 0)) 1536 := by
      rw [hmem]
      refine initDiskInode_out ?_
      unfold bData naiveBlockSize naiveBlockBitmapBlock naiveInodeBitmapBlock at *
      omega
    have hbit : t.mem.bit (8 * sbi.inodeBitmap)
        = (s.mem.setBit (8 * sbi.inodeBitmap + 0)).bit (8 * sbi.inodeBitmap) := by
      have hbyte : 8 * sbi.inodeBitmap / 8 = 1536 := by
        rw [him]
        rfl
      apply bit_congr
      rw [hbyte, hout]
    rw [hbit, bit_setBit]
    simp

/-- Bit -1 is the last bit of the byte before the bitmap. -/
theorem naiveClearBit_neg_one {addr : Nat} (h : 0 < addr) :
    naiveClearBit (-1) addr m = .ok (m.clearBit (8 * addr - 1)) := by
  have hbyte : bitByte (-1) addr = .ok (addr - 1) := by
    unfold bitByte
    rw [if_neg (by omega)]
    congr 1
    omega
  rw [naiveClearBit, hbyte, ok_bind, show 8 * (addr - 1) + ((-1 : Int) % 8).toNat
    = 8 * addr - 1 by omega]
  rfl

/-- With number 0 the file's own bit stays set. -/
theorem number_zero_stays {dir : Nat} {name : Name} {t u v : FS}
    (hsbi : s.sFsInfo = .live sbi) (hbm : sbi.blockBitmap = bData naiveBlockBitmapBlock)
    (him : sbi.inodeBitmap = bData naiveInodeBitmapBlock) (hlaid : LaidOut e sbi)
    (hc : Created e sbi s t dir name 0)
    (hwrites : Actions e (fun _ act => act.WritesTo s.nextInode) t u)
    (hmem : unlinkMem e sbi 0 ⟨bData (sbi.tableBlock e 0), sbi.tableBlock e 0⟩ u.mem
      = .ok v.mem) :
    v.mem.bit (8 * sbi.inodeBitmap) = true := by
  have hfile := hc.fileAt hsbi
  obtain ⟨hdata, hset⟩ :
      HeldInData e sbi (onlyRecord s.nextInode (sbi.tableBlock e 0)) t.mem ∧
        t.mem.bit (8 * sbi.inodeBitmap) = true := hc.zero hlaid him
  have h2 := hlaid.table.1
  have h3 := hlaid.table.2.1
  have hcast : sbi.tableBlock e (0 : Nat) = sbi.tableBlock e 0 := rfl
  rw [hcast] at hfile
  have hL : Laid e sbi (onlyRecord s.nextInode (sbi.tableBlock e 0)) := hlaid.laid hbm
  generalize sbi.tableBlock e 0 = b at *
  have hid : onlyRecord s.nextInode b s.nextInode = some ⟨bData b, b⟩ := if_pos rfl
  obtain ⟨hdata', hsame⟩ := writes_inodeBitmap hL hid hlaid.inodeBitmapApart h3 hfile hdata hwrites
  obtain ⟨m', hloop, -, -, -, hout⟩ := freeFileBlocksLoop_keeps (i := 0) (n := naiveDirectBlocks)
    (I := HeldInData e sbi (onlyRecord s.nextInode b)) hL hid (by decide)
    (fun m i hm hi h0 => hm _ _ _ hid hi h0)
    (fun m i hm hi h0 => hm.stored (giveBack_stored hL hid hi (hm _ _ _ hid hi h0)).1
      fun h => absurd rfl h) hdata'
  rw [him] at hset ⊢
  rw [unlinkMem, him, hloop, ok_bind, show toInt32 (((0 : Nat) : Int) - 1) = -1 by decide,
    naiveClearBit_neg_one (by decide)] at hmem
  obtain hv := Except.ok.inj hmem
  have hrec : (1536 : Nat) < bData b ∨ bData b + naiveBlockSize ≤ 1536 :=
    bData_apart (a := naiveInodeBitmapBlock) (fun h => h3 h.symm) (by decide) (by decide)
  unfold naiveBlockSize at hrec
  have hbyte : clearDiskInode e (bData b) (store32 e m' (bData b + 8) 0) 1536 = t.mem 1536 := by
    rw [clearDiskInode_out (by omega), store32_out (by omega),
      hout 1536 ⟨by show 1536 < bData b + 12 ∨ bData b + 44 ≤ 1536; omega, .inr (by decide)⟩,
      hsame 1536 (by decide) (by decide)]
  rw [← hv, bit_clearBit, bit_congr (c := t.mem) hbyte, hset]
  rfl

/-! ## Creation, writes, deletion -/

/-- Both bitmaps are, bit for bit, what they were. -/
def GivenBack (e : Endian) (sbi : SbInfo) (s t : FS) : Prop :=
  (∀ n, n < le32ToCpu e sbi.inodesCount →
    t.mem.bit (8 * sbi.inodeBitmap + n) = s.mem.bit (8 * sbi.inodeBitmap + n)) ∧
  ∀ x, x < le32ToCpu e sbi.blocksCount →
    t.mem.bit (sbi.blockBit x) = s.mem.bit (sbi.blockBit x)

/-- In every state reached after a mount, creating a file, writing to it any number of
times and deleting it leaves the inode bitmap changed. -/
theorem deletion_never_gives_back {image : Bytes} {s₀ s₁ s₂ : FS} {dir perm : Nat}
    {name : Name} {ans' : Answers} (hm : Mounted e image s₀)
    (hgeo : LaidOut e (.ofImage image) ∨
      s.mem.bit (8 * (SbInfo.ofImage image).inodeBitmap) = true)
    (hrun : Actions e (fun _ act => act.OnFiles) s₀ s)
    (hcreate : Acts e s (.op (.create dir name perm)) ans 0 s₁)
    (hwrites : Actions e (fun _ act => act.WritesTo s.nextInode) s₁ s₂)
    (hunlink : Acts e s₂ (.op (.unlink dir name)) ans' 0 t) :
    ¬ GivenBack e (.ofImage image) s t := by
  have hsbi : s.sFsInfo = .live (.ofImage image) := (info_run hrun).trans hm.cases.info
  obtain ⟨n, hc⟩ := naiveCreate_zero hsbi hcreate
  have hname : (s.setDentry dir name (some s.nextInode)).dcache dir name = some s.nextInode := by
    rw [FS.dcache_setDentry, if_pos ⟨rfl, rfl⟩]
  have hmem := ((hc.fileAt hsbi).run hwrites).unlink hname hunlink
  rintro ⟨hinodes, -⟩
  by_cases h0 : n = 0
  · subst h0
    obtain hlaid | hset := hgeo
    · have hstays := number_zero_stays hsbi rfl rfl hlaid hc hwrites hmem
      have hsame := hinodes 0 hc.total
      rw [Nat.add_zero, hstays] at hsame
      exact Bool.false_ne_true (hc.free.symm.trans hsame.symm)
    · exact Bool.false_ne_true (hc.free.symm.trans hset)
  · have hclear := unlinkMem_bit hmem (Nat.pos_of_ne_zero h0) hc.int
    have htotal := hc.total
    have hset := hc.least (n - 1) (by omega)
    rw [← hinodes (n - 1) (by omega), hclear] at hset
    cases hset

/-- The name of one letter. -/
def aName : Name := Name.letters 1 Nat.one_pos Name.one_le_max

/-- On a mounted fresh image a file is created, given one byte and deleted: the root's bit
ends clear, the file's set. -/
theorem fresh_deletion : ∃ s s₁ s₂ t, Mounted .little freshImage s ∧
    Acts .little s (.op (.create 0 aName 0o644)) (.good ⟨5, 0⟩ 0 0) 0 s₁ ∧
    Actions .little (fun _ act => act.WritesTo s.nextInode) s₁ s₂ ∧
    Acts .little s₂ (.op (.unlink 0 aName)) (.good ⟨7, 0⟩ 0 0) 0 t ∧
    s.mem.bit (8 * 1536) = true ∧ t.mem.bit (8 * 1536) = false ∧
    s.mem.bit (8 * 1536 + 1) = false ∧ t.mem.bit (8 * 1536 + 1) = true := by
  have h : succeeds (naiveFillSuper .little) (.good ⟨4, 0⟩ 0 0) { mem := freshImage } (fun s =>
      (s.nextInode == 1 && s.mem.bit (8 * 1536) && !s.mem.bit (8 * 1536 + 1)) &&
      succeeds ((Action.op (.create 0 aName 0o644)).prog .little) (.good ⟨5, 0⟩ 0 0) s fun s₁ =>
        actsTo .little [(.write 1 [7] 0, .good ⟨6, 0⟩ 0 0)] s₁ fun s₂ =>
          succeeds ((Action.op (.unlink 0 aName)).prog .little) (.good ⟨7, 0⟩ 0 0) s₂ fun t =>
            !t.mem.bit (8 * 1536) && t.mem.bit (8 * 1536 + 1)) = true := by
    decide +kernel
  obtain ⟨s, hm, hs⟩ := exists_of_succeeds h
  simp only [Bool.and_eq_true, beq_iff_eq, Bool.not_eq_true'] at hs
  obtain ⟨⟨⟨hnext, hs0⟩, hs1⟩, hs⟩ := hs
  obtain ⟨s₁, hcreate, hs₁⟩ := exists_of_succeeds hs
  obtain ⟨s₂, hwrites, hs₂⟩ := exists_of_actsTo (P := fun _ act => act.WritesTo s.nextInode)
    (fun _ x hx => by
      obtain rfl := List.mem_singleton.mp hx
      exact hnext.symm) hs₁
  obtain ⟨t, hunlink, ht⟩ := exists_of_succeeds hs₂
  simp only [Bool.and_eq_true, Bool.not_eq_true'] at ht
  exact ⟨s, s₁, s₂, t, ⟨_, hm⟩, hcreate, hwrites, hunlink, hs0, ht.1, hs1, ht.2⟩

theorem deletion_on_fresh_image : ∃ s t, Mounted .little freshImage s ∧
    ¬ GivenBack .little (.ofImage freshImage) s t := by
  obtain ⟨s, s₁, s₂, t, hm, hcreate, hwrites, hunlink, -⟩ := fresh_deletion
  refine ⟨s, t, hm, ?_⟩
  refine deletion_never_gives_back hm (.inl ⟨?_, ?_, ?_, ?_, ?_⟩) .refl hcreate hwrites hunlink
  all_goals decide +kernel

/-- There the root's bit is not what it was. -/
theorem deletion_frees_root_bit : ∃ s s₁ s₂ t ans ans', Mounted .little freshImage s ∧
    Acts .little s (.op (.create 0 aName 0o644)) ans 0 s₁ ∧
    Actions .little (fun _ act => act.WritesTo s.nextInode) s₁ s₂ ∧
    Acts .little s₂ (.op (.unlink 0 aName)) ans' 0 t ∧
    ¬ GivenBack .little (.ofImage freshImage) s t := by
  obtain ⟨s, s₁, s₂, t, hm, hcreate, hwrites, hunlink, hs, ht, -⟩ := fresh_deletion
  refine ⟨s, s₁, s₂, t, _, _, hm, hcreate, hwrites, hunlink, ?_⟩
  rintro ⟨hinodes, -⟩
  have hsame := hinodes 0 (by decide +kernel)
  exact Bool.false_ne_true (ht.symm.trans (hsame.trans hs))

end NaiveFS.V8
