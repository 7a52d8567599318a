import NaiveFS.V8.Accounting

/-!
# The two copies of a file's size (`naivefs-8`)

`i_size` is in the VFS inode and in `naive_disk_inode`. A write and a write-back
leave both alike; a truncation sets only the VFS copy, so until the write-back
that follows it reads and writes find the old size on disk.
-/

namespace NaiveFS.V8

open Bytes

variable {e : Endian} {sbi : SbInfo} {recs : Records} {nii nii' : NaiveInodeInfo} {m m' : Bytes}
  {v v' : Int} {id id' : Nat} {ans : Answers} {s t : FS} {r : Int}

/-- `disk_inode->i_size`. -/
def NaiveInodeInfo.size (nii : NaiveInodeInfo) (m : Bytes) : Nat := m.getLE32 (nii.diskInode + 44)

/-- A record just stored has size 0. -/
theorem size_initDiskInode {a b ino links : Nat} {nd : Inode} {ts : Timespec} :
    NaiveInodeInfo.size ⟨a, b⟩ (initDiskInode e a nd ino links ts m) = 0 :=
  getLE32_initDiskInode (.inl ⟨by decide, by decide⟩)

theorem SameBytes.size (h : SameBytes nii 44 48 m m') : nii.size m' = nii.size m :=
  getLE32_congr fun a ha ha' => h a (by omega) (by omega)

/-- Every block that is held is in the data area. -/
def HeldInData (e : Endian) (sbi : SbInfo) (recs : Records) (m : Bytes) : Prop :=
  ∀ id nii i, recs id = some nii → i < naiveDirectBlocks → nii.slot m i ≠ 0 →
    sbi.InData e (nii.slot m i)

theorem HeldInData.congr (h : HeldInData e sbi recs m)
    (hrec : ∀ id nii, recs id = some nii → SameRecord nii m m') : HeldInData e sbi recs m' := by
  intro id nii i hid hi h0
  rw [(hrec id nii hid).slot hi] at h0 ⊢
  exact h id nii i hid hi h0

theorem HeldInData.stored {i x : Nat} (h : HeldInData e sbi recs m)
    (hst : SlotStored recs id i x m m') (hx : x ≠ 0 → sbi.InData e x) :
    HeldInData e sbi recs m' := by
  intro id' nii' j hid' hj h0
  by_cases heq : (id', j) = (id, i)
  · cases heq
    rw [hst.self _ hid'] at h0 ⊢
    exact hx h0
  · rw [hst.others _ _ _ hid' hj heq] at h0 ⊢
    exact h _ _ _ hid' hj h0

/-! ## What a change of a write does to the sizes -/

/-- A mark changes, slot `i` is stored: the sizes stay. -/
theorem putSlot_size {i y : Nat} {d : Int} {b : Bytes} (hlaid : Laid e sbi recs)
    (hid : recs id = some nii) (hid' : recs id' = some nii') (hi : i < naiveDirectBlocks)
    (hbit : ∀ a, a < bData naiveBlockBitmapBlock ∨
      bData naiveBlockBitmapBlock + naiveBlockSize ≤ a → b a = m a) :
    nii'.size (putSlot nii d i y b) = nii'.size m := by
  have hmark : SameBytes nii' 44 48 m b := bitmap_record hlaid hid' (by decide) hbit
  rw [← hmark.size]
  by_cases hne : id' = id
  · subst hne
    obtain rfl := Option.some.inj (hid.symm.trans hid')
    exact SameBytes.size fun a ha _ => putSlot_out hi (by omega)
  · exact (putSlot_record hlaid hid hid' hne hi (by decide)).size

/-- A block outside the data area keeps its bytes. -/
theorem blit_record {x off : Nat} {bytes : List Byte} {lo up : Nat} (hlaid : Laid e sbi recs)
    (hid : recs id = some nii) (hup : up ≤ naiveBlockSize) (hx : sbi.InData e x)
    (hin : off + bytes.length ≤ naiveBlockSize) :
    SameBytes nii lo up m (m.blit (bData x + off) bytes) := by
  intro a ha ha'
  have hb : nii.inodeBh ≠ x := by
    rintro rfl
    exact (hlaid.inodeApart _ _ hid).2 hx
  rw [hlaid.start _ _ hid] at ha ha'
  have := bData_apart (i := a) hb (by omega) (by omega)
  exact blit_out (by omega)

/-- Bytes of one record are outside every other. -/
theorem record_apart {lo up a : Nat} (hlaid : Laid e sbi recs) (hid : recs id = some nii)
    (hid' : recs id' = some nii') (hne : id' ≠ id) (hup : up ≤ naiveBlockSize)
    (ha : nii'.diskInode + lo ≤ a) (ha' : a < nii'.diskInode + up) :
    a < nii.diskInode ∨ nii.diskInode + naiveBlockSize ≤ a := by
  have hb : nii'.inodeBh ≠ nii.inodeBh := fun h => hne (hlaid.distinct _ _ _ _ hid' hid h)
  rw [hlaid.start _ _ hid'] at ha ha'
  rw [hlaid.start _ _ hid]
  exact bData_apart hb (by omega) (by omega)

/-- A change keeps the blocks in the data area, the sizes of other files, and the
agreement of the two copies of this file's. -/
theorem Effect.sizes (hlaid : Laid e sbi recs) (hid : recs id = some nii)
    (h : HeldInData e sbi recs m) (heff : Effect e sbi nii (m, v) (m', v')) :
    HeldInData e sbi recs m' ∧ (v = nii.size m → v' = nii.size m') ∧
      ∀ id' nii', recs id' = some nii' → id' ≠ id → nii'.size m' = nii'.size m := by
  cases heff with
  | attach i x hi free data clear =>
      have hlast := hlaid.last
      have hend := data.2
      obtain ⟨hlo, hhi⟩ := blockBit_div (x := x) hlaid.bitmap (by omega)
      -- the mark is in the bitmap block and the pointer in the record, so no size is touched
      have hbit : ∀ a, a < bData naiveBlockBitmapBlock ∨
          bData naiveBlockBitmapBlock + naiveBlockSize ≤ a →
          m.setBit (sbi.blockBit x) a = m a := fun a _ => setBit_out (by omega)
      have hstored := SlotStored.putSlot (d := 1) hlaid hid hi (show x < 2 ^ 32 by omega)
        fun _ _ h => bitmap_record hlaid h (by decide) hbit
      have hsize : ∀ id' nii', recs id' = some nii' →
        nii'.size (putSlot nii 1 i x _) = nii'.size m :=
        fun _ _ h => putSlot_size hlaid hid h hi hbit
      exact ⟨h.stored hstored fun _ => data, fun hv => hv.trans
        (congrArg Nat.cast (hsize _ _ hid).symm), fun id' nii' h _ => hsize id' nii' h⟩
  | detach i x hi held pos =>
      have hx : sbi.InData e x := held ▸ h _ _ _ hid hi (by omega)
      have hlast := hlaid.last
      have hend := hx.2
      obtain ⟨hlo, hhi⟩ := blockBit_div (x := x) hlaid.bitmap (by omega)
      have hbit : ∀ a, a < bData naiveBlockBitmapBlock ∨
          bData naiveBlockBitmapBlock + naiveBlockSize ≤ a →
          m.clearBit (sbi.blockBit x) a = m a := fun a _ => clearBit_out (by omega)
      have hstored := SlotStored.putSlot (d := -1) hlaid hid hi (show 0 < 2 ^ 32 by omega)
        fun _ _ h => bitmap_record hlaid h (by decide) hbit
      have hsize : ∀ id' nii', recs id' = some nii' →
        nii'.size (putSlot nii (-1) i 0 _) = nii'.size m :=
        fun _ _ h => putSlot_size hlaid hid h hi hbit
      exact ⟨h.stored hstored fun h0 => absurd rfl h0, fun hv => hv.trans
        (congrArg Nat.cast (hsize _ _ hid).symm), fun id' nii' h _ => hsize id' nii' h⟩
  | data i x off bytes hi held pos inBlock =>
      have hx : sbi.InData e x := held ▸ h _ _ _ hid hi (by omega)
      -- file data is in the data area, outside every record
      have hrec : ∀ id' nii', recs id' = some nii' → ∀ lo up, up ≤ naiveBlockSize →
          SameBytes nii' lo up m (m.blit (bData x + off) bytes) :=
        fun _ _ h _ _ hup => blit_record hlaid h hup hx inBlock
      refine ⟨h.congr fun _ _ h => hrec _ _ h _ _ (by decide), fun hv => ?_, fun _ _ h _ => ?_⟩
      · rw [hv, (hrec _ _ hid 44 48 (by decide)).size]
      · exact (hrec _ _ h 44 48 (by decide)).size
  | size w hw =>
      refine ⟨h.congr fun id' nii' hid' a ha ha' => ?_, fun _ => ?_, fun id' nii' hid' hne => ?_⟩
      · by_cases hne : id' = id
        · subst hne
          obtain rfl := Option.some.inj (hid.symm.trans hid')
          exact putLE32_out (by omega)
        · have := record_apart hlaid hid hid' hne (by decide) ha ha'
          unfold naiveBlockSize at this
          exact putLE32_out (by omega)
      · rw [NaiveInodeInfo.size, getLE32_putLE32, Nat.mod_eq_of_lt hw]
      · refine SameBytes.size fun a ha ha' => ?_
        have := record_apart hlaid hid hid' hne (by decide) ha ha'
        unfold naiveBlockSize at this
        exact putLE32_out (by omega)

/-! ## Write-back, truncation, reading -/

theorem writeDiskInode_out {nd : Inode} {d a : Nat}
    (h : a < d ∨ (d + 4 ≤ a ∧ a < d + 44) ∨ d + 72 ≤ a) : writeDiskInode e d nd m a = m a := by
  unfold writeDiskInode
  rw [store32_out (by omega), store32_out (by omega), store32_out (by omega),
    store32_out (by omega), store32_out (by omega), store32_out (by omega),
    store32_out (by omega), store32_out (by omega)]

/-- The write-back stores the VFS size. -/
theorem writeDiskInode_size {nd : Inode} :
    nii.size (writeDiskInode e nii.diskInode nd m) = toU32 nd.iSize := by
  have hsize : ∀ b : Bytes, nii.size (store32 e b (nii.diskInode + 44)
      (cpuToLe32 e (toU32 nd.iSize))) = toU32 nd.iSize := by
    intro b
    rw [store32_cpuToLe32 (toU32_lt _), NaiveInodeInfo.size, getLE32_putLE32,
      Nat.mod_eq_of_lt (toU32_lt _)]
  rw [← hsize (store32 e m nii.diskInode (cpuToLe32 e nd.iMode)), writeDiskInode]
  refine SameBytes.size fun a ha ha' => ?_
  rw [store32_out (by omega), store32_out (by omega), store32_out (by omega),
    store32_out (by omega), store32_out (by omega), store32_out (by omega)]

/-- The VFS's copy of the size. -/
def FS.vfsSize (s : FS) (id : Nat) : Option Int := (s.inodes id).map (·.iSize)

/-- Neither memory nor sizes nor records changed. -/
structure Quiet (s t : FS) : Prop where
  mem : t.mem = s.mem
  info : t.sFsInfo = s.sFsInfo
  sizes : t.vfsSize = s.vfsSize
  records : t.records = s.records

theorem Quiet.of_inodes (hmem : t.mem = s.mem) (hinfo : t.sFsInfo = s.sFsInfo)
    (hino : t.inodes = s.inodes) : Quiet s t :=
  ⟨hmem, hinfo, by funext x; simp [FS.vfsSize, hino], by funext x; simp [FS.records, hino]⟩

/-- The inode's times changed. -/
theorem Quiet.setInode {nd nd' : Inode} (h : s.inodes id = some nd) (hsize : nd'.iSize = nd.iSize)
    (hnii : nd'.iPrivate = nd.iPrivate) : Quiet s (s.setInode id nd') := by
  refine ⟨rfl, rfl, funext fun x => ?_, funext fun x => ?_⟩
  · by_cases hx : x = id
    · simp [FS.vfsSize, hx, h, hsize]
    · simp [FS.vfsSize, FS.inodes_setInode_ne hx]
  · by_cases hx : x = id
    · simp [FS.records, hx, h, hnii]
    · simp [FS.records, FS.inodes_setInode_ne hx]

theorem Quiet.trans {u : FS} (h : Quiet s t) (h' : Quiet t u) : Quiet s u :=
  ⟨h'.mem.trans h.mem, h'.info.trans h.info, h'.sizes.trans h.sizes,
    h'.records.trans h.records⟩

theorem sbBread_keeps {site : Site} {b : Nat} (s : FS) :
    Prog.Keeps ans (fun u => u.mem = s.mem ∧ u.sFsInfo = s.sFsInfo ∧ u.inodes = s.inodes)
      (sbBread site b) := by
  intro u a t hu h
  cases hread : ans (.sbBread site b) with
  | false =>
      rw [exec_sbBread_fail hread] at h
      cases h
      exact hu
  | true =>
      rw [exec_sbBread_ok hread] at h
      cases h
      exact hu

/-- The read loop changes only reference counts. -/
theorem fileReadLoop_keeps {fileSize fuel pos len : Nat} {out : List Byte} {n : Int} (s : FS) :
    Prog.Keeps ans (fun u => u.mem = s.mem ∧ u.sFsInfo = s.sFsInfo ∧ u.inodes = s.inodes)
      (fileReadLoop e nii fileSize fuel pos len out n) := by
  induction fuel generalizing pos len out n with
  | zero => exact .ite (.pure _) (.fault _)
  | succ fuel ih =>
      refine .ite (.pure _) (.bind (.read _) fun p => .ite (.pure _) (.bind (sbBread_keeps s)
        fun ok => .ite (.pure _) (.bind (.read _) fun d => .bind (.ask _) fun left =>
          .bind (.modify fun u hu => hu) fun _ => .ite (.pure _) ih)))

theorem read_cases {len pos : Nat} (h : Acts e s (.read id len pos) ans r t) : Quiet s t := by
  rw [Acts, Action.prog] at h
  obtain ⟨q, u, hq, hret⟩ := Prog.exec_bind_ok.mp h
  cases hret
  rw [naiveFileRead] at hq
  obtain ⟨nii, v, hnii, hrest⟩ := Prog.exec_bind_ok.mp hq
  obtain ⟨-, rfl⟩ := exec_naiveI_ok hnii
  rw [Prog.exec_read_bind, Prog.exec_ite] at hrest
  split at hrest
  · cases hrest
    exact .of_inodes rfl rfl rfl
  obtain ⟨q', w, hloop, hrest⟩ := Prog.exec_bind_ok.mp hrest
  obtain ⟨hmem, hinfo, hino⟩ := fileReadLoop_keeps v v _ w ⟨rfl, rfl, rfl⟩ hloop
  rw [Prog.exec_bind_of exec_ktime] at hrest
  obtain ⟨_, x, hupd, hret⟩ := Prog.exec_bind_ok.mp hrest
  obtain ⟨nd, hnd, rfl⟩ := exec_updInode_ok hupd
  cases hret
  exact (Quiet.of_inodes hmem hinfo hino).trans (.setInode hnd rfl rfl)

/-- A truncation that succeeds sets the VFS size, and nothing else. -/
theorem setattr_cases {size : Nat} (h : Acts e s (.setattr id size) ans r t) :
    (r ≠ 0 ∧ Quiet s t) ∨
    (r = 0 ∧ size ≤ sMaxbytes ∧ t.mem = s.mem ∧ t.sFsInfo = s.sFsInfo ∧ t.records = s.records ∧
      t.vfsSize = Function.update s.vfsSize id (some (size : Int))) := by
  rw [Acts, Action.prog, simpleSetattr, Prog.exec_ite] at h
  split at h
  · cases h
    exact .inl ⟨by decide, .of_inodes rfl rfl rfl⟩
  · obtain ⟨_, u, hupd, hret⟩ := Prog.exec_bind_ok.mp h
    obtain ⟨nd, hnd, rfl⟩ := exec_updInode_ok hupd
    cases hret
    refine .inr ⟨rfl, by omega, rfl, rfl, funext fun x => ?_, funext fun x => ?_⟩
    · by_cases hx : x = id
      · simp [FS.records, hx, hnd]
      · simp [FS.records, FS.inodes_setInode_ne hx]
    · by_cases hx : x = id
      · simp [FS.vfsSize, hx]
      · simp [FS.vfsSize, FS.inodes_setInode_ne hx, hx]

/-- A write-back of an inode with a record stores it. -/
theorem writeInode_cases (h : Acts e s (.writeInode id) ans r t) :
    (r ≠ 0 ∧ t = s ∧ s.records id = none) ∨
    ∃ nd nii, r = 0 ∧ s.inodes id = some nd ∧ nd.iPrivate = some nii ∧
      t.mem = writeDiskInode e nii.diskInode nd s.mem ∧ t.sFsInfo = s.sFsInfo ∧
      t.inodes = s.inodes := by
  rw [Acts, Action.prog, naiveWriteInode] at h
  obtain ⟨nd, u, hnd, hrest⟩ := Prog.exec_bind_ok.mp h
  obtain ⟨hid, rfl⟩ := exec_inode_ok hnd
  cases hp : nd.iPrivate with
  | none =>
      simp only [hp] at hrest
      cases hrest
      exact .inl ⟨by decide, rfl, by simp [FS.records, hid, hp]⟩
  | some nii =>
      simp only [hp] at hrest
      cases hrest
      exact .inr ⟨nd, nii, rfl, hid, hp, rfl, rfl, rfl⟩

/-! ## Runs -/

/-- The files whose size was changed by `simple_setattr` and not written back since. -/
def pendingAfter (s : FS) (p : Nat → Prop) (act : Action) (r : Int) : Nat → Prop :=
  match act with
  | .setattr id size => fun x => p x ∨ (x = id ∧ r = 0 ∧ s.vfsSize id ≠ some (size : Int))
  | .writeInode id => fun x => p x ∧ ¬ (x = id ∧ r = 0)
  | _ => p

/-- A file is read or written only with no size change pending. -/
def Settled (p : Nat → Prop) : Action → Prop
  | .write id .. | .read id .. => ¬ p id
  | .setattr .. | .writeInode _ => True
  | .op _ | .freeBlocks _ => False

/-- A run of reads, writes, truncations and write-backs, with the pending changes. -/
def SettledRun (e : Endian) : FS × (Nat → Prop) → FS × (Nat → Prop) → Prop :=
  Relation.ReflTransGen fun a b => ∃ act ans r, Settled a.2 act ∧ Acts e a.1 act ans r b.1 ∧
    b.2 = pendingAfter a.1 a.2 act r

theorem SettledRun.act {a : FS × (Nat → Prop)} {p : Nat → Prop} {act : Action}
    (h : SettledRun e a (s, p)) (hstep : Acts e s act ans r t) (hact : Settled p act) :
    SettledRun e a (t, pendingAfter s p act r) :=
  h.tail ⟨act, ans, r, hact, hstep, rfl⟩

/-- The two copies of each size agree but for the pending changes. -/
structure Sized (e : Endian) (sbi : SbInfo) (recs : Records) (p : Nat → Prop) (s : FS) :
    Prop where
  info : s.sFsInfo = .live sbi
  same : s.records = recs
  inData : HeldInData e sbi recs s.mem
  range : ∀ id nii, recs id = some nii → ∃ n : Nat, n < 2 ^ 32 ∧ s.vfsSize id = some (n : Int)
  agree : ∀ id nii, recs id = some nii → ¬ p id → s.vfsSize id = some (nii.size s.mem : Int)

theorem Sized.quiet {p : Nat → Prop} (h : Sized e sbi recs p s) (hq : Quiet s t) :
    Sized e sbi recs p t where
  info := hq.info.trans h.info
  same := hq.records.trans h.same
  inData := hq.mem ▸ h.inData
  range id nii hid := hq.sizes ▸ h.range id nii hid
  agree id nii hid hp := by
    rw [hq.sizes, hq.mem]
    exact h.agree id nii hid hp

theorem Sized.write {p : Nat → Prop} (h : Sized e sbi recs p s) (hlaid : Laid e sbi recs)
    (hid : recs id = some nii) (hp : ¬ p id) (hw : Writes e sbi id nii s t) :
    Sized e sbi recs p t := by
  obtain ⟨nd, size, mt, ct, hs, ht, heff⟩ := hw.self
  have hsize : nd.iSize = nii.size s.mem := by
    have := h.agree id nii hid hp
    rw [FS.vfsSize, hs] at this
    exact Option.some.inj this
  obtain ⟨hdata, hself, hothers⟩ := heff.keeps
    (P := fun a => HeldInData e sbi recs a.1 ∧ a.2 = nii.size a.1 ∧
      ∀ id' nii', recs id' = some nii' → id' ≠ id → nii'.size a.1 = nii'.size s.mem)
    (fun a b hab ha => by
      obtain ⟨h1, h2, h3⟩ := Effect.sizes hlaid hid ha.1 hab
      exact ⟨h1, h2 ha.2.1, fun x nx hx hne => (h3 x nx hx hne).trans (ha.2.2 x nx hx hne)⟩)
    ⟨h.inData, hsize, fun _ _ _ _ => rfl⟩
  have hvfs : t.vfsSize id = some (nii.size t.mem : Int) := by
    rw [FS.vfsSize, ht]
    exact congrArg some hself
  have hvfs' : ∀ x, x ≠ id → t.vfsSize x = s.vfsSize x := by
    intro x hx
    rw [FS.vfsSize, hw.others x hx, FS.vfsSize]
  refine ⟨hw.info.trans h.info, hw.records.trans h.same, hdata, fun x nx hx => ?_,
    fun x nx hx hpx => ?_⟩
  · by_cases hxid : x = id
    · exact ⟨nii.size t.mem, getLE32_lt _ _, hxid ▸ hvfs⟩
    · rw [hvfs' x hxid]
      exact h.range x nx hx
  · by_cases hxid : x = id
    · subst hxid
      obtain rfl := Option.some.inj (hid.symm.trans hx)
      exact hvfs
    · rw [hvfs' x hxid, hothers x nx hx hxid]
      exact h.agree x nx hx hpx

theorem Sized.setattr {p : Nat → Prop} {size : Nat} (h : Sized e sbi recs p s)
    (hstep : Acts e s (.setattr id size) ans r t) :
    Sized e sbi recs (pendingAfter s p (.setattr id size) r) t := by
  obtain ⟨hr, hq⟩ | ⟨rfl, hmax, hmem, hinfo, hrecs, hsizes⟩ := setattr_cases hstep
  · have hsame : pendingAfter s p (.setattr id size) r = p := by
      funext x
      simp [pendingAfter, hr]
    rw [hsame]
    exact h.quiet hq
  refine ⟨hinfo.trans h.info, hrecs.trans h.same, hmem ▸ h.inData, fun x nx hx => ?_,
    fun x nx hx hpx => ?_⟩
  · rw [hsizes]
    by_cases hxid : x = id
    · subst hxid
      exact ⟨size, by unfold sMaxbytes at hmax; omega, Function.update_self ..⟩
    · rw [Function.update_of_ne hxid]
      exact h.range x nx hx
  · have hold := h.agree x nx hx fun hp => hpx (.inl hp)
    rw [hsizes, hmem]
    by_cases hxid : x = id
    · subst hxid
      have hsize : s.vfsSize x = some (size : Int) := by
        by_contra hne
        exact hpx (.inr ⟨rfl, rfl, hne⟩)
      rw [Function.update_self, ← hsize, hold]
    · rw [Function.update_of_ne hxid]
      exact hold

/-- After the write-back of an inode the two copies of its size agree. -/
theorem writeInode_size {p : Nat → Prop} (h : Sized e sbi recs p s) (hid : recs id = some nii)
    (hstep : Acts e s (.writeInode id) ans r t) :
    r = 0 ∧ t.vfsSize id = some (nii.size t.mem : Int) := by
  obtain ⟨-, -, hnone⟩ | ⟨nd, nii', hr, hnd, hnii, hmem, -, hino⟩ := writeInode_cases hstep
  · rw [h.same, hid] at hnone
    cases hnone
  · have hid' : s.records id = some nii' := by simp [FS.records, hnd, hnii]
    rw [h.same, hid] at hid'
    obtain rfl := Option.some.inj hid'
    obtain ⟨n, hn, hsize⟩ := h.range id nii hid
    have hndsize : nd.iSize = n := by
      rw [FS.vfsSize, hnd] at hsize
      exact Option.some.inj hsize
    refine ⟨hr, ?_⟩
    rw [FS.vfsSize, hino, hnd, hmem, writeDiskInode_size, hndsize, toU32_natCast hn,
      Option.map_some, hndsize]

theorem Sized.writeInode {p : Nat → Prop} (h : Sized e sbi recs p s) (hlaid : Laid e sbi recs)
    (hstep : Acts e s (.writeInode id) ans r t) :
    Sized e sbi recs (pendingAfter s p (.writeInode id) r) t := by
  obtain ⟨hr, rfl, -⟩ | ⟨nd, nii, hr, hnd, hnii, hmem, hinfo, hino⟩ := writeInode_cases hstep
  · have hsame : pendingAfter t p (.writeInode id) r = p := by
      funext x
      simp [pendingAfter, hr]
    rw [hsame]
    exact h
  have hid : recs id = some nii := by
    rw [← h.same, FS.records, hnd, Option.bind_some, hnii]
  have hrecs : t.records = s.records := by
    funext x
    simp [FS.records, hino]
  have hsizes : t.vfsSize = s.vfsSize := by
    funext x
    simp [FS.vfsSize, hino]
  have hothers : ∀ x nx, recs x = some nx → x ≠ id → ∀ lo up, up ≤ naiveBlockSize →
      SameBytes nx lo up s.mem t.mem := by
    intro x nx hx hne lo up hup a ha ha'
    have := record_apart hlaid hid hx hne hup ha ha'
    unfold naiveBlockSize at this
    rw [hmem, writeDiskInode_out (by omega)]
  refine ⟨hinfo.trans h.info, hrecs.trans h.same, h.inData.congr fun x nx hx => ?_,
    fun x nx hx => hsizes ▸ h.range x nx hx, fun x nx hx hpx => ?_⟩
  · by_cases hxid : x = id
    · subst hxid
      obtain rfl := Option.some.inj (hid.symm.trans hx)
      intro a ha ha'
      rw [hmem, writeDiskInode_out (by omega)]
    · exact hothers x nx hx hxid _ _ (by decide)
  · by_cases hxid : x = id
    · subst hxid
      obtain rfl := Option.some.inj (hid.symm.trans hx)
      exact (writeInode_size h hid hstep).2
    · rw [hsizes, (hothers x nx hx hxid 44 48 (by decide)).size]
      exact h.agree x nx hx fun hp => hpx ⟨hp, fun hxr => hxid hxr.1⟩

theorem Sized.step {p : Nat → Prop} {act : Action} (h : Sized e sbi recs p s)
    (hlaid : Laid e sbi recs) (hact : Settled p act) (hstep : Acts e s act ans r t) :
    Sized e sbi recs (pendingAfter s p act r) t := by
  cases act with
  | write id data pos =>
      obtain ⟨nii, hid, hw⟩ := write_cases hlaid.first h.info hstep
      exact h.write hlaid (h.same ▸ hid) hact hw
  | read id len pos => exact h.quiet (read_cases hstep)
  | setattr id size => exact h.setattr hstep
  | writeInode id => exact h.writeInode hlaid hstep
  | op | freeBlocks => exact hact.elim

theorem Sized.run {a b : FS × (Nat → Prop)} (h : Sized e sbi recs a.2 a.1)
    (hlaid : Laid e sbi recs) (hrun : SettledRun e a b) : Sized e sbi recs b.2 b.1 := by
  induction hrun with
  | refl => exact h
  | tail _ hstep ih =>
      obtain ⟨act, ans, r, hact, hstep, hp⟩ := hstep
      rw [hp]
      exact ih.step hlaid hact hstep

/-- In every state of such a run the two copies of a size agree wherever a read or a
write may start, and a write-back without a truncation before it keeps the size. -/
theorem sizes_agree {p : Nat → Prop} (hsbi : s.sFsInfo = .live sbi) (hlaid : Laid e sbi s.records)
    (hdata : HeldInData e sbi s.records s.mem)
    (hstart : ∀ id nii, s.records id = some nii → s.vfsSize id = some (nii.size s.mem : Int))
    (hrun : SettledRun e (s, fun _ => False) (t, p)) :
    (∀ id nii, t.records id = some nii → ¬ p id →
      t.vfsSize id = some (nii.size t.mem : Int)) ∧
    ∀ id nii ans r u, t.records id = some nii → ¬ p id → Acts e t (.writeInode id) ans r u →
      nii.size u.mem = nii.size t.mem := by
  have hs : Sized e sbi s.records (fun _ => False) s :=
    ⟨hsbi, rfl, hdata, fun id nii hid => ⟨_, getLE32_lt _ _, hstart id nii hid⟩,
      fun id nii hid _ => hstart id nii hid⟩
  have ht : Sized e sbi s.records p t := hs.run hlaid hrun
  refine ⟨fun id nii hid hp => ht.agree id nii (ht.same ▸ hid) hp, ?_⟩
  intro id nii ans r u hid hp hstep
  have hid' : s.records id = some nii := ht.same ▸ hid
  have hu := (ht.writeInode hlaid hstep).same
  obtain ⟨-, hsize⟩ := writeInode_size ht hid' hstep
  have hold := ht.agree id nii hid' hp
  obtain ⟨-, -, hnone⟩ | ⟨nd, nii', -, hnd, -, -, -, hino⟩ := writeInode_cases hstep
  · rw [hid] at hnone
    cases hnone
  · rw [FS.vfsSize, hino] at hsize
    rw [FS.vfsSize] at hold
    have := Option.some.inj (hsize.symm.trans hold)
    omega

/-- `naive_create` leaves the two copies of the new file's size equal. -/
theorem Created.sizes {dir n : Nat} {name : Name} (h : Created e sbi s t dir name n) :
    ∃ nii, t.records s.nextInode = some nii ∧ nii.size t.mem = 0 ∧
      t.vfsSize s.nextInode = some 0 := by
  obtain ⟨nd, ts, hmem⟩ := h.mem
  obtain ⟨nd', hino, -, -, hrec⟩ := h.inodes
  have hnew : t.inodes s.nextInode = some nd' := by rw [hino, Function.update_self]
  refine ⟨_, records_eq_some.mpr ⟨nd', hnew, hrec⟩, ?_, ?_⟩
  · rw [hmem]
    exact size_initDiskInode
  · rw [FS.vfsSize, hnew, Option.map_some, h.size nd' hnew]

/-- The records in memory after the first `naive_create` on a mounted image. -/
theorem Created.records_first {image : Bytes} {dir n : Nat} {name : Name}
    {nii₀ nii₁ : NaiveInodeInfo}
    (h : Created e sbi s t dir name n) (hm : MountOf e image s) (h₀ : t.records 0 = some nii₀)
    (h₁ : t.records 1 = some nii₁) (hid : t.records id = some nii) :
    id = 0 ∧ nii = nii₀ ∨ id = 1 ∧ nii = nii₁ := by
  obtain ⟨nd, hroot, -⟩ := hm.inodes
  obtain ⟨nd', hnew, -⟩ := h.inodes
  by_cases hid0 : id = 0
  · subst hid0
    exact .inl ⟨rfl, Option.some.inj (hid.symm.trans h₀)⟩
  · by_cases hid1 : id = 1
    · subst hid1
      exact .inr ⟨rfl, Option.some.inj (hid.symm.trans h₁)⟩
    · rw [FS.records, hnew, hm.next, Function.update_of_ne hid1, hroot,
        Function.update_of_ne hid0] at hid
      cases hid

/-- The layout of a fresh image with the root and one file in memory. -/
theorem freshImage_laid_two (h : ∀ id nii, s.records id = some nii →
    id = 0 ∧ nii = ⟨bData 4, 4⟩ ∨ id = 1 ∧ nii = ⟨bData 5, 5⟩) :
    Laid .little (.ofImage freshImage) s.records where
  first := by decide +kernel
  last := by decide +kernel
  bitmap := rfl
  bitmapApart := by decide +kernel
  start id nii hid := by obtain ⟨-, rfl⟩ | ⟨-, rfl⟩ := h id nii hid <;> rfl
  inodeApart id nii hid := by obtain ⟨-, rfl⟩ | ⟨-, rfl⟩ := h id nii hid <;> decide +kernel
  distinct id id' nii nii' hid hid' heq := by
    obtain ⟨rfl, rfl⟩ | ⟨rfl, rfl⟩ := h id nii hid <;>
      obtain ⟨rfl, rfl⟩ | ⟨rfl, rfl⟩ := h id' nii' hid'
    · rfl
    · cases heq
    · cases heq
    · rfl

/-- On a fresh image a file is created and given three bytes, truncated to one, written back and
given a byte again: its size is 2 in both copies. -/
theorem sizes_agree_truncated : ∃ s s₁ t p nii, Mounted .little freshImage s ∧
    Acts .little s (.op (.create 0 (.letters 1 (by decide) (by decide)) 0o644))
      (.good ⟨5, 0⟩ 0 0) 0 s₁ ∧
    SettledRun .little (s₁, fun _ => False) (t, p) ∧ t.records 1 = some nii ∧
    t.vfsSize 1 = some 2 ∧ t.vfsSize 1 = some (nii.size t.mem : Int) := by
  have h : succeeds (naiveFillSuper .little) (.good ⟨4, 0⟩ 0 0) { mem := freshImage } (fun s =>
      returnsTo .little (.op (.create 0 (.letters 1 (by decide) (by decide)) 0o644))
        (.good ⟨5, 0⟩ 0 0) s fun r s₁ => decide (r = 0 ∧ s₁.records 0 = some ⟨bData 4, 4⟩ ∧
          s₁.records 1 = some ⟨bData 5, 5⟩ ∧ s₁.vfsSize 0 = some 0 ∧
          s₁.mem.getLE32 (bData 4 + 44) = 0 ∧ ∀ i : Nat, i < 8 →
            NaiveInodeInfo.slot ⟨bData 4, 4⟩ s₁.mem i = 0 ∧
            NaiveInodeInfo.slot ⟨bData 5, 5⟩ s₁.mem i = 0) &&
        returnsTo .little (.write 1 [1, 2, 3] 0) (.good ⟨6, 0⟩ 0 0) s₁ fun _ s₂ =>
          returnsTo .little (.setattr 1 1) (.good ⟨7, 0⟩ 0 0) s₂ fun r s₃ => decide (r = 0) &&
            returnsTo .little (.writeInode 1) (.good ⟨8, 0⟩ 0 0) s₃ fun r s₄ => decide (r = 0) &&
              returnsTo .little (.write 1 [9] 1) (.good ⟨9, 0⟩ 0 0) s₄ fun _ t =>
                decide (t.records 1 = some ⟨bData 5, 5⟩ ∧ t.vfsSize 1 = some 2)) = true := by
    decide +kernel
  obtain ⟨s, hm, h⟩ := exists_of_succeeds h
  have hmounted : Mounted .little freshImage s := ⟨_, hm⟩
  obtain ⟨r, s₁, hcreate, h⟩ := exists_of_returnsTo h
  simp only [Bool.and_eq_true, decide_eq_true_eq] at h
  obtain ⟨⟨rfl, hrec₀, hrec₁, hvfs₀, hdisk₀, hslots⟩, h⟩ := h
  obtain ⟨n, hc⟩ := naiveCreate_zero hmounted.cases.info hcreate
  obtain ⟨r₂, s₂, hwrite, h⟩ := exists_of_returnsTo h
  obtain ⟨r₃, s₃, hsetattr, h⟩ := exists_of_returnsTo h
  simp only [Bool.and_eq_true, decide_eq_true_eq] at h
  obtain ⟨rfl, h⟩ := h
  obtain ⟨r₄, s₄, hback, h⟩ := exists_of_returnsTo h
  simp only [Bool.and_eq_true, decide_eq_true_eq] at h
  obtain ⟨rfl, h⟩ := h
  obtain ⟨r₅, t, hwrite', h⟩ := exists_of_returnsTo h
  rw [decide_eq_true_eq] at h
  obtain ⟨hrec, hvfs⟩ := h
  have hstart : SettledRun .little (s₁, fun _ => False) (s₁, fun _ => False) := .refl
  -- the truncation is pending until the write-back
  have hrun := (((hstart.act hwrite (fun hp => hp)).act hsetattr trivial).act hback trivial).act
    hwrite' fun hp => hp.2 ⟨rfl, rfl⟩
  have hrecords : ∀ id nii, s₁.records id = some nii →
      id = 0 ∧ nii = ⟨bData 4, 4⟩ ∨ id = 1 ∧ nii = ⟨bData 5, 5⟩ := fun _ _ hid =>
    hc.records_first hmounted.cases hrec₀ hrec₁ hid
  have hlaid := freshImage_laid_two hrecords
  have hdata : HeldInData .little (.ofImage freshImage) s₁.records s₁.mem := by
    intro id nii i hid hi h0
    obtain ⟨-, rfl⟩ | ⟨-, rfl⟩ := hrecords id nii hid
    · exact absurd (hslots i hi).1 h0
    · exact absurd (hslots i hi).2 h0
  have hsizes : ∀ id nii, s₁.records id = some nii →
      s₁.vfsSize id = some (nii.size s₁.mem : Int) := by
    intro id nii hid
    obtain ⟨rfl, rfl⟩ | ⟨rfl, rfl⟩ := hrecords id nii hid
    · rw [hvfs₀, NaiveInodeInfo.size, hdisk₀]
      rfl
    · obtain ⟨nii', hnew, hzero, hvfs⟩ := hc.sizes
      rw [hmounted.cases.next] at hnew hvfs
      obtain rfl := Option.some.inj (hnew.symm.trans hid)
      rw [hvfs, hzero]
      rfl
  have hinfo : s₁.sFsInfo = .live (.ofImage freshImage) := hc.info.trans hmounted.cases.info
  exact ⟨s, s₁, t, _, _, hmounted, hcreate, hrun, hrec, hvfs,
    (sizes_agree hinfo hlaid hdata hsizes hrun).1 1 _ hrec fun hp => hp.2 ⟨rfl, rfl⟩⟩

/-- A file of three bytes is truncated: the next write finds size 3 on disk and 0 in the
inode, so the byte it stores is lost with the next write-back. -/
theorem truncated_size_differs : ∃ s t u nii, Mounted .little freshImage s ∧
    Actions .little (fun _ _ => True) s t ∧ t.records 1 = some nii ∧
    t.vfsSize 1 ≠ some (nii.size t.mem : Int) ∧
    Actions .little (fun _ _ => True) t u ∧
    ∃ v, (naiveFileRead .little 1 1 0).exec (Answers.good ⟨9, 0⟩ 0 0) u = .ok ((0, 0, []), v) := by
  have h : succeeds (naiveFillSuper .little) (.good ⟨4, 0⟩ 0 0) { mem := freshImage }
      (fun s => actsTo .little [
          (.op (createFile 1 (by decide) (by decide) ⟨5, 0⟩).1, .good ⟨5, 0⟩ 0 0),
          (.write 1 [1, 2, 3] 0, .good ⟨6, 0⟩ 0 0), (.setattr 1 0, .good ⟨7, 0⟩ 0 0)] s fun t =>
        t.records 1 == some ⟨bData 5, 5⟩ && t.vfsSize 1 == some 0 &&
        t.mem.getLE32 (bData 5 + 44) == 3 &&
        actsTo .little [(.write 1 [9] 0, .good ⟨8, 0⟩ 0 0), (.writeInode 1, .good ⟨8, 0⟩ 0 0)] t
          fun u => match (naiveFileRead .little 1 1 0).exec (Answers.good ⟨9, 0⟩ 0 0) u with
            | .ok (q, _) => q == (0, 0, [])
            | .error _ => false) = true := by
    decide +kernel
  obtain ⟨s, hm, hruns⟩ := exists_of_succeeds h
  obtain ⟨t, ht, hcheck⟩ := exists_of_actsTo (P := fun _ _ => True) (fun _ _ _ => trivial) hruns
  simp only [Bool.and_eq_true, beq_iff_eq] at hcheck
  obtain ⟨⟨⟨hrec, hvfs⟩, hdisk⟩, hrest⟩ := hcheck
  obtain ⟨u, hu, hread⟩ := exists_of_actsTo (P := fun _ _ => True) (fun _ _ _ => trivial) hrest
  refine ⟨s, t, u, _, ⟨_, hm⟩, ht, hrec, ?_, hu, ?_⟩
  · rw [hvfs, show NaiveInodeInfo.size ⟨bData 5, 5⟩ t.mem = 3 from hdisk]
    decide
  · split at hread
    · rename_i q v hq
      exact ⟨v, (beq_iff_eq.mp hread) ▸ hq⟩
    · cases hread

end NaiveFS.V8
