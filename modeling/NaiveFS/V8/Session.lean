import NaiveFS.Lib.Simulation
import NaiveFS.Lib.Total
import NaiveFS.V8.Progress
import NaiveFS.V8.Table

/-!
# Whole runs of the single-file module (`naivefs-8`)

Any calls of `naive_create`, `naive_unlink`, `naive_file_read`, `naive_file_write`,
`naive_write_inode` and `simple_setattr` from a mount on, whatever fails in them. The runs leave
out the two things that take one inode's block or bytes for another's: creating a file in the
table's last block, whose record reaches into the first data block, and deleting the file whose
record follows that of a live inode, which frees that inode's number.
-/

namespace NaiveFS.V8

open Bytes

variable {e : Endian} {sbi : SbInfo} {nii nii' : NaiveInodeInfo} {m m' : Bytes} {id id' n k : Nat}
  {s t u : FS} {base : Nat → Prop} {ans : Answers} {r : Int}

/-- The calls such runs are made of. -/
def Action.Regular (e : Endian) (s : FS) : Action → Prop
  | .op (.create ..) => ∀ sbi n, s.sFsInfo = .live sbi → Found e sbi s n →
      ¬ sbi.InData e (sbi.tableBlock e n + 1)
  | .op (.unlink dir name) => ∀ id nii, s.dcache dir name = some id → s.records id = some nii →
      ∀ id' nii', s.records id' = some nii' → nii'.inodeBh + 1 ≠ nii.inodeBh
  | .write _ data pos => pos + data.length < 2 ^ 64
  | .read _ len pos => pos + len < 2 ^ 64
  | .setattr .. | .writeInode _ => True
  | .freeBlocks _ => False

/-- One such call; it is logged with its return value. -/
def Calls (e : Endian) (s : FS) (l : Action × Int) (t : FS) : Prop :=
  l.1.Regular e s ∧ ∃ ans, Acts e s l.1 ans l.2 t

/-! ## Calls on one inode -/

theorem Standing.refl (s : FS) : Standing s s := ⟨rfl, rfl, rfl, rfl⟩

theorem Standing.frame : Frame (Standing s) :=
  ⟨fun _ _ h => ⟨h.info, h.identities, h.dcache, h.next⟩,
    fun _ _ _ h => ⟨h.info, h.identities, h.dcache, h.next⟩,
    fun _ _ h => ⟨h.info, h.identities, h.dcache, h.next⟩⟩

/-- An inode is stored with its number, link count and record. -/
theorem Standing.setInode {nd nd' : Inode} (h : Standing s t) (hnd : t.inodes id = some nd)
    (hno : nd'.iIno = nd.iIno) (hlink : nd'.iNlink = nd.iNlink)
    (hnii : nd'.iPrivate = nd.iPrivate) : Standing s (t.setInode id nd') := by
  refine ⟨h.info, Eq.trans (funext fun x => ?_) h.identities, h.dcache, h.next⟩
  unfold FS.identities
  by_cases hx : x = id
  · rw [hx, FS.inodes_setInode_self, hnd, Option.map_some, Option.map_some, hno, hlink, hnii]
  · rw [FS.inodes_setInode_ne hx]

/-- A read sets a time of its inode. -/
theorem Frame.naiveFileRead {I : FS → Prop} (hI : Frame I) {len pos : Nat}
    (hino : ∀ s nd at', I s → s.inodes id = some nd →
      I (s.setInode id { nd with iAtime := at' })) :
    Prog.Keeps ans I (naiveFileRead e id len pos) := by
  have hloop : ∀ nii size fuel pos len out n,
      Prog.Keeps ans I (fileReadLoop e nii size fuel pos len out n) := by
    intro nii size fuel
    induction fuel with
    | zero => exact fun pos len out n => .ite (.pure _) (.fault _)
    | succ fuel ih =>
      exact fun pos len out n => .ite (.pure _) (.bind (.read _) fun p => .ite (.pure _)
        (.bind hI.sbBread fun ok => .ite (.pure _) (.bind (.read _) fun d => .bind (.ask _)
          fun left => .bind hI.brelse fun _ => .ite (.pure _) (ih _ _ _ _))))
  exact .bind keeps_naiveI fun nii => .bind (.read _) fun size => .ite (.pure _)
    (.bind (hloop _ _ _ _ _ _ _) fun q => .bind (.ask _) fun ts => .bind
      (keeps_updInode fun s nd hs hnd => hino s nd _ hs hnd) fun _ => .pure _)

/-- None of these calls makes, removes or renumbers an inode. -/
theorem Acts.standing {act : Action} (h : Acts e s act ans r t)
    (hop : ∀ o, act ≠ .op o) : Standing s t := by
  have hI := Standing.frame (s := s)
  cases act with
  | op o => exact absurd rfl (hop o)
  | write id data pos =>
    obtain ⟨q, v, hq, hret⟩ := Prog.exec_bind_ok.mp h
    cases hret
    exact hI.naiveFileWrite (fun _ _ _ _ _ hu hnd => hu.setInode hnd rfl rfl rfl) _ _ _
      (.refl s) hq
  | read id len pos =>
    obtain ⟨q, v, hq, hret⟩ := Prog.exec_bind_ok.mp h
    cases hret
    exact hI.naiveFileRead (fun _ _ _ hu hnd => hu.setInode hnd rfl rfl rfl) _ _ _ (.refl s) hq
  | setattr id size =>
    refine Prog.Keeps.ite (.pure _) (.bind (keeps_updInode fun _ _ hu hnd => ?_) fun _ => .pure _)
      _ _ _ (.refl s) h
    exact hu.setInode hnd rfl rfl rfl
  | writeInode id =>
    refine Prog.Keeps.bind keeps_inode (fun nd => ?_) _ _ _ (.refl s) h
    cases nd.iPrivate with
    | none => exact .pure _
    | some nii => exact .bind hI.updMem fun _ => .bind hI.markBufferDirty fun _ => .pure _
  | freeBlocks id =>
    exact Prog.Keeps.bind keeps_naiveI (fun nii => .bind (.bind keeps_naiveSb fun _ =>
      .bind hI.tryMem fun _ => .bind hI.updMem fun _ => hI.markBufferDirty) fun _ => .pure _)
      _ _ _ (.refl s) h

/-! ## What stores leave alone -/

/-- Block pointers and counts and the data read alike. -/
structure SameContents (e : Endian) (sbi : SbInfo) (recs : Records) (m m' : Bytes) : Prop where
  record : ∀ id nii, recs id = some nii → SameRecord nii m m'
  data : ∀ x, sbi.InData e x → ∀ a, bData x ≤ a → a < bData x + naiveBlockSize → m' a = m a

/-- The blocks the records are in and the data read alike. -/
structure SameBlocks (e : Endian) (sbi : SbInfo) (recs : Records) (m m' : Bytes) : Prop where
  record : ∀ id nii, recs id = some nii → SameBytes nii 0 naiveBlockSize m m'
  data : ∀ x, sbi.InData e x → ∀ a, bData x ≤ a → a < bData x + naiveBlockSize → m' a = m a

theorem SameBlocks.contents {recs : Records} (h : SameBlocks e sbi recs m m') :
    SameContents e sbi recs m m' :=
  ⟨fun id nii hid a ha ha' => h.record id nii hid a (by omega) (by unfold naiveBlockSize; omega),
    h.data⟩

theorem SameBlocks.size {recs : Records} (h : SameBlocks e sbi recs m m')
    (hid : recs id = some nii) : nii.size m' = nii.size m :=
  SameBytes.size fun a ha ha' => h.record id nii hid a (by omega) (by unfold naiveBlockSize; omega)

/-- The contents and the block bitmap read alike. -/
structure SameFiles (e : Endian) (sbi : SbInfo) (recs : Records) (m m' : Bytes) : Prop extends
    SameContents e sbi recs m m' where
  bitmap : SameBitmap m m'

theorem SameBlocks.refl {recs : Records} (m : Bytes) : SameBlocks e sbi recs m m :=
  ⟨fun _ _ _ _ _ _ => rfl, fun _ _ _ _ _ => rfl⟩

theorem SameFiles.refl {recs : Records} (m : Bytes) : SameFiles e sbi recs m m :=
  ⟨⟨fun _ _ _ _ _ _ => rfl, fun _ _ _ _ _ => rfl⟩, fun _ _ _ => rfl⟩

theorem Accounts.sameFiles {recs : Records} (h : Accounts e sbi recs base m)
    (hlaid : Laid e sbi recs) (hsame : SameFiles e sbi recs m m') : Accounts e sbi recs base m' :=
  h.same hlaid hsame.record hsame.bitmap

theorem block_of {a b : Nat} (ha : bData b ≤ a) (ha' : a < bData b + naiveBlockSize) :
    a / naiveBlockSize = b := by
  unfold bData naiveBlockSize at *
  omega

section Stores

variable {recs : Records} (hlaid : Laid e sbi recs)

include hlaid

/-- Stores into blocks that hold no record and no data. -/
theorem SameBlocks.outside {P : Nat → Prop} (hout : ∀ a, ¬ P (a / naiveBlockSize) → m' a = m a)
    (hrec : ∀ id nii, recs id = some nii → ¬ P nii.inodeBh)
    (hdata : ∀ x, sbi.InData e x → ¬ P x) : SameBlocks e sbi recs m m' := by
  refine ⟨fun id nii hid a ha ha' => ?_, fun x hx a ha ha' => ?_⟩
  · rw [hlaid.start _ _ hid] at ha ha'
    apply hout
    rw [block_of (b := nii.inodeBh) ha ha']
    exact hrec _ _ hid
  · apply hout
    rw [block_of ha ha']
    exact hdata x hx

omit hlaid in
theorem SameBitmap.outside {P : Nat → Prop} (hout : ∀ a, ¬ P (a / naiveBlockSize) → m' a = m a)
    (hbm : ¬ P naiveBlockBitmapBlock) : SameBitmap m m' := by
  intro a ha ha'
  apply hout
  rw [block_of ha ha']
  exact hbm

/-- A record is written back. -/
theorem SameFiles.writeBack {nd : Inode} (hid : recs id = some nii) :
    SameFiles e sbi recs m (writeDiskInode e nii.diskInode nd m) := by
  have hother : ∀ b, b ≠ nii.inodeBh → ∀ a, bData b ≤ a → a < bData b + naiveBlockSize →
      writeDiskInode e nii.diskInode nd m a = m a := by
    intro b hb a ha ha'
    have := bData_apart hb ha ha'
    rw [← hlaid.start _ _ hid] at this
    unfold naiveBlockSize at this
    exact writeDiskInode_out (by omega)
  refine ⟨⟨fun id' nii' hid' a ha ha' => ?_, fun x hx => hother x ?_⟩,
    hother _ (hlaid.inodeApart _ _ hid).1.symm⟩
  · by_cases hb : nii'.inodeBh = nii.inodeBh
    · rw [hlaid.start _ _ hid', hb, ← hlaid.start _ _ hid] at ha ha'
      exact writeDiskInode_out (by omega)
    · rw [hlaid.start _ _ hid'] at ha ha'
      exact hother _ hb a (by omega) (by unfold naiveBlockSize; omega)
  · rintro rfl
    exact (hlaid.inodeApart _ _ hid).2 hx

end Stores

/-! ## Steps on one inode -/

theorem Accounts.heldInData {recs : Records} (h : Accounts e sbi recs base m) :
    HeldInData e sbi recs m :=
  fun _ _ _ hid hi h0 => h.inData hid hi (Nat.pos_of_ne_zero h0)

/-- The bits of the numbers are in the inode bitmap's block. -/
theorem SameInodeBitmap.bit (h : SameInodeBitmap m m') (horder : sbi.InOrder e)
    (him : sbi.inodeBitmap = bData naiveInodeBitmapBlock) (hn : n < sbi.inodeTotal e) :
    m'.bit (sbi.inodeBit n) = m.bit (sbi.inodeBit n) := by
  have := horder.data
  have := horder.area
  have := horder.last
  apply bit_congr
  apply h
  · unfold SbInfo.inodeBit
    rw [him]
    omega
  · unfold SbInfo.inodeBit
    rw [him]
    unfold naiveBlockSize
    omega

section Steps

variable (h : Orderly e sbi base s)

include h

/-- What a write leaves. -/
theorem Orderly.write {data : List Byte} {pos : Nat}
    (hstep : Acts e s (.write id data pos) ans r t) : Orderly e sbi base t := by
  have hlaid := h.laid
  obtain ⟨nii, hid, hw⟩ := write_cases hlaid.first h.info hstep
  obtain ⟨nd, size, mt, ct, -, -, heff⟩ := hw.self
  obtain ⟨n, hn, hnii⟩ := h.record_cases hid
  have htable := h.order.table
  have hbm : nii.inodeBh ≠ naiveInodeBitmapBlock := by
    rw [hnii, inodeBh_record]
    omega
  obtain ⟨hacc, hbits⟩ := heff.keeps
    (P := fun a => Accounts e sbi s.records base a.1 ∧ SameInodeBitmap s.mem a.1)
    (fun a b hab ha => ⟨ha.1.effect hlaid hid hab,
      ha.2.trans (hab.inodeBitmap hlaid hid (h.order.notData (by omega)) hbm ha.1.heldInData)⟩)
    ⟨h.accounts, fun _ _ _ => rfl⟩
  exact h.standing (hstep.standing (by simp)) hacc fun n hn hset =>
    (hbits.bit h.order h.inodeBitmap hn).trans hset

theorem Orderly.sameFiles (hst : Standing s t) (hsame : SameFiles e sbi s.records s.mem t.mem)
    (hbits : ∀ n, n < sbi.inodeTotal e → s.mem.bit (sbi.inodeBit n) = true →
      t.mem.bit (sbi.inodeBit n) = true) : Orderly e sbi base t :=
  h.standing hst (h.accounts.sameFiles h.laid hsame) hbits

/-- Reads and truncations leave memory alone. -/
theorem Orderly.quiet (hst : Standing s t) (hmem : t.mem = s.mem) : Orderly e sbi base t := by
  refine h.sameFiles hst ?_ fun n hn hset => ?_
  · rw [hmem]
    exact .refl _
  · rw [hmem]
    exact hset

/-- A write-back stores into its record. -/
theorem Orderly.writeInode (hstep : Acts e s (.writeInode id) ans r t) :
    Orderly e sbi base t ∧ SameFiles e sbi s.records s.mem t.mem := by
  have hst := hstep.standing (by simp)
  obtain ⟨-, rfl, -⟩ | ⟨nd, nii, -, hnd, hnii, hmem, -, -⟩ := writeInode_cases hstep
  · exact ⟨h, .refl _⟩
  have hid : s.records id = some nii := records_eq_some.mpr ⟨nd, hnd, hnii⟩
  have hsame : SameFiles e sbi s.records s.mem t.mem := by
    rw [hmem]
    exact .writeBack h.laid hid
  have hbits : SameInodeBitmap s.mem t.mem := by
    intro a ha ha'
    obtain ⟨n, -, rfl⟩ := h.record_cases hid
    have htable := h.order.table
    rw [hmem, diskInode_record]
    apply writeDiskInode_out
    unfold bData naiveBlockSize naiveInodeBitmapBlock at *
    omega
  exact ⟨h.sameFiles hst hsame fun n hn hset => (hbits.bit h.order h.inodeBitmap hn).trans hset,
    hsame⟩

end Steps

/-! ## Creation -/

/-- A creation that fails makes no inode. -/
theorem createOnDisk_failed {dir mode b ino : Nat} {name : Name} {nd : Inode} {ts : Timespec}
    (hid : s.inodes id = some nd)
    (h : (createOnDisk e sbi dir name mode ino id ts b).exec ans s = .ok (r, t)) (hr : r ≠ 0) :
    t.sFsInfo = s.sFsInfo ∧ t.inodes = (s.dropInode id).inodes ∧ t.dcache = s.dcache ∧
      t.nextInode = s.nextInode := by
  rw [createOnDisk] at h
  cases hread : ans (.sbBread .create b) with
  | false =>
    rw [Prog.exec_bind_of (exec_sbBread_fail hread), Bool.not_false, if_pos rfl] at h
    obtain ⟨_, u, hput, h⟩ := Prog.exec_bind_ok.mp h
    obtain ⟨c, rfl⟩ := exec_iput_ok hput
    obtain ⟨_, v, hbit, hret⟩ := Prog.exec_bind_ok.mp h
    obtain ⟨m, -, rfl⟩ := exec_tryMem_ok hbit
    cases hret
    exact ⟨rfl, rfl, rfl, rfl⟩
  | true =>
    have hid' : (s.addRef b 1).inodes id = some nd := hid
    have hid'' : ((s.addRef b 1).setMem
        (initDiskInode e (bData b) nd (toU32 ino) 1 ts (s.addRef b 1).mem)).inodes id = some nd :=
      hid
    rw [Prog.exec_bind_of (exec_sbBread_ok hread), Bool.not_true, if_neg Bool.false_ne_true,
      Prog.exec_bind_of (exec_inode hid'), Prog.exec_bind_of exec_updMem,
      Prog.exec_bind_of (exec_updInode hid''), Prog.exec_ask_bind] at h
    cases hmem : (ans (.kmalloc .inodeInfo) : Bool) with
    | false =>
      rw [hmem, Bool.not_false, if_pos rfl, Prog.exec_bind_of exec_brelse] at h
      obtain ⟨_, u, hput, h⟩ := Prog.exec_bind_ok.mp h
      obtain ⟨c, rfl⟩ := exec_iput_ok hput
      obtain ⟨_, v, hbit, hret⟩ := Prog.exec_bind_ok.mp h
      obtain ⟨m, -, rfl⟩ := exec_tryMem_ok hbit
      cases hret
      refine ⟨rfl, ?_, rfl, rfl⟩
      show Function.update (Function.update s.inodes id _) id none = _
      rw [Function.update_idem]
      rfl
    | true =>
      rw [hmem, Bool.not_true, if_neg Bool.false_ne_true,
        Prog.exec_bind_of (exec_updInode FS.inodes_setInode_self), FS.setInode_setInode,
        Prog.exec_bind_of exec_dAdd, Prog.exec_bind_of exec_markBufferDirty,
        Prog.exec_bind_of exec_markBufferDirty] at h
      cases h
      exact absurd rfl hr

theorem naiveCreate_failed {dir mode : Nat} {name : Name} (hsbi : s.sFsInfo = .live sbi)
    (hfresh : s.inodes s.nextInode = none)
    (h : (naiveCreate e dir name mode).exec ans s = .ok (r, t)) (hr : r ≠ 0) :
    t.sFsInfo = s.sFsInfo ∧ t.inodes = s.inodes ∧ t.dcache = s.dcache ∧
      s.nextInode ≤ t.nextInode := by
  rw [naiveCreate, Prog.exec_bind_of (exec_naiveSb hsbi)] at h
  obtain ⟨ino, v, hino, hrest⟩ := Prog.exec_bind_ok.mp h
  obtain ⟨rfl, rfl, -⟩ | ⟨n, rfl, -, -, -, -, rfl⟩ := naiveFindFreeInode_cases hino
  · rw [if_pos (by decide)] at hrest
    cases hrest
    exact ⟨rfl, rfl, rfl, Nat.le_refl _⟩
  rw [if_neg (by omega)] at hrest
  cases hnew : ans .newInode with
  | false =>
    rw [Prog.exec_bind_of (exec_newInode_fail hnew)] at hrest
    obtain ⟨_, _, hbit, hret⟩ := Prog.exec_bind_ok.mp hrest
    obtain ⟨m, -, rfl⟩ := exec_tryMem_ok hbit
    cases hret
    exact ⟨rfl, rfl, rfl, Nat.le_refl _⟩
  | true =>
    rw [Prog.exec_bind_of (exec_newInode_ok hnew)] at hrest
    obtain ⟨nd, -, -, -, hdisk⟩ := createInode_onDisk hrest
    obtain ⟨hinfo, hinodes, hdc, hnext⟩ := createOnDisk_failed FS.inodes_withNew_self hdisk hr
    refine ⟨hinfo, hinodes.trans ?_, hdc, by rw [hnext]; exact Nat.le_succ _⟩
    show Function.update (Function.update s.inodes s.nextInode _) s.nextInode none = _
    rw [Function.update_idem, Function.update_eq_self_iff]
    exact hfresh.symm

/-- The bytes a creation with number `n` may store into: the inode bitmap, the record's block and
the 12 bytes behind it. -/
structure InitStores (e : Endian) (sbi : SbInfo) (n : Nat) (m m' : Bytes) : Prop where
  out : ∀ a, a / naiveBlockSize ≠ naiveInodeBitmapBlock →
    a < bData (sbi.tableStart e + n) ∨ bData (sbi.tableStart e + n) + sizeofDiskInode ≤ a →
    m' a = m a

/-- The answers with no block readable. -/
def noBlock (ans : Answers) : Answers
  | .sbBread .. => false
  | c => ans c

section Create

variable (h : Orderly e sbi base s)

include h

/-- A number whose bit is free is no live inode's, and no live inode's record is in the block
behind it. -/
theorem Orderly.free_apart (hfree : s.mem.bit (sbi.inodeBit n) = false)
    (hid : s.records id = some nii) :
    nii.inodeBh ≠ sbi.tableStart e + n ∧ nii.inodeBh ≠ sbi.tableStart e + n + 1 := by
  obtain ⟨k, -, rfl⟩ := h.record_cases hid
  obtain ⟨hbit, hbefore⟩ := h.marked id k hid
  rw [inodeBh_record]
  constructor
  · intro hk
    obtain rfl : k = n := by omega
    rw [hfree] at hbit
    cases hbit
  · intro hk
    obtain rfl : k = n + 1 := by omega
    rw [Nat.add_sub_cancel, hfree] at hbefore
    cases hbefore

/-- What a creation stores leaves the files alone. -/
theorem Orderly.initStores (hn : n < sbi.inodeTotal e)
    (hfree : s.mem.bit (sbi.inodeBit n) = false)
    (hroom : ¬ sbi.InData e (sbi.tableBlock e n + 1)) (hm : InitStores e sbi n s.mem m) :
    SameBlocks e sbi s.records s.mem m ∧ SameBitmap s.mem m := by
  have htable := h.order.table
  rw [h.order.tableBlock hn] at hroom
  have hout : ∀ a, ¬ (a / naiveBlockSize = naiveInodeBitmapBlock ∨
      a / naiveBlockSize = sbi.tableStart e + n ∨ a / naiveBlockSize = sbi.tableStart e + n + 1) →
      m a = s.mem a := by
    intro a ha
    simp only [not_or] at ha
    apply hm.out a ha.1
    unfold bData naiveBlockSize sizeofDiskInode at *
    omega
  refine ⟨.outside h.laid (P := fun b => b = naiveInodeBitmapBlock ∨ b = sbi.tableStart e + n ∨
    b = sbi.tableStart e + n + 1) hout (fun id nii hid => ?_) fun x hx => ?_,
    .outside (P := fun b => b = naiveInodeBitmapBlock ∨ b = sbi.tableStart e + n ∨
    b = sbi.tableStart e + n + 1) hout ?_⟩
  · obtain ⟨hne, hne'⟩ := h.free_apart hfree hid
    obtain ⟨k, -, rfl⟩ := h.record_cases hid
    rw [inodeBh_record] at *
    omega
  · rintro (rfl | rfl | rfl)
    · exact h.order.notData (by omega) hx
    · exact h.order.notData (by omega) hx
    · exact hroom hx
  · unfold naiveBlockBitmapBlock naiveInodeBitmapBlock at *
    omega

/-- A mark is set or cleared. -/
theorem Orderly.inodeBit_block (hn : n < sbi.inodeTotal e) :
    sbi.inodeBit n / 8 / naiveBlockSize = naiveInodeBitmapBlock := by
  have := h.order.data
  have := h.order.area
  have := h.order.last
  unfold SbInfo.inodeBit
  rw [h.inodeBitmap]
  unfold bData naiveBlockSize naiveInodeBitmapBlock
  omega

/-- The record of a new inode does not reach the inode bitmap. -/
theorem Orderly.init_bit {nd : Inode} {ino links : Nat} {ts : Timespec}
    (hk : k < sbi.inodeTotal e) :
    (initDiskInode e (bData (sbi.tableStart e + n)) nd ino links ts m).bit (sbi.inodeBit k) =
      m.bit (sbi.inodeBit k) := by
  have hblock := h.inodeBit_block hk
  have htable := h.order.table
  apply bit_congr
  apply initDiskInode_out
  unfold bData naiveBlockSize naiveInodeBitmapBlock at *
  omega

/-- How memory ends, whatever the outcome: the number's mark is set exactly if the creation
succeeds. -/
theorem Orderly.createMem {r : Int} (hf : Found e sbi s n)
    (hd : OnDisk e sbi ans (sbi.tableBlock e n) n (s.mem.setBit (8 * sbi.inodeBitmap + n)) r m) :
    InitStores e sbi n s.mem m ∧ ∀ k, k < sbi.inodeTotal e →
      m.bit (sbi.inodeBit k) = (decide (r = 0 ∧ k = n) || s.mem.bit (sbi.inodeBit k)) := by
  have hn : n < sbi.inodeTotal e := hf.total
  have hfree : s.mem.bit (sbi.inodeBit n) = false := hf.free
  have hbit : 8 * sbi.inodeBitmap + n = sbi.inodeBit n := rfl
  have hblock := h.inodeBit_block hn
  have hsame : ∀ k, sbi.inodeBit k = sbi.inodeBit n ↔ k = n := by
    intro k
    unfold SbInfo.inodeBit
    omega
  rw [h.order.tableBlock hn, hbit] at hd
  -- the bytes outside the bitmap and the new record
  have hset : ∀ a, a / naiveBlockSize ≠ naiveInodeBitmapBlock →
      s.mem.setBit (sbi.inodeBit n) a = s.mem a :=
    fun a ha => setBit_out fun heq => ha (by rw [heq, hblock])
  have hclear : ∀ (b : Bytes) a, a / naiveBlockSize ≠ naiveInodeBitmapBlock →
      b.clearBit (sbi.inodeBit n) a = b a :=
    fun b a ha => clearBit_out fun heq => ha (by rw [heq, hblock])
  have hback : ∀ b : Bytes, (∀ k, k < sbi.inodeTotal e → b.bit (sbi.inodeBit k) =
      (s.mem.setBit (sbi.inodeBit n)).bit (sbi.inodeBit k)) → ∀ k, k < sbi.inodeTotal e →
        (b.clearBit (sbi.inodeBit n)).bit (sbi.inodeBit k) = s.mem.bit (sbi.inodeBit k) := by
    intro b hb k hk
    rw [bit_clearBit, hb k hk, bit_setBit]
    by_cases hkn : k = n
    · simp [hkn, hfree]
    · simp [hsame, hkn]
  cases hd with
  | unreadable =>
    refine ⟨⟨fun a ha _ => (hclear _ a ha).trans (hset a ha)⟩, fun k hk => ?_⟩
    rw [hbit, hback _ (fun _ _ => rfl) k hk]
    simp [ EIO]
  | noMemory _ _ nd ts =>
    refine ⟨⟨fun a ha hout => ?_⟩, fun k hk => ?_⟩
    · rw [hbit, hclear _ a ha, initDiskInode_out hout, hset a ha]
    · rw [hbit, hback _ (fun k hk => h.init_bit hk) k hk]
      simp [ENOMEM]
  | stored _ _ nd ts =>
    refine ⟨⟨fun a ha hout => ?_⟩, fun k hk => ?_⟩
    · rw [initDiskInode_out hout, hset a ha]
    · rw [h.init_bit hk, bit_setBit]
      simp [hsame]

/-- The state after a creation that failed. -/
theorem Orderly.unchanged (hinfo : t.sFsInfo = s.sFsInfo) (hinodes : t.inodes = s.inodes)
    (hdc : t.dcache = s.dcache) (hnext : s.nextInode ≤ t.nextInode)
    (hsame : SameFiles e sbi s.records s.mem t.mem)
    (hbits : ∀ n, n < sbi.inodeTotal e → s.mem.bit (sbi.inodeBit n) = true →
      t.mem.bit (sbi.inodeBit n) = true) : Orderly e sbi base t := by
  have hst : Standing s { t with nextInode := s.nextInode } :=
    ⟨hinfo, by unfold FS.identities; rw [hinodes], hdc, rfl⟩
  have ht : Orderly e sbi base { t with nextInode := s.nextInode } := h.sameFiles hst hsame hbits
  exact ⟨ht.order, ht.blockBitmap, ht.inodeBitmap, ht.info, ht.accounts, ht.root, ht.placed,
    ht.alone, ht.marked, ht.named, ht.oneName, fun id hid => ht.fresh id (hnext.trans hid)⟩

/-- Number, link count and record of the new inode. -/
theorem Orderly.identities_created {dir : Nat} {name : Name} (hc : Created e sbi s t dir name n) :
    t.identities = Function.update s.identities s.nextInode
      (some (n, 1, some (sbi.record e n))) := by
  obtain ⟨nd, hinodes, hino, hlink, hnii⟩ := hc.inodes
  rw [h.order.tableBlock hc.total] at hnii
  funext id
  unfold FS.identities
  rw [hinodes]
  by_cases hid : id = s.nextInode
  · rw [hid, Function.update_self, Function.update_self, Option.map_some, hino, hlink, hnii]
    rfl
  · rw [Function.update_of_ne hid, Function.update_of_ne hid]

theorem Orderly.records_created {dir : Nat} {name : Name} (hc : Created e sbi s t dir name n) :
    t.records = Function.update s.records s.nextInode (some (sbi.record e n)) := by
  funext id
  rw [records_of_identities, h.identities_created hc]
  by_cases hid : id = s.nextInode
  · rw [hid, Function.update_self, Function.update_self, Option.bind_some]
  · rw [Function.update_of_ne hid, Function.update_of_ne hid, records_of_identities]

/-- The new record holds no block. -/
theorem Orderly.slot_created {dir : Nat} {name : Name} {i : Nat}
    (hc : Created e sbi s t dir name n) (hi : i < naiveDirectBlocks) :
    (sbi.record e n).slot t.mem i = 0 := by
  obtain ⟨nd, ts, hmem⟩ := hc.mem
  rw [hmem, h.order.tableBlock hc.total]
  exact initDiskInode_slot hi

section Created

variable {dir : Nat} {name : Name} (hc : Created e sbi s t dir name n)

include hc

/-- No inode in memory has the new record. -/
theorem Orderly.alone_created {id id' : Nat} (hid : t.records id = some nii)
    (hid' : t.records id' = some nii) : id = id' := by
  have hnew : ∀ id, s.records id ≠ some (sbi.record e n) := fun id hid =>
    (h.free_apart hc.free hid).1 rfl
  rw [h.records_created hc] at hid hid'
  by_cases hi : id = s.nextInode <;> by_cases hi' : id' = s.nextInode
  · rw [hi, hi']
  · rw [hi, Function.update_self] at hid
    rw [Function.update_of_ne hi', ← Option.some.inj hid] at hid'
    exact absurd hid' (hnew id')
  · rw [hi', Function.update_self] at hid'
    rw [Function.update_of_ne hi, ← Option.some.inj hid'] at hid
    exact absurd hid (hnew id)
  · rw [Function.update_of_ne hi] at hid
    rw [Function.update_of_ne hi'] at hid'
    exact h.alone id id' nii hid hid'

/-- The new number's mark is set, and so is the one before it. -/
theorem Orderly.marked_created (hbits : ∀ k, k < sbi.inodeTotal e →
      t.mem.bit (sbi.inodeBit k) = (decide (k = n) || s.mem.bit (sbi.inodeBit k)))
    (hid : t.records id = some (sbi.record e k)) :
    t.mem.bit (sbi.inodeBit k) = true ∧ t.mem.bit (sbi.inodeBit (k - 1)) = true := by
  have hn : n < sbi.inodeTotal e := hc.total
  have hkeep : ∀ k, k < sbi.inodeTotal e → s.mem.bit (sbi.inodeBit k) = true →
      t.mem.bit (sbi.inodeBit k) = true := fun k hk hset => by rw [hbits k hk, hset, Bool.or_true]
  rw [h.records_created hc] at hid
  by_cases hi : id = s.nextInode
  · rw [hi, Function.update_self] at hid
    obtain rfl := record_inj (Option.some.inj hid)
    refine ⟨by rw [hbits _ hn, decide_eq_true rfl, Bool.true_or], ?_⟩
    -- the number is the first free one
    by_cases h0 : n = 0
    · rw [h0, hbits _ (by omega), decide_eq_true h0.symm, Bool.true_or]
    · exact hkeep _ (by omega) (hc.least (n - 1) (by omega))
  · rw [Function.update_of_ne hi] at hid
    obtain ⟨hset, hbefore⟩ := h.marked id k hid
    obtain ⟨j, hj, hrec⟩ := h.record_cases hid
    obtain rfl := record_inj hrec
    exact ⟨hkeep _ hj hset, hkeep _ (by omega) hbefore⟩

/-- The new name leads to the new inode, which had none. -/
theorem Orderly.oneName_created {d d' : Nat} {nm nm' : Name} (hd : t.dcache d nm = some id)
    (hd' : t.dcache d' nm' = some id) : d = d' ∧ nm = nm' := by
  have hold : ∀ d nm, s.dcache d nm ≠ some s.nextInode := fun d nm hs =>
    (h.named d nm _ hs).2 (h.fresh _ (Nat.le_refl _))
  rw [hc.dentry, FS.dcache_setDentry] at hd hd'
  split at hd <;> split at hd'
  · rename_i h1 h2
    exact ⟨h1.1.trans h2.1.symm, h1.2.trans h2.2.symm⟩
  · exact absurd (hd'.trans hd.symm) (hold _ _)
  · exact absurd (hd.trans hd'.symm) (hold _ _)
  · exact h.oneName d nm d' nm' id hd hd'

theorem Orderly.accounts_created (hsame : SameFiles e sbi s.records s.mem t.mem) :
    Accounts e sbi t.records base t.mem := by
  obtain ⟨nd, ts, hmem⟩ := hc.mem
  have hnone : s.records s.nextInode = none := by
    rw [records_of_identities, h.fresh _ (Nat.le_refl _), Option.bind_none]
  have hcount : (sbi.record e n).iBlocks t.mem = 0 := by
    rw [hmem, h.order.tableBlock hc.total]
    exact getLE32_initDiskInode (by omega)
  rw [h.records_created hc]
  exact (h.accounts.sameFiles h.laid hsame).addRecord hnone hcount fun i hi => h.slot_created hc hi

/-- The state after a creation that succeeded. -/
theorem Orderly.created (hsame : SameFiles e sbi s.records s.mem t.mem)
    (hbits : ∀ k, k < sbi.inodeTotal e →
      t.mem.bit (sbi.inodeBit k) = (decide (k = n) || s.mem.bit (sbi.inodeBit k))) :
    Orderly e sbi base t := by
  have hids := h.identities_created hc
  have hpos : s.nextInode ≠ 0 := by
    intro h0
    have hroot := h.root
    rw [← h0, records_of_identities, h.fresh _ (Nat.le_refl _)] at hroot
    cases hroot
  refine ⟨h.order, h.blockBitmap, h.inodeBitmap, hc.info.trans h.info, h.accounts_created hc hsame,
    ?_, fun id x hx => ?_, fun id id' nii hid hid' => h.alone_created hc hid hid',
    fun id k hid => h.marked_created hc hbits hid, fun d nm id hd => ?_,
    fun d nm d' nm' id hd hd' => h.oneName_created hc hd hd', fun id hid => ?_⟩
  · rw [h.records_created hc, Function.update_of_ne (Ne.symm hpos)]
    exact h.root
  · rw [hids] at hx
    by_cases hid : id = s.nextInode
    · rw [hid, Function.update_self] at hx
      obtain rfl := Option.some.inj hx
      exact ⟨n, hc.total, rfl, fun _ => ⟨rfl, rfl⟩⟩
    · rw [Function.update_of_ne hid] at hx
      exact h.placed id x hx
  · rw [hc.dentry, FS.dcache_setDentry] at hd
    rw [hids]
    split at hd
    · obtain rfl := Option.some.inj hd
      exact ⟨hpos, by rw [Function.update_self]; simp⟩
    · obtain ⟨h0, hsome⟩ := h.named d nm id hd
      refine ⟨h0, ?_⟩
      by_cases hi : id = s.nextInode
      · rw [hi, Function.update_self]
        simp
      · rwa [Function.update_of_ne hi]
  · rw [hc.next] at hid
    rw [hids, Function.update_of_ne (by omega)]
    exact h.fresh id (by omega)

end Created

/-- A creation, whatever its outcome. -/
theorem Orderly.create {dir perm : Nat} {name : Name}
    (hreg : (Action.op (.create dir name perm)).Regular e s)
    (hstep : Acts e s (.op (.create dir name perm)) ans r t) :
    Orderly e sbi base t ∧ SameBlocks e sbi s.records s.mem t.mem ∧
      ((t.inodes = s.inodes ∧ s.nextInode ≤ t.nextInode) ∨ ∃ n, Created e sbi s t dir name n) := by
  have hfresh : s.inodes s.nextInode = none := identities_eq_none.mp (h.fresh _ (Nat.le_refl _))
  have hfailed : r ≠ 0 → t.sFsInfo = s.sFsInfo ∧ t.inodes = s.inodes ∧ t.dcache = s.dcache ∧
      s.nextInode ≤ t.nextInode := naiveCreate_failed h.info hfresh hstep
  have hfail : r ≠ 0 → SameBlocks e sbi s.records s.mem t.mem → SameBitmap s.mem t.mem →
      (∀ k, k < sbi.inodeTotal e → t.mem.bit (sbi.inodeBit k) = s.mem.bit (sbi.inodeBit k)) →
      Orderly e sbi base t ∧ t.inodes = s.inodes ∧ s.nextInode ≤ t.nextInode := by
    intro hr hsame hbm hbits
    obtain ⟨hinfo, hinodes, hdc, hnext⟩ := hfailed hr
    exact ⟨h.unchanged hinfo hinodes hdc hnext ⟨hsame.contents, hbm⟩
      fun k hk hset => (hbits k hk).trans hset, hinodes, hnext⟩
  obtain ⟨rfl, rfl, -⟩ | ⟨n, hf, ⟨-, rfl, hmem⟩ | ⟨-, hd, hzero⟩⟩ :=
    naiveCreate_cases h.info hstep
  · exact ⟨h, .refl _, .inl ⟨rfl, Nat.le_refl _⟩⟩
  · -- `new_inode` failed: memory ends as when the table's block cannot be read
    have hd : OnDisk e sbi (noBlock ans) (sbi.tableBlock e n) n
        (s.mem.setBit (8 * sbi.inodeBitmap + n)) (- EIO) t.mem := by
      rw [hmem]
      exact .unreadable rfl
    obtain ⟨hm, hbits⟩ := h.createMem hf hd
    obtain ⟨hsame, hbm⟩ := h.initStores hf.total hf.free (hreg sbi n h.info hf) hm
    obtain ⟨ht, hkept⟩ := hfail (by decide) hsame hbm
      fun k hk => by simpa [ EIO] using hbits k hk
    exact ⟨ht, hsame, .inl hkept⟩
  · obtain ⟨hm, hbits⟩ := h.createMem hf hd
    obtain ⟨hsame, hbm⟩ := h.initStores hf.total hf.free (hreg sbi n h.info hf) hm
    by_cases hr : r = 0
    · subst hr
      have hc := hzero rfl
      exact ⟨h.created hc ⟨hsame.contents, hbm⟩ fun k hk => by simpa using hbits k hk, hsame,
        .inr ⟨n, hc⟩⟩
    · obtain ⟨ht, hkept⟩ := hfail hr hsame hbm fun k hk => by simpa [hr] using hbits k hk
      exact ⟨ht, hsame, .inl hkept⟩

end Create

/-! ## Deletion -/

/-- What holds of some records holds of fewer. -/
theorem Laid.mono {recs recs' : Records} (h : Laid e sbi recs)
    (hsub : ∀ id nii, recs' id = some nii → recs id = some nii) : Laid e sbi recs' where
  first := h.first
  last := h.last
  bitmap := h.bitmap
  bitmapApart := h.bitmapApart
  start id nii hid := h.start id nii (hsub _ _ hid)
  inodeApart id nii hid := h.inodeApart id nii (hsub _ _ hid)
  distinct id id' nii nii' hid hid' := h.distinct id id' nii nii' (hsub _ _ hid) (hsub _ _ hid')

/-- Giving back a file's blocks empties its slots and stores nowhere else. -/
theorem Accounts.free_empty {recs : Records} (h : Accounts e sbi recs base m)
    (hlaid : Laid e sbi recs) (hid : recs id = some nii) :
    ∃ m', freeFileBlocksLoop e sbi.blockBitmap nii.diskInode naiveDirectBlocks 0 m = .ok m' ∧
      Accounts e sbi recs base (store32 e m' (nii.diskInode + 8) 0) ∧
      (∀ j, j < naiveDirectBlocks → nii.slot m' j = 0) ∧ ∀ a, Elsewhere nii a → m' a = m a := by
  obtain ⟨m', hm', hacc⟩ := h.free hlaid hid
  obtain ⟨m'', hm'', -, hzero, -, hout⟩ := freeFileBlocksLoop_keeps (i := 0)
    (n := naiveDirectBlocks) (I := HeldInData e sbi recs) hlaid hid (by decide)
    (fun m i hm hi h0 => hm _ _ _ hid hi h0)
    (fun m i hm hi h0 => hm.stored (giveBack_stored hlaid hid hi (hm _ _ _ hid hi h0)).1
      fun h => absurd rfl h) h.heldInData
  obtain rfl := Except.ok.inj (hm'.symm.trans hm'')
  exact ⟨m', hm', hacc, fun j hj => hzero j (by omega) (by omega), hout⟩

/-- The records without inode `id`'s. -/
def FS.recordsBut (s : FS) (id : Nat) : Records := Function.update s.records id none

theorem recordsBut_some (h : s.recordsBut id id' = some nii) :
    id' ≠ id ∧ s.records id' = some nii := by
  unfold FS.recordsBut at h
  by_cases hid : id' = id
  · rw [hid, Function.update_self] at h
    cases h
  · rw [Function.update_of_ne hid] at h
    exact ⟨hid, h⟩

section Delete

variable (h : Orderly e sbi base s)

include h

/-- What a name leads to. -/
theorem Orderly.file_of_name {dir : Nat} {name : Name} (hdc : s.dcache dir name = some id) :
    ∃ n nd, 0 < n ∧ s.inodes id = some nd ∧ nd.iIno = n ∧ nd.iNlink = 1 ∧
      nd.iPrivate = some (sbi.record e n) ∧ s.records id = some (sbi.record e n) := by
  obtain ⟨hid0, hsome⟩ := h.named dir name id hdc
  obtain ⟨x, hx⟩ := Option.ne_none_iff_exists'.mp hsome
  obtain ⟨n, hn, hrec, hfile⟩ := h.placed id x hx
  obtain ⟨hno, hlink⟩ := hfile hid0
  obtain ⟨nd, hnd, hndno, hndlink, hndrec⟩ := identities_eq_some.mp hx
  have hid : s.records id = some (sbi.record e n) :=
    records_eq_some.mpr ⟨nd, hnd, hndrec.trans hrec⟩
  refine ⟨n, nd, ?_, hnd, hndno.trans hno, hndlink.trans hlink, hndrec.trans hrec, hid⟩
  by_contra h0
  obtain rfl : n = 0 := by omega
  exact hid0 (h.alone _ _ _ hid h.root)

/-- The bit that `naive_unlink` clears is the one before the file's. -/
theorem Orderly.toInt32_pred (hid : s.records id = some (sbi.record e n)) (hn : 0 < n) :
    toInt32 ((n : Int) - 1) = ((n - 1 : Nat) : Int) := by
  obtain ⟨j, hj, hrec⟩ := h.record_cases hid
  obtain rfl := record_inj hrec
  have := h.order.data
  have := h.order.area
  have := h.order.last
  rw [toInt32_of_small (by omega) (by omega)]
  omega

/-- A deletion gives the blocks back, which leads to `m₁`; then it stores to the record's block
and to the inode bitmap. -/
structure Unlinked (e : Endian) (sbi : SbInfo) (base : Nat → Prop) (s : FS) (n : Nat)
    (m₁ m : Bytes) : Prop where
  accounts : Accounts e sbi s.records base (store32 e m₁ (bData (sbi.tableStart e + n) + 8) 0)
  empty : ∀ j, j < naiveDirectBlocks → (sbi.record e n).slot m₁ j = 0
  elsewhere : ∀ a, Elsewhere (sbi.record e n) a → m₁ a = s.mem a
  mem : m = (clearDiskInode e (bData (sbi.tableStart e + n))
    (store32 e m₁ (bData (sbi.tableStart e + n) + 8) 0)).clearBit (sbi.inodeBit (n - 1))

theorem Orderly.unlinked (hid : s.records id = some (sbi.record e n)) (hn : 0 < n)
    (hm : V8.unlinkMem e sbi n (sbi.record e n) s.mem = .ok m) :
    ∃ m₁, Unlinked e sbi base s n m₁ m := by
  obtain ⟨m₁, hm₁, hacc, hempty, hout⟩ := h.accounts.free_empty h.laid hid
  rw [V8.unlinkMem, hm₁, ok_bind, h.toInt32_pred hid hn, naiveClearBit_nat] at hm
  exact ⟨m₁, hacc, hempty, hout, (Except.ok.inj hm).symm⟩

section Unlinked

variable {m₁ : Bytes} (hu : Unlinked e sbi base s n m₁ m) (hn : n < sbi.inodeTotal e)

include hu hn

/-- From the blocks that were given back on. -/
theorem Orderly.unlinked_late {a : Nat} (ha : ¬ (a / naiveBlockSize = sbi.tableStart e + n ∨
    a / naiveBlockSize = naiveInodeBitmapBlock)) : m a = m₁ a := by
  rw [not_or] at ha
  have hblock := h.inodeBit_block (show n - 1 < sbi.inodeTotal e by omega)
  have hbyte : a ≠ sbi.inodeBit (n - 1) / 8 := by
    rintro rfl
    exact ha.2 hblock
  rw [hu.mem, clearBit_out hbyte]
  unfold bData naiveBlockSize at *
  rw [clearDiskInode_out (by omega), store32_out (by omega)]

/-- The blocks of the other records, and the data. -/
theorem Orderly.unlinked_blocks (hid : s.records id = some (sbi.record e n)) :
    SameBlocks e sbi (s.recordsBut id) s.mem m := by
  have htable := h.order.table
  have hlaid := h.laid
  refine .outside (hlaid.mono fun _ _ h => (recordsBut_some h).2)
    (P := fun b => (b = sbi.tableStart e + n ∨ b = naiveInodeBitmapBlock) ∨
      b = naiveBlockBitmapBlock) (fun a ha => ?_) (fun id' nii' hid' => ?_) fun x hx => ?_
  · rw [not_or] at ha
    rw [h.unlinked_late hu hn ha.1]
    apply hu.elsewhere
    unfold Elsewhere
    rw [diskInode_record]
    unfold bData naiveBlockSize at *
    omega
  · obtain ⟨hne, hid'⟩ := recordsBut_some hid'
    have hb : nii'.inodeBh ≠ sbi.tableStart e + n :=
      fun hb => hne (hlaid.distinct _ _ _ _ hid' hid hb)
    obtain ⟨k, -, rfl⟩ := h.record_cases hid'
    rw [inodeBh_record] at *
    unfold naiveBlockBitmapBlock naiveInodeBitmapBlock at *
    omega
  · rintro ((rfl | rfl) | rfl)
    · exact h.order.notData (by omega) hx
    · exact h.order.notData (by omega) hx
    · exact hlaid.bitmapApart hx

/-- The blocks are given back, then the record is dropped, then the rest is stored. -/
theorem Orderly.unlinked_accounts (hid : s.records id = some (sbi.record e n)) :
    Accounts e sbi (s.recordsBut id) base m := by
  have htable := h.order.table
  have hlaid := h.laid
  have hlaid' : Laid e sbi (s.recordsBut id) := hlaid.mono fun _ _ h => (recordsBut_some h).2
  have hslot : ∀ i, i < naiveDirectBlocks → (sbi.record e n).slot
      (store32 e m₁ (bData (sbi.tableStart e + n) + 8) 0) i = 0 := by
    intro i hi
    rw [store32_zero]
    exact (slot_putCount h.laid hid id _ i hid hi).trans (hu.empty i hi)
  have hout : ∀ a, ¬ (a / naiveBlockSize = sbi.tableStart e + n ∨
      a / naiveBlockSize = naiveInodeBitmapBlock) →
      m a = store32 e m₁ (bData (sbi.tableStart e + n) + 8) 0 a := by
    intro a ha
    rw [h.unlinked_late hu hn ha]
    rw [not_or] at ha
    unfold bData naiveBlockSize at *
    exact (store32_out (by omega)).symm
  refine (hu.accounts.dropRecord hid hslot).sameFiles hlaid' ⟨SameBlocks.contents
    (.outside hlaid' (P := fun b => b = sbi.tableStart e + n ∨ b = naiveInodeBitmapBlock) hout
      (fun id' nii' hid' => ?_) fun x hx => ?_),
    .outside (P := fun b => b = sbi.tableStart e + n ∨ b = naiveInodeBitmapBlock) hout ?_⟩
  · obtain ⟨hne, hid'⟩ := recordsBut_some hid'
    have hb : nii'.inodeBh ≠ sbi.tableStart e + n :=
      fun hb => hne (hlaid.distinct _ _ _ _ hid' hid hb)
    obtain ⟨k, -, rfl⟩ := h.record_cases hid'
    rw [inodeBh_record] at *
    omega
  · rintro (rfl | rfl)
    · exact h.order.notData (by omega) hx
    · exact h.order.notData (by omega) hx
  · unfold naiveBlockBitmapBlock naiveInodeBitmapBlock at *
    omega

omit hn in
/-- The marks of the other numbers. -/
theorem Orderly.unlinked_bit (hpos : 0 < n) (hk : k < sbi.inodeTotal e) (hkn : k ≠ n - 1) :
    m.bit (sbi.inodeBit k) = s.mem.bit (sbi.inodeBit k) := by
  have htable := h.order.table
  have hbyte := h.inodeBit_block hk
  have hne : sbi.inodeBit k ≠ sbi.inodeBit (n - 1) := by
    unfold SbInfo.inodeBit
    omega
  rw [hu.mem, bit_clearBit, decide_eq_true hne, Bool.true_and]
  apply bit_congr
  generalize sbi.inodeBit k / 8 = a at hbyte
  have hlt : a < bData (sbi.tableStart e + n) := by
    unfold bData naiveBlockSize naiveInodeBitmapBlock at *
    omega
  rw [clearDiskInode_out (by omega), store32_out (by omega)]
  apply hu.elsewhere
  unfold Elsewhere
  rw [diskInode_record]
  unfold bData naiveBlockSize naiveInodeBitmapBlock naiveBlockBitmapBlock at *
  omega

end Unlinked

/-- What a deletion leaves: the inode and its name are gone. -/
structure Deleted (e : Endian) (sbi : SbInfo) (s t : FS) (id dir : Nat) (name : Name) : Prop where
  info : t.sFsInfo = s.sFsInfo
  identities : t.identities = Function.update s.identities id none
  dentry : t.dcache = (s.setDentry dir name none).dcache
  next : t.nextInode = s.nextInode
  named : s.dcache dir name = some id

omit h in
theorem Deleted.records {dir : Nat} {name : Name} (hd : Deleted e sbi s t id dir name) :
    t.records = s.recordsBut id := by
  funext x
  rw [records_of_identities, hd.identities, FS.recordsBut]
  by_cases hx : x = id
  · rw [hx, Function.update_self, Function.update_self, Option.bind_none]
  · rw [Function.update_of_ne hx, Function.update_of_ne hx, records_of_identities]

omit h in
theorem Deleted.identities_some {dir : Nat} {name : Name} {x : Nat × Nat × Option NaiveInodeInfo}
    (hd : Deleted e sbi s t id dir name) (hx : t.identities id' = some x) :
    id' ≠ id ∧ s.identities id' = some x := by
  rw [hd.identities] at hx
  by_cases hid : id' = id
  · rw [hid, Function.update_self] at hx
    cases hx
  · rw [Function.update_of_ne hid] at hx
    exact ⟨hid, hx⟩

/-- The state after a deletion that kept the accounts and the marks in use. -/
theorem Orderly.deleted {dir : Nat} {name : Name} (hd : Deleted e sbi s t id dir name)
    (hacc : Accounts e sbi t.records base t.mem)
    (hmarked : ∀ x k, x ≠ id → s.records x = some (sbi.record e k) →
      t.mem.bit (sbi.inodeBit k) = true ∧ t.mem.bit (sbi.inodeBit (k - 1)) = true) :
    Orderly e sbi base t := by
  have hid0 := (h.named dir name id hd.named).1
  have hback : ∀ x nx, t.records x = some nx → x ≠ id ∧ s.records x = some nx := fun x nx hx =>
    recordsBut_some (hd.records ▸ hx)
  refine ⟨h.order, h.blockBitmap, h.inodeBitmap, hd.info.trans h.info, hacc, ?_,
    fun x y hx => h.placed x y (hd.identities_some hx).2,
    fun x x' nx hx hx' => h.alone x x' nx (hback x nx hx).2 (hback x' nx hx').2,
    fun x k hx => hmarked x k (hback x _ hx).1 (hback x _ hx).2, fun d nm x hx => ?_,
    fun d nm d' nm' x hx hx' => ?_, fun x hx => ?_⟩
  · rw [hd.records, FS.recordsBut, Function.update_of_ne (Ne.symm hid0)]
    exact h.root
  · rw [hd.dentry, FS.dcache_setDentry] at hx
    split at hx
    · cases hx
    · rename_i hne
      obtain ⟨hx0, hsome⟩ := h.named d nm x hx
      refine ⟨hx0, ?_⟩
      have hxid : x ≠ id := by
        rintro rfl
        exact hne (h.oneName d nm dir name x hx hd.named)
      rwa [hd.identities, Function.update_of_ne hxid]
  · rw [hd.dentry, FS.dcache_setDentry] at hx hx'
    split at hx
    · cases hx
    · split at hx'
      · cases hx'
      · exact h.oneName d nm d' nm' x hx hx'
  · rw [hd.next] at hx
    rw [hd.identities]
    by_cases hxid : x = id
    · rw [hxid, Function.update_self]
    · rw [Function.update_of_ne hxid]
      exact h.fresh x hx

/-- A deletion of a file whose record does not follow that of a live inode. -/
theorem Orderly.unlink {dir : Nat} {name : Name}
    (hreg : (Action.op (.unlink dir name)).Regular e s)
    (hstep : Acts e s (.op (.unlink dir name)) ans r t) :
    Orderly e sbi base t ∧ (t = s ∨ t.nextInode = s.nextInode ∧ ∃ id,
      t.records = s.recordsBut id ∧ SameBlocks e sbi t.records s.mem t.mem ∧
        ∀ x, x ≠ id → SameInode s t x) := by
  have hrun : (vfsUnlink e dir name).exec ans s = .ok (r, t) := hstep
  cases hdc : s.dcache dir name with
  | none =>
    rw [vfsUnlink, Prog.exec_read_bind, hdc] at hrun
    cases hrun
    exact ⟨h, .inl rfl⟩
  | some id =>
  obtain ⟨n, nd, hpos, hnd, hndno, hndlink, hndrec, hid⟩ := h.file_of_name hdc
  have hbefore := hreg id _ hdc hid
  obtain ⟨hmem, hsame, hgone, hnext, hdct, -, hinfo⟩ :=
    vfsUnlink_cases hdc hnd hndrec h.info hndlink hrun
  rw [hndno] at hmem
  obtain ⟨j, hn, hrec⟩ := h.record_cases hid
  obtain rfl := record_inj hrec
  obtain ⟨m₁, hu⟩ := h.unlinked hid hpos hmem
  have hids : t.identities = Function.update s.identities id none := by
    funext x
    by_cases hx : x = id
    · rw [hx, Function.update_self, identities_eq_none]
      exact hgone
    · rw [Function.update_of_ne hx]
      obtain heq | ⟨d, ts, hd, hdt⟩ := hsame x hx
      · unfold FS.identities
        rw [heq]
      · unfold FS.identities
        rw [hd, hdt]
        rfl
  have hd : Deleted e sbi s t id dir name := ⟨hinfo, hids, hdct, hnext, hdc⟩
  refine ⟨h.deleted hd (hd.records ▸ h.unlinked_accounts hu hn hid) fun x k hxid hx => ?_,
    .inr ⟨hnext, id, hd.records, hd.records ▸ h.unlinked_blocks hu hn hid, hsame⟩⟩
  obtain ⟨hset, hset'⟩ := h.marked x k hx
  obtain ⟨i, hk, hrec'⟩ := h.record_cases hx
  obtain rfl := record_inj hrec'
  -- the bit that was cleared is no live number's, nor the one before it
  have hkn : k ≠ n - 1 := by
    rintro rfl
    apply hbefore x _ hx
    simp only [inodeBh_record]
    omega
  have hkn' : k ≠ n := by
    rintro rfl
    exact hxid (h.alone _ _ _ hx hid)
  have h1 : n ≠ 1 := by
    rintro rfl
    exact hbefore 0 _ h.root rfl
  exact ⟨(h.unlinked_bit hu hpos hk hkn).trans hset,
    (h.unlinked_bit hu hpos (by omega) (by omega)).trans hset'⟩

end Delete

/-! ## Runs -/

theorem Orderly.step {act : Action} (h : Orderly e sbi base s) (hreg : act.Regular e s)
    (hstep : Acts e s act ans r t) : Orderly e sbi base t := by
  cases act with
  | op o =>
    cases o with
    | create dir name perm => exact (h.create hreg hstep).1
    | unlink dir name => exact (h.unlink hreg hstep).1
  | write id data pos => exact h.write hstep
  | read id len pos => exact h.quiet (hstep.standing (by simp)) (read_cases hstep).mem
  | setattr id size =>
    refine h.quiet (hstep.standing (by simp)) ?_
    obtain ⟨-, hq⟩ | ⟨-, -, hmem, -⟩ := setattr_cases hstep
    · exact hq.mem
    · exact hmem
  | writeInode id => exact (h.writeInode hstep).1
  | freeBlocks id => exact hreg.elim

theorem Orderly.run {log : List (Action × Int)} (h : Orderly e sbi base s)
    (hrun : Steps (Calls e) s log t) : Orderly e sbi base t := by
  induction hrun with
  | nil => exact h
  | snoc _ hlast ih =>
    obtain ⟨hreg, ans, hstep⟩ := hlast
    exact ih.step hreg hstep

/-! ## Every call returns -/

/-- The inode the call is about is in memory; of a name, the directory. -/
def Action.Live (s : FS) : Action → Prop
  | .op (.create dir ..) | .op (.unlink dir _) => s.inodes dir ≠ none
  | act => s.records act.target ≠ none

section Returns

theorem exec_tryMem_clear {a : Nat} :
    (tryMem (naiveClearBit (n : Int) a)).exec ans s =
      .ok ((), s.setMem (s.mem.clearBit (8 * a + n))) := exec_tryMem (naiveClearBit_nat ..)

theorem iput_total {nd : Inode} (hid : s.inodes id = some nd) :
    (iput id).Total ans s fun _ _ => True := by
  refine .bind_of (exec_inode hid) ?_
  cases nd.iPrivate with
  | none => exact ⟨(), _, rfl, trivial⟩
  | some nii => exact ⟨(), _, rfl, trivial⟩

theorem createOnDisk_total {dir mode b : Nat} {name : Name} {nd : Inode} {ts : Timespec}
    (hid : s.inodes id = some nd) :
    (createOnDisk e sbi dir name mode n id ts b).Total ans s fun _ _ => True := by
  rw [createOnDisk]
  cases hread : ans (.sbBread .create b) with
  | false =>
    refine .bind_of (exec_sbBread_fail hread) (.bind (iput_total hid) ?_)
    exact fun _ v _ => .bind_of exec_tryMem_clear (.pure trivial)
  | true =>
    have hid' : (s.addRef b 1).inodes id = some nd := hid
    have hid'' : ((s.addRef b 1).setMem
        (initDiskInode e (bData b) nd (toU32 n) 1 ts (s.addRef b 1).mem)).inodes id = some nd :=
      hid
    refine .bind_of (exec_sbBread_ok hread) ?_
    refine .bind_of (exec_inode hid') (.bind_of exec_updMem (.bind_of (exec_updInode hid'') ?_))
    refine .bind_of (Prog.exec_ask _) (.ite (fun _ => ?_) fun _ => ?_)
    · refine .bind_of exec_brelse (.bind (iput_total FS.inodes_setInode_self) ?_)
      exact fun _ v _ => .bind_of exec_tryMem_clear (.pure trivial)
    · exact .bind_of (exec_updInode FS.inodes_setInode_self) (.bind_of exec_dAdd
        (.bind_of exec_markBufferDirty (.bind_of exec_markBufferDirty (.pure trivial))))

theorem naiveCreate_total {dir mode : Nat} {name : Name} {d : Inode} (hsbi : s.sFsInfo = .live sbi)
    (hcount : le32ToCpu e sbi.inodesCount ≤ 2 ^ 31) (hdir : s.inodes dir = some d)
    (hfresh : s.inodes s.nextInode = none) :
    (naiveCreate e dir name mode).Total ans s fun _ _ => True := by
  have hne : dir ≠ s.nextInode := by
    rintro rfl
    rw [hfresh] at hdir
    cases hdir
  refine .bind_of (exec_naiveSb hsbi) ?_
  have hscan : (naiveFindFreeInode e sbi).exec ans s = .ok (-1, s) ∨ ∃ k : Nat, 0 ≤ k ∧ _ ∧ _ ∧ _ :=
    takeClear_exec (i := 0) (by omega)
  obtain hnone | ⟨n, -, -, -, hsome⟩ := hscan
  · exact .bind_of hnone (.pure trivial)
  refine .bind_of hsome (.ite (fun hneg => absurd hneg (by omega)) fun _ => ?_)
  cases hnew : ans .newInode with
  | false =>
    exact .bind_of (exec_newInode_fail hnew) (.bind_of exec_tryMem_clear (.pure trivial))
  | true =>
    refine .bind_of (exec_newInode_ok hnew) ?_
    generalize hv : (s.setMem _).markDirty _ = v
    have hnext : v.nextInode = s.nextInode := by rw [← hv]; rfl
    have hdir' : ∀ nd, (v.withNew nd).inodes dir = some d := by
      intro nd
      rw [← hdir, FS.withNew, ← hv]
      exact FS.inodes_setInode_ne hne
    dsimp only
    rw [createInode]
    refine .bind_of (exec_updInode FS.inodes_withNew_self) ?_
    rw [FS.setInode_withNew]
    refine .bind_of (exec_inode (hdir' _)) ?_
    refine .bind_of (exec_inodeInitOwner FS.inodes_withNew_self) ?_
    rw [FS.setInode_withNew]
    refine .bind_of exec_ktime (.bind_of (exec_updInode FS.inodes_withNew_self) ?_)
    rw [FS.setInode_withNew]
    refine .bind_of (exec_updInode FS.inodes_withNew_self) ?_
    rw [FS.setInode_withNew]
    exact createOnDisk_total FS.inodes_withNew_self

theorem unlinkRelease_total {nd : Inode} (hsbi : s.sFsInfo = .live sbi) (hlink : nd.iNlink = 0)
    (hm : V8.unlinkMem e sbi nd.iIno nii s.mem = .ok m) :
    (unlinkRelease e sbi nii nd).Total ans s fun _ t => t.inodes = s.inodes := by
  rw [V8.unlinkMem] at hm
  cases hloop : freeFileBlocksLoop e sbi.blockBitmap nii.diskInode naiveDirectBlocks 0 s.mem with
  | error x =>
    rw [hloop] at hm
    cases hm
  | ok m₁ =>
    rw [hloop, ok_bind] at hm
    have hfree : (naiveFreeFileBlocks e nii.diskInode).exec ans s = .ok ((),
        ((s.setMem m₁).setMem (store32 e m₁ (nii.diskInode + 8) 0)).markDirty
          sbi.blockBitmapBh) := by
      rw [naiveFreeFileBlocks, Prog.exec_bind_of (exec_naiveSb hsbi),
        Prog.exec_bind_of (exec_tryMem hloop), Prog.exec_bind_of exec_updMem]
      rfl
    rw [unlinkRelease, if_neg (not_not.mpr hlink)]
    exact .bind_of hfree (.bind_of exec_updMem (.bind_of (exec_tryMem hm)
      (.bind_of exec_markBufferDirty ⟨(), _, exec_markBufferDirty, rfl⟩)))

theorem vfsUnlink_total {dir : Nat} {name : Name} {nd d : Inode} (hsbi : s.sFsInfo = .live sbi)
    (hdc : s.dcache dir name = some id) (hid : s.inodes id = some nd)
    (hnii : nd.iPrivate = some nii) (hlink : nd.iNlink = 1) (hdir : s.inodes dir = some d)
    (hm : V8.unlinkMem e sbi nd.iIno nii s.mem = .ok m) :
    (vfsUnlink e dir name).Total ans s fun _ _ => True := by
  have hrest : (naiveUnlink e dir id).Total ans s fun ret t => ∃ nd', t.inodes id = some nd' := by
    refine .bind_of (exec_naiveI hid hnii) (.bind_of (exec_naiveSb hsbi)
      (.bind_of (exec_updInode hid) (.bind_of (exec_inode FS.inodes_setInode_self) ?_)))
    refine .bind (unlinkRelease_total hsbi (by simp [hlink]) hm) fun _ v hv => ?_
    have hvdir : ∃ d', v.inodes dir = some d' := by
      rw [hv]
      by_cases hne : dir = id
      · rw [hne]
        exact ⟨_, FS.inodes_setInode_self⟩
      · exact ⟨d, (FS.inodes_setInode_ne hne).trans hdir⟩
    obtain ⟨d', hd'⟩ := hvdir
    refine .bind_of exec_ktime (.bind_of (exec_updInode hd') (.pure ?_))
    by_cases hne : id = dir
    · rw [hne]
      exact ⟨_, FS.inodes_setInode_self⟩
    · rw [FS.inodes_setInode_ne hne, hv]
      exact ⟨_, FS.inodes_setInode_self⟩
  rw [vfsUnlink]
  refine .bind_of (Prog.exec_read _) ?_
  rw [hdc]
  refine .bind hrest fun ret t ht => ?_
  obtain ⟨nd', hnd'⟩ := ht
  refine .ite (fun _ => ?_) fun _ => .pure trivial
  refine .bind_of (Prog.exec_modify _) (.bind (iput_total hnd') fun _ v _ => .pure trivial)

variable (h : Orderly e sbi base s)

include h

/-- An inode in memory is an open file. -/
theorem Orderly.openFile (hid : s.records id = some nii) : OpenFile e sbi s id nii := by
  refine ⟨h.info, hid, h.laid.start _ _ hid, h.laid.only hid, fun i hi => ?_⟩
  unfold NaiveInodeInfo.slots at *
  split at hi
  · rename_i hlt
    rw [if_pos hlt]
    exact h.accounts.inData hid hlt (Nat.pos_of_ne_zero hi)
  · exact absurd rfl hi

/-- A deletion runs to its end. -/
theorem Orderly.unlinkMem_ok (hid : s.records id = some (sbi.record e n)) (hn : 0 < n) :
    ∃ m, V8.unlinkMem e sbi n (sbi.record e n) s.mem = .ok m := by
  obtain ⟨m', hm', -⟩ := h.accounts.free h.laid hid
  rw [V8.unlinkMem, hm', ok_bind, h.toInt32_pred hid hn, naiveClearBit_nat]
  exact ⟨_, rfl⟩

/-- Every call on inodes in memory returns. -/
theorem Orderly.returns {act : Action} (hreg : act.Regular e s) (hlive : act.Live s)
    (ans : Answers) : ∃ r t, Acts e s act ans r t := by
  cases act with
  | op o =>
    cases o with
    | create dir name perm =>
      obtain ⟨d, hd⟩ := Option.ne_none_iff_exists'.mp hlive
      have hcount : le32ToCpu e sbi.inodesCount ≤ 2 ^ 31 := by
        have := h.order.data
        have := h.order.area
        have := h.order.last
        unfold SbInfo.inodeTotal at *
        omega
      exact (naiveCreate_total h.info hcount hd
        (identities_eq_none.mp (h.fresh _ (Nat.le_refl _)))).returns
    | unlink dir name =>
      obtain ⟨d, hd⟩ := Option.ne_none_iff_exists'.mp hlive
      cases hdc : s.dcache dir name with
      | none =>
        refine ⟨-ENOENT, s, ?_⟩
        rw [Acts, Action.prog, Op.prog, vfsUnlink, Prog.exec_read_bind, hdc]
        rfl
      | some id =>
        obtain ⟨n, nd, hpos, hnd, hndno, hndlink, hndrec, hid⟩ := h.file_of_name hdc
        obtain ⟨m, hm⟩ := h.unlinkMem_ok hid hpos
        rw [← hndno] at hm
        exact (vfsUnlink_total h.info hdc hnd (hndno.symm ▸ hndrec) hndlink hd hm).returns
  | write id data pos =>
    obtain ⟨nii, hid⟩ := Option.ne_none_iff_exists'.mp hlive
    obtain ⟨r, t, ht, -⟩ := write_acts h.laid.first hid h.info
    exact ⟨r, t, ht⟩
  | read id len pos =>
    obtain ⟨nii, hid⟩ : ∃ nii, s.records id = some nii := Option.ne_none_iff_exists'.mp hlive
    obtain ⟨r, pos', out, t, ht, -⟩ := exec_naiveFileRead (h.openFile hid) hreg ans
    refine ⟨r, t, ?_⟩
    rw [Acts, Action.prog, Prog.exec_bind_of ht]
    rfl
  | setattr id size =>
    obtain ⟨nii, hid⟩ : ∃ nii, s.records id = some nii := Option.ne_none_iff_exists'.mp hlive
    obtain ⟨nd, hnd, -⟩ := records_eq_some.mp hid
    have hcode : (simpleSetattr id size).Total ans s fun _ _ => True :=
      .ite (fun _ => .pure trivial) fun _ => .bind_of (exec_updInode hnd) (.pure trivial)
    exact hcode.returns
  | writeInode id =>
    obtain ⟨nii, hid⟩ : ∃ nii, s.records id = some nii := Option.ne_none_iff_exists'.mp hlive
    obtain ⟨nd, hnd, hnii⟩ := records_eq_some.mp hid
    have hcode : (naiveWriteInode e id).Total ans s fun _ _ => True := by
      refine .bind_of (exec_inode hnd) ?_
      rw [hnii]
      exact .bind_of exec_updMem (.bind_of exec_markBufferDirty (.pure trivial))
    exact hcode.returns
  | freeBlocks id => exact hreg.elim

end Returns

/-- From a mount on, whatever is called and whatever fails: the inodes in memory have their
records in pairwise different blocks of the inode table, the block pointers, their counts and the
block bitmap agree, and every call on an inode in memory returns. -/
theorem table_and_accounts_kept {image : Bytes} {log : List (Action × Int)}
    (hm : Mounted e image s) (horder : (SbInfo.ofImage image).InOrder e)
    (hrun : Steps (Calls e) s log t) :
    BlocksAgree e (.ofImage image) (MarkedUnheld e (.ofImage image) s) t ∧
    (∀ id nii, t.records id = some nii → nii.diskInode = bData nii.inodeBh ∧
      (SbInfo.ofImage image).tableStart e ≤ nii.inodeBh ∧ nii.inodeBh <
        (SbInfo.ofImage image).tableStart e + (SbInfo.ofImage image).inodeTotal e) ∧
    (∀ id id' nii nii', t.records id = some nii → t.records id' = some nii' →
      nii.inodeBh = nii'.inodeBh → id = id') ∧
    ∀ (act : Action) (ans : Answers), act.Regular e t → act.Live t →
      ∃ r u, Acts e t act ans r u := by
  have ht : Orderly e (.ofImage image) (MarkedUnheld e (.ofImage image) s) t :=
    (hm.cases.orderly horder).run hrun
  refine ⟨ht.accounts.blocksAgree ht.laid, fun id nii hid => ?_, ht.laid.distinct,
    fun act ans hreg hlive => ht.returns hreg hlive ans⟩
  obtain ⟨n, hn, rfl⟩ := ht.record_cases hid
  refine ⟨rfl, ?_⟩
  rw [inodeBh_record]
  omega

/-! ## A run on a fresh image -/

/-- The image of a fresh device on which number 1, the root's, is marked too. -/
def rootedImage : Bytes := sampleImage 128 1000 4 132 [0, 1]

/-- A check for `Action.Regular` that can be run: a creation finds a number up to 100. -/
def Action.regularOn (s : FS) : Action → Bool
  | .op (.create ..) => !s.mem.bit ((SbInfo.ofImage rootedImage).inodeBit 100)
  | .op (.unlink dir name) => match (s.dcache dir name).bind s.records with
    | none => true
    | some nii => (List.range s.nextInode).all fun id =>
        (s.records id).all fun nii' => nii'.inodeBh + 1 != nii.inodeBh
  | .write _ data pos => decide (pos + data.length < 2 ^ 64)
  | .read _ len pos => decide (pos + len < 2 ^ 64)
  | .setattr .. | .writeInode _ => true
  | .freeBlocks _ => false

theorem rootedImage_inOrder : (SbInfo.ofImage rootedImage).InOrder .little := by decide +kernel

theorem Action.regular_of_on {act : Action} (h : Orderly .little (.ofImage rootedImage) base s)
    (hon : act.regularOn s = true) : act.Regular .little s := by
  cases act with
  | op o =>
    cases o with
    | create dir name perm =>
      intro sbi n hsbi hf hin
      obtain rfl := SbPtr.live.inj (hsbi.symm.trans h.info)
      rw [Action.regularOn, Bool.not_eq_true'] at hon
      have hle : n ≤ 100 := by
        by_contra hlt
        have hset : s.mem.bit ((SbInfo.ofImage rootedImage).inodeBit 100) = true :=
          hf.least 100 (by omega)
        rw [hon] at hset
        cases hset
      have htotal : (SbInfo.ofImage rootedImage).inodeTotal .little = 128 := by decide +kernel
      rw [h.order.tableBlock hf.total, Nat.add_assoc] at hin
      exact h.order.notData (by omega) hin
    | unlink dir name =>
      intro id nii hdc hid id' nii' hid'
      rw [Action.regularOn, hdc, Option.bind_some, hid] at hon
      have hlt : id' < s.nextInode := by
        by_contra hge
        rw [records_of_identities, h.fresh id' (by omega)] at hid'
        cases hid'
      have hall := List.all_eq_true.mp hon id' (List.mem_range.mpr hlt)
      rw [hid'] at hall
      simpa using hall
  | write id data pos => exact of_decide_eq_true (p := pos + data.length < 2 ^ 64) hon
  | read id len pos => exact of_decide_eq_true (p := pos + len < 2 ^ 64) hon
  | setattr => trivial
  | writeInode => trivial
  | freeBlocks => cases hon

/-- The calls all return, each is one that `Action.regularOn` accepts, and the check passes at the
end for the log and the state. -/
def callsTo (check : List (Action × Int) → FS → Bool) :
    List (Action × Answers) → List (Action × Int) → FS → Bool
  | [], log, s => check log s
  | (act, ans) :: acts, log, s => act.regularOn s &&
    match (act.prog .little).exec ans s with
    | .ok (r, t) => callsTo check acts (log ++ [(act, r)]) t
    | .error _ => false

theorem exists_of_callsTo {check : List (Action × Int) → FS → Bool}
    {acts : List (Action × Answers)} {log : List (Action × Int)} {s₀ : FS}
    (h : Orderly .little (.ofImage rootedImage) base s) (hrun : Steps (Calls .little) s₀ log s)
    (hcalls : callsTo check acts log s = true) :
    ∃ log t, Steps (Calls .little) s₀ log t ∧ check log t = true := by
  induction acts generalizing log s with
  | nil => exact ⟨log, s, hrun, hcalls⟩
  | cons x acts ih =>
    obtain ⟨act, ans⟩ := x
    rw [callsTo, Bool.and_eq_true] at hcalls
    obtain ⟨hon, hrest⟩ := hcalls
    have hreg := Action.regular_of_on h hon
    split at hrest
    · rename_i r t hexec
      exact ih (h.step hreg hexec) (hrun.snoc (l := (act, r)) ⟨hreg, ans, hexec⟩) hrest
    · cases hrest

/-- Two files are made and written, one is deleted, the other is written back. -/
theorem table_and_accounts_kept_sample : ∃ s log t, Mounted .little rootedImage s ∧
    Steps (Calls .little) s log t ∧ log.length = 6 ∧ t.records 2 = some ⟨bData 7, 7⟩ ∧
    BlocksAgree .little (.ofImage rootedImage)
      (MarkedUnheld .little (.ofImage rootedImage) s) t := by
  have h : succeeds (naiveFillSuper .little) (.good ⟨4, 0⟩ 0 0) { mem := rootedImage }
      (callsTo (fun log t => log.length == 6 && t.records 2 == some ⟨bData 7, 7⟩) [
        (.op (.create 0 aName 0o644), .good ⟨5, 0⟩ 0 0),
        (.write 1 [5, 6, 7] 0, .good ⟨6, 0⟩ 0 0),
        (.op (createFile 2 (by decide) (by decide) ⟨5, 0⟩).1, .good ⟨6, 0⟩ 0 0),
        (.write 2 [8, 9] 511, .good ⟨7, 0⟩ 0 0),
        (.op (.unlink 0 aName), .good ⟨8, 0⟩ 0 0),
        (.writeInode 2, .good ⟨9, 0⟩ 0 0)] []) = true := by
    decide +kernel
  obtain ⟨s, hm, hcalls⟩ := exists_of_succeeds h
  have hmount : Mounted .little rootedImage s := ⟨_, hm⟩
  obtain ⟨log, t, hrun, hcheck⟩ :=
    exists_of_callsTo (hmount.cases.orderly rootedImage_inOrder) .nil hcalls
  rw [Bool.and_eq_true, beq_iff_eq, beq_iff_eq] at hcheck
  exact ⟨s, log, t, hmount, hrun, hcheck.1, hcheck.2,
    (table_and_accounts_kept hmount rootedImage_inOrder hrun).1⟩

end NaiveFS.V8
