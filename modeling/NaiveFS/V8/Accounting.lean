import NaiveFS.V8.Slots

/-!
# Block accounting (`naivefs-8`)

Whatever fails during a write, the pointers of all files, their `i_blocks` and
the block bitmap agree afterwards, on a device whose data area holds neither the
block bitmap nor an inode's record.
-/

namespace NaiveFS.V8

open Bytes

variable {e : Endian} {sbi : SbInfo} {nii : NaiveInodeInfo}

/-! ## Runs -/

section Runs

variable {recs : Records} {base : Nat → Prop} {id : Nat} {ans : Answers} {s t : FS}

/-- Freeing the blocks of an inode with a record returns. -/
theorem freeBlocks_acts (hlaid : Laid e sbi s.records) (h : Accounts e sbi s.records base s.mem)
    (hid : s.records id = some nii) (hsbi : s.sFsInfo = .live sbi) :
    ∃ t, Acts e s (.freeBlocks id) ans 0 t ∧ t.inodes = s.inodes ∧ t.sFsInfo = s.sFsInfo ∧
      Accounts e sbi s.records base t.mem := by
  obtain ⟨nd, hnd, hnii⟩ := records_eq_some.mp hid
  obtain ⟨m', hm', hacc⟩ := h.free hlaid hid
  have hfree : (naiveFreeFileBlocks e nii.diskInode).exec ans s = .ok ((),
      ((s.setMem m').setMem (store32 e m' (nii.diskInode + 8) 0)).markDirty
        sbi.blockBitmapBh) := by
    rw [naiveFreeFileBlocks, Prog.exec_bind_of (exec_naiveSb hsbi),
      Prog.exec_bind_of (exec_tryMem hm'), Prog.exec_bind_of exec_updMem]
    rfl
  have hcode : ((Action.freeBlocks id).prog e).exec ans s = .ok (0,
      ((s.setMem m').setMem (store32 e m' (nii.diskInode + 8) 0)).markDirty
        sbi.blockBitmapBh) := by
    rw [Action.prog, freeInodeBlocks, Prog.exec_bind_of (exec_naiveI hnd hnii),
      Prog.exec_bind_of hfree]
    rfl
  exact ⟨_, hcode, rfl, rfl, hacc⟩

end Runs

/-! ## The accounts, in the words of the record -/

/-- Data block `x` was marked at the start though no inode held it. -/
def MarkedUnheld (e : Endian) (sbi : SbInfo) (s : FS) (x : Nat) : Prop :=
  Marked e sbi s.mem x ∧
    ∀ id nii i, s.records id = some nii → i < naiveDirectBlocks → nii.slot s.mem i ≠ x

/-- `i_blocks`, `i_block` and the block bitmap agree. -/
structure BlocksAgree (e : Endian) (sbi : SbInfo) (base : Nat → Prop) (s : FS) : Prop where
  counted : ∀ id nii, s.records id = some nii →
    nii.iBlocks s.mem = (nii.heldSlots s.mem).card
  distinct : ∀ id nii i id' nii' i', s.records id = some nii → s.records id' = some nii' →
    i < naiveDirectBlocks → i' < naiveDirectBlocks → nii.slot s.mem i ≠ 0 →
    nii.slot s.mem i = nii'.slot s.mem i' → id = id' ∧ i = i'
  inData : ∀ id nii i, s.records id = some nii → i < naiveDirectBlocks → nii.slot s.mem i ≠ 0 →
    sbi.InData e (nii.slot s.mem i)
  marked_iff : ∀ x, sbi.InData e x → (s.mem.bit (sbi.blockBit x) = true ↔
    (∃ id nii i, s.records id = some nii ∧ i < naiveDirectBlocks ∧ nii.slot s.mem i = x) ∨ base x)

section Agree

variable {base : Nat → Prop} {s t : FS}

/-- At the start. -/
theorem BlocksAgree.accounts (h : BlocksAgree e sbi (MarkedUnheld e sbi s) s)
    (hlaid : Laid e sbi s.records) :
    Accounts e sbi s.records (MarkedUnheld e sbi s) s.mem where
  counted := h.counted
  exact := by
    refine ⟨⟨?_, ?_⟩, fun _ hb => hb.1, ?_, ?_⟩
    · intro k x hk
      obtain ⟨nii, hnii, hi, h0, rfl⟩ := owner_eq_some.mp hk
      have hx := h.inData _ _ _ hnii hi h0
      exact ⟨hx, (h.marked_iff _ hx).mpr (.inl ⟨_, _, _, hnii, hi, rfl⟩)⟩
    · intro k l x hk hl
      obtain ⟨nii, hnii, hi, h0, hx⟩ := owner_eq_some.mp hk
      obtain ⟨nii', hnii', hi', -, hx'⟩ := owner_eq_some.mp hl
      obtain ⟨h1, h2⟩ := h.distinct _ _ _ _ _ _ hnii hnii' hi hi' (by omega)
        (hx.trans hx'.symm)
      exact Prod.ext h1 h2
    · intro k x hk hb
      obtain ⟨nii, hnii, hi, -, hx⟩ := owner_eq_some.mp hk
      exact hb.2 _ _ _ hnii hi hx
    · rintro x ⟨hx, hset⟩
      obtain ⟨id, nii, i, hnii, hi, hix⟩ | hb := (h.marked_iff x hx).mp hset
      · have hx0 := hx.pos hlaid.first
        exact .inr ⟨(id, i), owner_eq_some.mpr ⟨nii, hnii, hi, by omega, hix⟩⟩
      · exact .inl hb

theorem Accounts.blocksAgree (h : Accounts e sbi s.records base s.mem)
    (hlaid : Laid e sbi s.records) : BlocksAgree e sbi base s where
  counted := h.counted
  distinct id nii i id' nii' i' hid hid' hi hi' h0 heq := by
    have := h.exact.inj (id, i) (id', i') _ (owner_eq_some.mpr ⟨nii, hid, hi, h0, rfl⟩)
      (owner_eq_some.mpr ⟨nii', hid', hi', h0, heq.symm⟩)
    exact ⟨congrArg Prod.fst this, congrArg Prod.snd this⟩
  inData id nii i hid hi h0 := h.inData hid hi (Nat.pos_of_ne_zero h0)
  marked_iff x hx := by
    constructor
    · intro hset
      obtain hb | ⟨k, hk⟩ := h.exact.accounted x ⟨hx, hset⟩
      · exact .inr hb
      · obtain ⟨nii, hnii, hi, -, hix⟩ := owner_eq_some.mp hk
        exact .inl ⟨_, nii, _, hnii, hi, hix⟩
    · rintro (⟨id, nii, i, hnii, hi, hix⟩ | hb)
      · have hx0 := hx.pos hlaid.first
        exact (h.exact.marked (id, i) x (owner_eq_some.mpr ⟨nii, hnii, hi, by omega, hix⟩)).2
      · exact (h.exact.reserved x hb).2

/-- The calls of `naive_file_write` and `naive_free_file_blocks`. -/
def Action.OnBlocks : Action → Prop
  | .write .. | .freeBlocks _ => True
  | _ => False

/-- The inode an action is about. -/
def Action.target : Action → Nat
  | .write id .. | .read id .. | .setattr id _ | .writeInode id | .freeBlocks id => id
  | .op _ => 0

/-- What a run of these calls keeps. -/
structure Audited (e : Endian) (sbi : SbInfo) (recs : Records) (base : Nat → Prop) (s : FS) :
    Prop where
  info : s.sFsInfo = .live sbi
  same : s.records = recs
  accounts : Accounts e sbi recs base s.mem

theorem Audited.step {recs : Records} {act : Action} {ans : Answers} {r : Int}
    (h : Audited e sbi recs base s) (hlaid : Laid e sbi recs) (hact : act.OnBlocks)
    (hstep : Acts e s act ans r t) : Audited e sbi recs base t := by
  cases act with
  | write id data pos =>
      obtain ⟨nii, hid, hw⟩ := write_cases hlaid.first h.info hstep
      obtain ⟨nd, size, mt, ct, -, -, heff⟩ := hw.self
      refine ⟨hw.info.trans h.info, hw.records.trans h.same, ?_⟩
      exact heff.keeps (P := fun a => Accounts e sbi recs base a.1)
        (fun a b hab ha => ha.effect hlaid (h.same ▸ hid) hab) h.accounts
  | freeBlocks id =>
      have hcode := hstep
      rw [Acts, Action.prog, freeInodeBlocks] at hcode
      obtain ⟨nii, u, hnii, -⟩ := Prog.exec_bind_ok.mp hcode
      have hid := (exec_naiveI_ok hnii).1
      have hrecs := h.same
      subst hrecs
      obtain ⟨t', ht', hino, hinfo, hacc⟩ := freeBlocks_acts hlaid h.accounts hid
        h.info
      cases Except.ok.inj (hstep.symm.trans ht')
      exact ⟨hinfo.trans h.info, funext fun x => by simp [FS.records, hino], hacc⟩
  | op | read | setattr | writeInode => exact hact.elim

theorem Audited.run {recs : Records} (h : Audited e sbi recs base s) (hlaid : Laid e sbi recs)
    (hrun : Actions e (fun _ act => act.OnBlocks) s t) : Audited e sbi recs base t := by
  induction hrun with
  | refl => exact h
  | tail _ hstep ih =>
      obtain ⟨act, ans, r, hact, hstep⟩ := hstep
      exact ih.step hlaid hact hstep

end Agree

/-! ## A device with one empty file -/

/-- One file without blocks, whose record is in block `table`; no block is marked. -/
def oneFile (table start total : Nat) : FS where
  mem := zeros
  sFsInfo := .live {
    blockBitmapBh := naiveBlockBitmapBlock, blockBitmap := bData naiveBlockBitmapBlock,
    dataBlocksStart := start, blocksCount := total }
  inodes := fun id => if id = 0 then
    some { iMode := sIfreg, iNlink := 1, iPrivate := some ⟨bData table, table⟩ } else none
  nextInode := 1

theorem getLE32_zeros (a : Nat) : zeros.getLE32 a = 0 := rfl

theorem oneFile_records {table start total id : Nat}
    (h : (oneFile table start total).records id = some nii) :
      id = 0 ∧ nii = ⟨bData table, table⟩ := by
  unfold oneFile FS.records at h
  by_cases hid : id = 0
  · simp only [hid, if_true, Option.bind_some, Option.some.injEq] at h
    exact ⟨hid, h.symm⟩
  · simp [hid] at h

theorem bit_zeros (n : Nat) : zeros.bit n = false := BitVec.getLsbD_zero ..

/-- Nothing is held and nothing is marked. -/
theorem oneFile_agree {table start total : Nat} (hD : 0 < sbi.dataStart e) :
    BlocksAgree e sbi (MarkedUnheld e sbi (oneFile table start total))
      (oneFile table start total) where
  counted id nii _ := by
    have hempty : nii.heldSlots (oneFile table start total).mem = ∅ :=
      Finset.filter_eq_empty_iff.mpr fun i _ => not_not.mpr (getLE32_zeros _)
    rw [hempty, Finset.card_empty]
    exact getLE32_zeros _
  distinct _ _ _ _ _ _ _ _ _ _ h0 _ := absurd (getLE32_zeros _) h0
  inData _ _ _ _ _ h0 := absurd (getLE32_zeros _) h0
  marked_iff x hx := by
    have hclear : (oneFile table start total).mem.bit (sbi.blockBit x) = false := bit_zeros _
    have hx0 := hx.pos hD
    constructor
    · intro hset
      rw [hclear] at hset
      cases hset
    · rintro (⟨id, nii, i, -, -, hix⟩ | hb)
      · have h0 : nii.slot (oneFile table start total).mem i = 0 := getLE32_zeros _
        omega
      · have hset := hb.1.2
        rw [hclear] at hset
        cases hset

theorem oneFile_laid {table start total : Nat} (hsbi : (oneFile table start total).sFsInfo
      = .live sbi) (first : 0 < sbi.dataStart e) (last : sbi.dataEnd e ≤ 4096)
    (bitmapApart : ¬ sbi.InData e naiveBlockBitmapBlock)
    (inodeApart : table ≠ naiveBlockBitmapBlock ∧ ¬ sbi.InData e table) :
    Laid e sbi (oneFile table start total).records where
  first := first
  last := last
  bitmap := by
    cases hsbi
    rfl
  bitmapApart := bitmapApart
  start id nii h := by rw [(oneFile_records h).2]
  inodeApart id nii h := by
    rw [(oneFile_records h).2]
    exact inodeApart
  distinct id id' nii nii' h h' _ := by rw [(oneFile_records h).1, (oneFile_records h').1]

/-! ## Whatever fails -/

/-- The accounts agree after every run of `naive_file_write` and
`naive_free_file_blocks` calls, whatever fails, and each further call returns. -/
theorem block_accounting {s t : FS} (hsbi : s.sFsInfo = .live sbi) (hlaid : Laid e sbi s.records)
    (hstart : BlocksAgree e sbi (MarkedUnheld e sbi s) s)
    (hrun : Actions e (fun _ act => act.OnBlocks) s t) :
    BlocksAgree e sbi (MarkedUnheld e sbi s) t ∧
    ∀ act ans, act.OnBlocks → t.records act.target ≠ none → ∃ r u, Acts e t act ans r u := by
  have haudit : Audited e sbi s.records (MarkedUnheld e sbi s) t :=
    Audited.run ⟨hsbi, rfl, hstart.accounts hlaid⟩ hlaid hrun
  have hlaid' : Laid e sbi t.records := haudit.same ▸ hlaid
  have hacc : Accounts e sbi t.records (MarkedUnheld e sbi s) t.mem :=
    haudit.same ▸ haudit.accounts
  refine ⟨hacc.blocksAgree hlaid', fun act ans hact hrec => ?_⟩
  obtain ⟨nii, hnii⟩ := Option.ne_none_iff_exists'.mp hrec
  cases act with
  | write id data pos =>
      obtain ⟨r, u, hu, -⟩ := write_acts hlaid.first hnii haudit.info
      exact ⟨r, u, hu⟩
  | freeBlocks id =>
      obtain ⟨u, hu, -⟩ := freeBlocks_acts hlaid' hacc hnii haudit.info
      exact ⟨0, u, hu⟩
  | op | read | setattr | writeInode => exact hact.elim

/-- Two writes with a failed read in between, then the file's blocks are freed. -/
theorem block_accounting_one_file : ∃ t,
    Actions .big (fun _ act => act.OnBlocks) (oneFile 4 0x05000000 0x08000000) t ∧
    ∃ sbi, BlocksAgree .big sbi (MarkedUnheld .big sbi (oneFile 4 0x05000000 0x08000000)) t := by
  have hrun : actsTo .big [(.write 0 [1] 0, .good default 0 0),
      (.write 0 [1] 600, fun c => match c with
        | .sbBread .. => false
        | c => Answers.good default 0 0 c),
      (.freeBlocks 0, .good default 0 0)] (oneFile 4 0x05000000 0x08000000) (fun _ => true)
      = true := by decide +kernel
  obtain ⟨t, ht, -⟩ := exists_of_actsTo (P := fun _ act => act.OnBlocks)
    (by simp [Action.OnBlocks]) hrun
  refine ⟨t, ht, _, (block_accounting rfl (oneFile_laid rfl ?_ ?_ ?_ ?_) (oneFile_agree ?_) ht).1⟩
  all_goals decide

/-- On a device whose data area starts with the block bitmap's block, the first byte
written to that block is the bitmap's. -/
theorem accounts_data_over_bitmap : ∃ sbi t,
    (oneFile 1 2 8).sFsInfo = .live sbi ∧ 0 < sbi.dataStart .little ∧
    sbi.dataStart .little ≤ sbi.dataEnd .little ∧ sbi.dataEnd .little ≤ 4096 ∧
    (∀ id id' nii nii', (oneFile 1 2 8).records id = some nii →
      (oneFile 1 2 8).records id' = some nii' → nii.inodeBh = nii'.inodeBh → id = id') ∧
    BlocksAgree .little sbi (MarkedUnheld .little sbi (oneFile 1 2 8)) (oneFile 1 2 8) ∧
    Actions .little (fun _ act => act.OnBlocks) (oneFile 1 2 8) t ∧
    ¬ BlocksAgree .little sbi (MarkedUnheld .little sbi (oneFile 1 2 8)) t := by
  have hrun : actsTo .little [(.write 0 [0] 0, .good default 0 0)] (oneFile 1 2 8)
      (fun t => t.records 0 == some ⟨bData 1, 1⟩ && t.mem.getLE32 (bData 1 + 12) == 2 &&
        !t.mem.bit (8 * bData 2 + 2)) = true := by decide +kernel
  obtain ⟨t, ht, hcheck⟩ :=
    exists_of_actsTo (P := fun _ act => act.OnBlocks) (by simp [Action.OnBlocks]) hrun
  simp only [Bool.and_eq_true, beq_iff_eq, Bool.not_eq_true'] at hcheck
  obtain ⟨⟨hrec, hslot⟩, hbit⟩ := hcheck
  refine ⟨_, t, rfl, by decide, by decide, by decide, ?_, oneFile_agree (by decide), ht, ?_⟩
  · intro id id' nii nii' h h' _
    rw [(oneFile_records h).1, (oneFile_records h').1]
  · intro hagree
    have hset := (hagree.marked_iff 2 (by decide)).mpr (.inl ⟨0, _, 0, hrec, by decide, hslot⟩)
    exact Bool.false_ne_true (hbit.symm.trans hset)

end NaiveFS.V8
