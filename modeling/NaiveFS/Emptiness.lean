import NaiveFS.Fsck
import NaiveFS.Numbers

/-!
# The two emptiness checks

`naive_rmdir` looks for a record that is neither `.` nor `..`, and
`naive_is_empty_dir` of `naivefs-9-10` counts the records in use and compares with
two. They agree as long as the first two records are `.` and `..` and no other is.
-/

namespace NaiveFS

open Bytes

/-! ## `naive_is_empty_dir` (`naivefs-9-10/naivefs_dir.c`) -/

/-- The records of a block with a number other than 0. -/
def usedRecords (d : Bytes) : Nat :=
  (List.range naiveDirRecordsPerBlock).countP fun j => DirRecord.iIno d j ≠ 0

/-- The loop over the blocks, `n` rounds from `i` on, with the records counted so far; nothing
when a block is not read. Its `sb_bread` is the one of the emptiness check of `rmdir`. -/
def isEmptyDirScan (nii : Inode) : Nat → Nat → Int → K (Option Int)
  | 0, _, count => pure (some count)
  | n + 1, i, count => do
    let p ← pointer nii i
    if p = 0 then isEmptyDirScan nii n (i + 1) count else
    if !(← sbBread .rmdirScan i p) then pure none else
    let d ← bData p
    brelse p
    isEmptyDirScan nii n (i + 1) (count + usedRecords d)

def naiveIsEmptyDir (dir : Nat) : K Int := do
  let nii ← inode dir
  match ← isEmptyDirScan nii nii.blockCount.toNat 0 0 with
  | none => pure (- EIO)
  | some count => pure (if count = 2 then 1 else 0)

/-! ## Counting -/

section Counting

variable {ans : Answers} {s : FS} {nd : Inode} {i j : Nat}

/-- The records in use among `m` from record `k` on. -/
def FS.usedFrom (s : FS) (nd : Inode) (k m : Nat) : Nat :=
  (List.range' k m).countP fun k => (s.recordAt nd k).isSome

theorem usedFrom_append (k m n : Nat) :
    s.usedFrom nd k (m + n) = s.usedFrom nd k m + s.usedFrom nd (k + m) n := by
  rw [FS.usedFrom, ← List.range'_append_1, List.countP_append]
  rfl

theorem usedFrom_eq_zero {k m : Nat} :
    s.usedFrom nd k m = 0 ↔ ∀ l, k ≤ l → l < k + m → s.recordAt nd l = none := by
  rw [FS.usedFrom, List.countP_eq_zero]
  constructor
  · intro h l hk hl
    simpa using h l (List.mem_range'_1.mpr ⟨hk, hl⟩)
  · intro h l hl
    obtain ⟨hk, hlt⟩ := List.mem_range'_1.mp hl
    simp [h l hk hlt]

/-- The records of one block. -/
theorem usedFrom_slot (hp : nd.blockPointers i ≠ 0) :
    s.usedFrom nd (3 * i) 3 = usedRecords (s.slotBlock nd i) := by
  rw [FS.usedFrom, List.range'_eq_map_range, List.countP_map, usedRecords]
  refine List.countP_congr fun j hj => ?_
  have hj3 : j < 3 := List.mem_range.mp hj
  rw [Function.comp_apply, recordAt_eq hp hj3]
  by_cases hino : DirRecord.iIno (s.slotBlock nd i) j = 0 <;> simp [hino]

theorem usedFrom_empty_slot (hp : nd.blockPointers i = 0) : s.usedFrom nd (3 * i) 3 = 0 := by
  refine usedFrom_eq_zero.mpr fun l hk hl => ?_
  have hslot : l / 3 = i := by omega
  rw [FS.recordAt, hslot, if_neg fun h => h.1 hp]

/-- The loop adds the records in use of the slots it goes through. -/
theorem exec_isEmptyDirScan (hread : Readable ans) {n i : Nat} {count : Int} (hn : i + n ≤ 8) :
    (isEmptyDirScan nd n i count).exec ans s
      = .ok (some (count + s.usedFrom nd (3 * i) (3 * n)), s) := by
  induction n generalizing i count with
  | zero => simp [isEmptyDirScan, FS.usedFrom]
  | succ n ih =>
      have hsplit : s.usedFrom nd (3 * i) (3 * (n + 1))
          = s.usedFrom nd (3 * i) 3 + s.usedFrom nd (3 * (i + 1)) (3 * n) := by
        rw [show 3 * (n + 1) = 3 + 3 * n by omega, usedFrom_append]
        rfl
      rw [isEmptyDirScan, Prog.exec_bind_of (exec_pointer (by omega))]
      by_cases hp : nd.blockPointers i = 0
      · rw [if_pos hp, ih (by omega), hsplit, usedFrom_empty_slot hp, Nat.zero_add]
      · rw [if_neg hp, Prog.exec_bind_of (exec_sbBread_ok (hread _ _ _))]
        simp only [Bool.not_true, Bool.false_eq_true, if_false]
        rw [Prog.exec_bind_of exec_bData, Prog.exec_bind_of exec_brelse, FS.addRef_cancel,
          ih (by omega), hsplit, usedFrom_slot hp]
        congr 3
        push_cast
        exact Int.add_assoc _ _ _

end Counting

/-! ## The check by name -/

section ByName

variable {ans : Answers} {s : FS} {nd : Inode} {b : Bytes} {j : Nat}

/-- What a stored name compares equal to. -/
theorem strcmp_name {n : List Byte} (hn : ∀ c ∈ n, c ≠ 0)
    (hshort : n.length + 1 ≤ naiveMaxFilenameLen) (h : DirRecord.name b j = n) :
    strcmp (DirRecord.filename b j) n = 0 := by
  rw [strcmp_eq_zero hn, field_take hshort, DirRecord.filename_field, h]
  exact List.take_of_length_le (Nat.le_succ _)

/-- A record that `naive_rmdir` takes for a child. -/
theorem isOther_iff : isOther b j = true ↔
    DirRecord.iIno b j ≠ 0 ∧ ¬ IsDot (DirRecord.name b j) := by
  constructor
  · intro h
    have hparts : DirRecord.iIno b j ≠ 0 ∧ strcmp (DirRecord.filename b j) dotBytes ≠ 0 ∧
        strcmp (DirRecord.filename b j) dotdotBytes ≠ 0 := by simpa [isOther] using h
    obtain ⟨hino, hdot, hdotdot⟩ := hparts
    refine ⟨hino, ?_⟩
    rintro (hname | hname)
    · exact hdot (strcmp_name (by decide) (by decide) hname)
    · exact hdotdot (strcmp_name (by decide) (by decide) hname)
  · rintro ⟨hino, hdot⟩
    by_contra hno
    exact hdot (isDot_of_not_other (Bool.eq_false_iff.mpr hno) hino)

/-- The records of the attached blocks that are in use are `.` and `..`. -/
def FS.OnlyDots (s : FS) (nd : Inode) : Prop :=
  ∀ i j, i < 8 → nd.blockPointers i ≠ 0 → j < 3 →
    DirRecord.iIno (s.slotBlock nd i) j ≠ 0 → IsDot (DirRecord.name (s.slotBlock nd i) j)

theorem Inode.Packed.onlyDots_iff (h : nd.Packed) : s.OnlyDots nd ↔
    ∀ k n v, k < nd.records → s.recordAt nd k = some (n, v) → IsDot n := by
  constructor
  · intro hdots k n v hk hrecord
    have hhigh := h.high
    unfold FS.recordAt at hrecord
    split at hrecord
    · rename_i hused
      obtain ⟨rfl, -⟩ := Prod.mk.inj (Option.some.inj hrecord)
      exact hdots _ _ (by unfold Inode.records at hk; omega) hused.1 (by omega) hused.2
    · cases hrecord
  · intro hdots i j hi hp hj hino
    have hcount := (h.attached i hi).mp hp
    have hrecord := recordAt_eq (s := s) hp hj
    rw [if_pos hino] at hrecord
    exact hdots _ _ _ (by unfold Inode.records; omega) hrecord

/-- `naive_rmdir` finds a directory empty when only `.` and `..` are in use. -/
theorem exec_rmdirScan (h : nd.Packed) (hread : Readable ans) :
    ∃ q, (rmdirScan nd).exec ans s = .ok (q, s) ∧ (q = none ↔ s.OnlyDots nd) := by
  have hcount := h.high
  obtain ⟨q, u, hscan⟩ : ∃ q u, (rmdirScan nd).exec ans s = .ok (q, u) :=
    exists_scanRecords hcount fun b d j s => ⟨_, _, rfl⟩
  obtain ⟨rfl, ⟨i, fail, -⟩ | ⟨i, j, stop, rfl⟩ | ⟨clean, rfl⟩⟩ := rmdirScan_cases hscan
  · have hunread := fail.unread
    rw [hread] at hunread
    cases hunread
  · refine ⟨_, hscan, iff_of_false (by simp) fun hdots => ?_⟩
    obtain ⟨hused, hdot⟩ := isOther_iff.mp stop.hit
    exact hdot (hdots i j stop.slot.bound stop.slot.attached stop.bound hused)
  · refine ⟨none, hscan, iff_of_true rfl fun i j hi hp hj hused => ?_⟩
    have hslot : nd.Slot i := ⟨(h.attached i hi).mp hp, hi, hp⟩
    exact isDot_of_not_other ((clean.slot hslot).2 j hj) hused

end ByName

/-! ## Directories with their two dots -/

/-- Cell `k` holds neither `.` nor `..`. -/
def FS.NoDot (s : FS) (nd : Inode) (k : Nat) : Prop :=
  ∀ n v, s.recordAt nd k = some (n, v) → ¬ IsDot n

/-- A directory in good order whose first two records are `.` and `..`; no other is. -/
structure FS.Dotted (s : FS) (nd : Inode) : Prop extends s.DirOk nd where
  dot : ∃ v, s.recordAt nd 0 = some (dotBytes, v)
  dotdot : ∃ v, s.recordAt nd 1 = some (dotdotBytes, v)
  others : ∀ k, 2 ≤ k → k < nd.records → s.NoDot nd k

section Dotted

variable {ans : Answers} {s t : FS} {dir : Nat} {nd nd' : Inode} {name : Name} {ino r : Int}
  {k : Nat}

theorem FS.Dotted.records_ge (h : s.Dotted nd) : 3 ≤ nd.records := by
  obtain ⟨v, hdot⟩ := h.dot
  have hp : nd.blockPointers (0 / 3) ≠ 0 := by
    intro hz
    rw [FS.recordAt, if_neg fun hp => hp.1 hz] at hdot
    cases hdot
  have hcount := (h.attached 0 (by omega)).mp hp
  unfold Inode.records
  omega

/-- The count is two and the children. -/
theorem FS.Dotted.used (h : s.Dotted nd) :
    s.usedFrom nd 0 nd.records = 2 + s.usedFrom nd 2 (nd.records - 2) := by
  obtain ⟨v, hdot⟩ := h.dot
  obtain ⟨w, hdotdot⟩ := h.dotdot
  have hrecords := h.records_ge
  have htwo : s.usedFrom nd 0 2 = 2 := by
    rw [FS.usedFrom, show List.range' 0 2 = [0, 1] from rfl]
    simp [hdot, hdotdot]
  have hsplit : s.usedFrom nd 0 (2 + (nd.records - 2))
      = s.usedFrom nd 0 2 + s.usedFrom nd 2 (nd.records - 2) := usedFrom_append 0 2 _
  rw [htwo, Nat.add_sub_cancel' (by omega)] at hsplit
  exact hsplit

theorem FS.Dotted.onlyDots_iff (h : s.Dotted nd) :
    s.OnlyDots nd ↔ s.usedFrom nd 2 (nd.records - 2) = 0 := by
  have hrecords := h.records_ge
  rw [h.toPacked.onlyDots_iff, usedFrom_eq_zero]
  constructor
  · intro hdots l hl hlt
    rcases hrecord : s.recordAt nd l with _ | ⟨n, v⟩
    · rfl
    · exact absurd (hdots l n v (by omega) hrecord) (h.others l hl (by omega) n v hrecord)
  · intro hempty k n v hk hrecord
    rcases (by omega : k = 0 ∨ k = 1 ∨ 2 ≤ k) with rfl | rfl | htwo
    · obtain ⟨w, hdot⟩ := h.dot
      rw [hdot] at hrecord
      cases hrecord
      exact .inl rfl
    · obtain ⟨w, hdotdot⟩ := h.dotdot
      rw [hdotdot] at hrecord
      cases hrecord
      exact .inr rfl
    · rw [hempty k htwo (by omega)] at hrecord
      cases hrecord

/-- `naive_is_empty_dir` returns 1 when only `.` and `..` are in use. -/
theorem FS.Dotted.exec_naiveIsEmptyDir (h : s.Dotted nd) (hnd : s.inodes dir = some nd)
    (hread : Readable ans) :
    ∃ c, (naiveIsEmptyDir dir).exec ans s = .ok (c, s) ∧ (c = 1 ↔ s.OnlyDots nd) := by
  have hhigh := h.high
  have hscan : (isEmptyDirScan nd nd.blockCount.toNat 0 0).exec ans s
      = .ok (some (0 + s.usedFrom nd 0 nd.records), s) := exec_isEmptyDirScan hread (by omega)
  rw [h.used, Int.zero_add] at hscan
  refine ⟨if ((2 + s.usedFrom nd 2 (nd.records - 2) : Nat) : Int) = 2 then 1 else 0, ?_, ?_⟩
  · rw [naiveIsEmptyDir, Prog.exec_bind_of (exec_inode hnd), Prog.exec_bind_of hscan]
    rfl
  · rw [h.onlyDots_iff]
    split
    · exact iff_of_true rfl (by omega)
    · exact iff_of_false (by decide) (by omega)

/-! ### They are kept -/

/-- A step that leaves every cell, or changes it between records that are no dots. -/
theorem FS.Dotted.of_cells (h : s.Dotted nd) (ok : t.DirOk nd')
    (hmore : nd.records ≤ nd'.records)
    (hcell : ∀ k, k < nd'.records →
      t.recordAt nd' k = s.recordAt nd k ∨ (s.NoDot nd k ∧ t.NoDot nd' k)) : t.Dotted nd' := by
  have hrecords := h.records_ge
  have hhigh := ok.high
  refine ⟨ok, ?_, ?_, fun k htwo hk => ?_⟩
  · obtain ⟨v, hdot⟩ := h.dot
    rcases hcell 0 (by omega) with hsame | ⟨hno, -⟩
    · exact ⟨v, hsame.trans hdot⟩
    · exact absurd (.inl rfl) (hno _ _ hdot)
  · obtain ⟨v, hdotdot⟩ := h.dotdot
    rcases hcell 1 (by omega) with hsame | ⟨hno, -⟩
    · exact ⟨v, hsame.trans hdotdot⟩
    · exact absurd (.inr rfl) (hno _ _ hdotdot)
  · rcases hcell k hk with hsame | ⟨-, hno⟩
    · intro n v hrecord
      rw [hsame] at hrecord
      rcases Nat.lt_or_ge k nd.records with hlt | hge
      · exact h.others k htwo hlt n v hrecord
      · rw [h.recordAt_beyond hge (by unfold Inode.records at hk; omega)] at hrecord
        cases hrecord
    · exact hno

theorem noDot_of_none (h : s.recordAt nd k = none) : s.NoDot nd k := by
  intro n v hrecord
  rw [h] at hrecord
  cases hrecord

/-- Cutting a name does not make it a dot. -/
theorem isDot_of_take {m : Nat} {l : List Byte} (hm : 2 < m) (h : IsDot (l.take m)) : IsDot l := by
  have hlen : (l.take m).length ≤ 2 := by
    rcases h with h | h <;> (rw [h]; decide)
  rw [List.length_take] at hlen
  rwa [List.take_of_length_le (by omega)] at h

theorem noDot_of_entry (hname : ¬ IsDot name.bytes) (h : s.recordAt nd k = entryOf name ino) :
    s.NoDot nd k := by
  intro n v hrecord hdot
  rw [h, entryOf] at hrecord
  split at hrecord
  · cases hrecord
    exact hname (isDot_of_take (by decide) hdot)
  · cases hrecord

theorem AddEntry.dotted (h : s.Dotted nd) (hnd : s.inodes dir = some nd)
    (hroom : HasFree s nd ∨ ¬ s.NextFree 0) (hread : Readable ans) (hname : ¬ IsDot name.bytes)
    (he : AddEntry ans s dir nd name ino r t) :
    ∃ nd', t.inodes dir = some nd' ∧ t.Dotted nd' := by
  cases he with
  | unreadable | noSpace => exact ⟨nd, hnd, h⟩
  | newUnreadable _ _ unread =>
      rw [hread] at unread
      cases unread
  | @filled i j stop =>
      obtain ⟨hnew, hold⟩ := h.filled stop name ino
      refine ⟨nd, hnd, h.of_cells ((h.dirOk_filled stop).addRef _ _) (Nat.le_refl _) fun k hk => ?_⟩
      by_cases hkij : k = 3 * i + j
      · exact .inr ⟨hkij ▸ noDot_of_none stop.recordAt, hkij ▸ noDot_of_entry hname hnew⟩
      · exact .inl (hold k hk hkij)
  | @grown b full free _ =>
      have hb : b ≠ 0 := by
        rintro rfl
        rcases hroom with ⟨k, hk, hnone⟩ | hno
        · exact full.recordAt_ne h.toPacked hk hnone
        · exact hno free
      have hlow := h.low
      refine ⟨nd.grow b, FS.inodes_setInode_self, ?_⟩
      rcases Int.lt_or_eq_of_le h.high with hlt | hfull
      · have hcount := (h.grow_room hlt b).1
        have hrec : (nd.grow b).records = nd.records + 3 := by
          unfold Inode.records
          omega
        refine h.of_cells (h.dirOk_growDir free hlt hb) (by omega) fun k hk => ?_
        rcases Nat.lt_or_ge k nd.records with hk' | hk'
        · exact .inl (h.growDir_old free hk')
        · have hnone : s.recordAt nd k = none :=
            h.recordAt_beyond hk' (by unfold Inode.records at *; omega)
          have hnew := h.growDir_new (j := k - nd.records) hlt hb (by omega) dir name ino
          rw [Nat.add_sub_cancel' hk'] at hnew
          split at hnew
          · exact .inr ⟨noDot_of_none hnone, noDot_of_entry hname hnew⟩
          · exact .inl (hnew.trans hnone.symm)
      · have hrec : (nd.grow b).records = nd.records := by
          unfold Inode.records
          rw [(h.grow_full hfull b).1]
        exact h.of_cells (h.dirOk_growDir_full free hfull) (Nat.le_of_eq hrec.symm)
          fun k hk => .inl (h.growDir_old free (hrec ▸ hk))

theorem RemoveEntry.dotted (h : s.Dotted nd) (hname : ¬ IsDot name.bytes)
    (he : RemoveEntry ans s nd name r t) : t.Dotted nd := by
  have hok := he.dirOk h.toDirOk
  cases he with
  | unreadable | absent => exact h
  | @cleared i j stop =>
      obtain ⟨hclear, hold⟩ := h.cleared stop
      refine h.of_cells hok (Nat.le_refl _) fun k hk => ?_
      by_cases hkij : k = 3 * i + j
      · refine .inr ⟨fun n v hrecord hdot => ?_, hkij ▸ noDot_of_none hclear⟩
        rw [hkij, stop.recordAt_named] at hrecord
        cases hrecord
        exact hname (isDot_of_take (by decide) hdot)
      · exact .inl (hold k hk hkij)

end Dotted

/-! ## Directories that `naive_mkdir` makes -/

section Made

variable {ans : Answers} {s t : FS} {dir b : Nat} {d nd : Inode} {name : Name} {mode m : Nat}
  {ino r : Int} {v : Bytes}

/-- The records of the block of a new directory. -/
theorem dotBlock_fields (v : Bytes) (m parent : Nat) :
    DirRecord.iIno (dotBlock v m parent) 0 = m % 2 ^ 32 ∧
    DirRecord.name (dotBlock v m parent) 0 = dotBytes ∧
    DirRecord.iIno (dotBlock v m parent) 1 = parent % 2 ^ 32 ∧
    DirRecord.name (dotBlock v m parent) 1 = dotdotBytes ∧
    DirRecord.iIno (dotBlock v m parent) 2 = 0 := by
  refine ⟨?_, ?_, ?_, ?_, ?_⟩
  · rw [dotBlock, DirRecord.iIno_putDot_ne (by omega), DirRecord.iIno_putDot_self]
  · rw [dotBlock, DirRecord.name_putDot_ne (by omega),
      DirRecord.name_putDot_self _ _ _ (by decide) (by decide)]
  · rw [dotBlock, DirRecord.iIno_putDot_self]
  · rw [dotBlock, DirRecord.name_putDot_self _ _ _ (by decide) (by decide)]
  · rw [dotBlock, DirRecord.iIno_putDot_ne (by omega), DirRecord.iIno_putDot_ne (by omega)]
    exact DirRecord.iIno_zero (by omega)

/-- Adding an entry changes a marked block only by filling a free record of it. -/
theorem AddEntry.marked_block (hb : s.isMarked b) (he : AddEntry ans s dir d name ino r t) :
    t.block b = s.block b ∨ ∃ j, j < 3 ∧ DirRecord.iIno (s.block b) j = 0 ∧
      t.block b = DirRecord.put (s.block b) j (toU32 ino) name.bytes := by
  cases he with
  | unreadable | noSpace | newUnreadable => exact .inl rfl
  | @filled i j stop =>
      by_cases hsame : toU64 (d.blockPointers i) = toU64 b
      · have hread : s.slotBlock d i = s.block b := by
          unfold FS.slotBlock FS.block
          rw [hsame]
        have hfree : DirRecord.iIno (s.slotBlock d i) j = 0 := by simpa [isFree] using stop.hit
        refine .inr ⟨j, stop.bound, hread ▸ hfree, ?_⟩
        have hwritten : (s.putRecord d i j name ino).block (d.blockPointers i)
            = DirRecord.put (s.slotBlock d i) j (toU32 ino) name.bytes :=
          FS.block_writeBlock_self s _ _
        rw [← hread, ← hwritten]
        exact congrArg (s.putRecord d i j name ino).cache hsame.symm
      · exact .inl (FS.block_writeBlock_ne (Ne.symm hsame))
  | @grown c full free _ =>
      have hbound := free.bitmap
      refine .inl (FS.block_writeBlock_ne (s := s.markBlock c) (hb.toU64_ne (by omega) ?_))
      exact fun heq => free.not_isMarked (heq ▸ hb)

theorem AddEntry.marked (hb : s.isMarked b) (he : AddEntry ans s dir d name ino r t) :
    t.isMarked b := by
  cases he with
  | unreadable | noSpace | newUnreadable | filled => exact hb
  | grown full free _ => exact free.isMarked hb

/-- The directory's only block holds `.`, `..` and at most one child. -/
theorem dotted_of_block {parent : Nat} (hcount : nd.blockCount = 1)
    (hptr : nd.blockPointers = Function.update (fun _ => 0) 0 (b : Int)) (hb : b ≠ 0)
    (hmark : t.isMarked b) (hino : m % 2 ^ 32 ≠ 0) (hparent : parent % 2 ^ 32 ≠ 0)
    (hname : ¬ IsDot name.bytes)
    (hblock : t.block b = dotBlock v m parent ∨
      t.block b = DirRecord.put (dotBlock v m parent) 2 (toU32 ino) name.bytes) :
    t.Dotted nd := by
  obtain ⟨hino0, hname0, hino1, hname1, hino2⟩ := dotBlock_fields v m parent
  have hzero : nd.blockPointers 0 = b := by
    rw [hptr]
    exact Function.update_self _ _ _
  have hp : nd.blockPointers 0 ≠ 0 := by omega
  have hslot : t.slotBlock nd 0 = t.block b := by rw [FS.slotBlock, hzero]
  have hfirst : ∃ w, t.recordAt nd 0 = some (dotBytes, w) := by
    refine ⟨m % 2 ^ 32, ?_⟩
    rw [show 0 = 3 * 0 + 0 from rfl, recordAt_eq hp (by omega), hslot]
    rcases hblock with hkept | hput
    · rw [hkept, hino0, hname0, if_pos hino]
    · rw [hput, DirRecord.iIno_put_ne (by omega), DirRecord.name_put_ne (by omega), hino0, hname0,
        if_pos hino]
  have hsecond : ∃ w, t.recordAt nd 1 = some (dotdotBytes, w) := by
    refine ⟨parent % 2 ^ 32, ?_⟩
    rw [show 1 = 3 * 0 + 1 from rfl, recordAt_eq hp (by omega), hslot]
    rcases hblock with hkept | hput
    · rw [hkept, hino1, hname1, if_pos hparent]
    · rw [hput, DirRecord.iIno_put_ne (by omega), DirRecord.name_put_ne (by omega), hino1, hname1,
        if_pos hparent]
  -- the third record is free, or is that of the one child
  have hthird : t.recordAt nd 2 = none ∨ t.recordAt nd 2 = entryOf name ino := by
    rcases hblock with hkept | hput
    · refine .inl ?_
      rw [show 2 = 3 * 0 + 2 from rfl, recordAt_eq hp (by omega), hslot, hkept, hino2]
      rfl
    · exact .inr (recordAt_put (i := 0) hp (by omega) (hslot.trans hput))
  have hlast : t.NoDot nd 2 := by
    rcases hthird with hnone | hentry
    · exact noDot_of_none hnone
    · exact noDot_of_entry hname hentry
  have honly (i : Nat) (hi : nd.Slot i) : i = 0 := by
    have hlt := hi.count
    omega
  have hrecords : nd.records = 3 := by
    unfold Inode.records
    rw [hcount]
    rfl
  refine ⟨⟨⟨by omega, by omega, fun i hi => ?_⟩, fun i hi => ?_, fun i j hi hj _ => ?_,
    fun k n w hk hrecord => ?_⟩, hfirst, hsecond, fun k htwo hk => ?_⟩
  · rw [hptr, hcount]
    by_cases hi0 : i = 0
    · subst hi0
      rw [Function.update_self]
      omega
    · rw [Function.update_of_ne hi0]
      omega
  · rw [honly i hi, hzero]
    exact hmark
  · rw [honly i hi, honly j hj]
  · rcases (by omega : k = 0 ∨ k = 1 ∨ k = 2) with rfl | rfl | rfl
    · obtain ⟨_, hdot⟩ := hfirst
      rw [hdot] at hrecord
      cases hrecord
      decide
    · obtain ⟨_, hdotdot⟩ := hsecond
      rw [hdotdot] at hrecord
      cases hrecord
      decide
    · rcases hthird with hnone | hentry
      · rw [hnone] at hrecord
        cases hrecord
      · exact entryOf_length (hentry.symm.trans hrecord)
  · obtain rfl : k = 2 := by omega
    exact hlast

theorem Mkdir.dotted (hs : s.Ready) (hnum : s.Numbered) (hd : s.inodes dir = some d)
    (hname : ¬ IsDot name.bytes) (hblock : ¬ s.NextFree 0) (hm : Mkdir ans s dir d name mode 0 t) :
    ∃ nd, t.inodes s.nextInode = some nd ∧ t.Dotted nd := by
  generalize hr : (0 : Int) = r at hm
  cases hm with
  | noInode | noMemory | noBlock | blockUnreadable => exact absurd hr (by decide)
  | notLinked _ _ _ _ _ fail => omega
  | @linked ino b u free mem block read entry =>
      have hb : b ≠ 0 := by
        rintro rfl
        exact hblock block
      have hmade : (s.dirMade ans d mode ino b).inodes s.nextInode
          = some (Inode.newDir ans d mode ino b) := FS.inodes_withNew_self
      have hwritten : (s.dirMade ans d mode ino b).block b = dotBlock (s.block b) ino d.iIno :=
        FS.block_writeBlock_self (s.markBlock b) _ _
      have hmark : (s.dirMade ans d mode ino b).isMarked b :=
        (FS.isMarked_markBlock block.bitmap).mpr (.inr rfl)
      have hne : s.nextInode ≠ dir := Ne.symm (hs.ne_next hd)
      obtain ⟨-, ⟨e, he⟩, -, hothers⟩ := entry.frame (hs.inodes_dirMade hd)
      have hlink : u.mapInode dir Inode.addLink = u.setInode dir e.addLink := FS.mapInode_of he _
      rw [hlink]
      refine ⟨Inode.newDir ans d mode ino b, ?_, ?_⟩
      · show (u.setInode dir e.addLink).inodes s.nextInode = _
        rw [FS.inodes_setInode_ne hne, hothers _ hne, hmade]
      · obtain ⟨hcount, hptr⟩ := newDir_blocks ans d mode ino b
        have hmarked : u.isMarked b := entry.marked hmark
        obtain ⟨hino0, -, hino1, -, -⟩ := dotBlock_fields (s.block b) ino d.iIno
        have hpos := free.pos
        have hle := free.bitmap
        have hparent := hnum dir d.iIno (FS.number_of hd)
        have hino : ino % 2 ^ 32 ≠ 0 := by omega
        have hup : d.iIno % 2 ^ 32 ≠ 0 := by omega
        have hblock : u.block b = dotBlock (s.block b) ino d.iIno ∨
            u.block b = DirRecord.put (dotBlock (s.block b) ino d.iIno) 2 (toU32 ino)
              name.bytes := by
          rcases entry.marked_block hmark with hkept | ⟨j, hj, hfree, hput⟩
          · exact .inl (hkept.trans hwritten)
          · rw [hwritten] at hfree hput
            rcases (by omega : j = 0 ∨ j = 1 ∨ j = 2) with rfl | rfl | rfl
            · exact absurd (hino0.symm.trans hfree) hino
            · exact absurd (hino1.symm.trans hfree) hup
            · exact .inr hput
        exact dotted_of_block hcount hptr hb hmarked hino hup hname hblock

end Made

/-- States reached from `s0` by entries added to and removed from `dir`, each with every read
succeeding and a name that is no dot; no full directory is handed block 0. -/
inductive EntryRun (s0 : FS) (dir : Nat) : FS → Prop where
  | refl : EntryRun s0 dir s0
  | add {s t : FS} {nd : Inode} {ans : Answers} {name : Name} {ino r : Int} :
      EntryRun s0 dir s → s.inodes dir = some nd → Readable ans → ¬ IsDot name.bytes →
      (HasFree s nd ∨ ¬ s.NextFree 0) → (naiveAddEntry dir name ino).exec ans s = .ok (r, t) →
      EntryRun s0 dir t
  | remove {s t : FS} {ans : Answers} {name : Name} {r : Int} :
      EntryRun s0 dir s → Readable ans → ¬ IsDot name.bytes →
      (naiveRemoveEntry dir name).exec ans s = .ok (r, t) → EntryRun s0 dir t

/-- The two checks of the directory `id` return, agree, and find it empty when only `.` and `..`
are in use. -/
def FS.ChecksAgree (s : FS) (id : Nat) : Prop :=
  ∃ nd, s.inodes id = some nd ∧ ∀ ans, Readable ans → ∃ q c,
    (rmdirScan nd).exec ans s = .ok (q, s) ∧ (naiveIsEmptyDir id).exec ans s = .ok (c, s) ∧
      (q = none ↔ c = 1) ∧ (c = 1 ↔ s.OnlyDots nd)

section Runs

variable {ans : Answers} {s0 s t u : FS} {dir : Nat} {name : Name} {mode : Nat} {nd nd0 : Inode}

theorem FS.Dotted.checksAgree (h : s.Dotted nd) (hnd : s.inodes dir = some nd) :
    s.ChecksAgree dir := by
  refine ⟨nd, hnd, fun ans hread => ?_⟩
  obtain ⟨q, hscan, hq⟩ := exec_rmdirScan h.toPacked hread
  obtain ⟨c, hcount, hc⟩ := h.exec_naiveIsEmptyDir hnd hread
  exact ⟨q, c, hscan, hcount, hq.trans hc.symm, hc⟩

theorem EntryRun.dotted (hloaded : s0.sbi.blockBitmapBlocks = 1)
    (hnd0 : s0.inodes dir = some nd0) (h0 : s0.Dotted nd0) (h : EntryRun s0 dir s) :
    s.sbi.blockBitmapBlocks = 1 ∧ ∃ nd, s.inodes dir = some nd ∧ s.Dotted nd := by
  induction h with
  | refl => exact ⟨hloaded, nd0, hnd0, h0⟩
  | add _ hnd hread hname hroom hexec ih =>
      obtain ⟨hloaded, nd', hnd', hdotted⟩ := ih
      obtain rfl := Option.some.inj (hnd'.symm.trans hnd)
      have he := naiveAddEntry_cases hloaded hnd hexec
      exact ⟨(he.frame hnd).1.trans hloaded, he.dotted hdotted hnd hroom hread hname⟩
  | remove _ hread hname hexec ih =>
      obtain ⟨hloaded, nd, hnd, hdotted⟩ := ih
      have he := naiveRemoveEntry_cases hnd hexec
      obtain ⟨hinodes, hsbi⟩ := he.frame
      exact ⟨hsbi ▸ hloaded, nd, hinodes ▸ hnd, he.dotted hdotted hname⟩

/-- In every directory that `naive_mkdir` made in a block other than 0, whatever was added to it
and removed from it since, the two checks agree and protect the children. -/
theorem emptiness_checks_agree {P : FS → Op → Answers → Int → Prop} {disk : Nat → Bytes}
    (h0 : Mounted disk s0) (hreach : Reach P s0 s) (hname : ¬ IsDot name.bytes)
    (hmkdir : (naiveMkdir dir name mode).exec ans s = .ok (0, t)) (hblock : ¬ s.NextFree 0)
    (hentries : EntryRun t s.nextInode u) : u.ChecksAgree s.nextInode := by
  obtain ⟨hs, hnum⟩ := hreach.numbered h0
  obtain ⟨d, hd, hm⟩ := naiveMkdir_cases hs hmkdir
  have ht := hm.ready hs hd
  obtain ⟨nd, hnd, hdotted⟩ := hm.dotted hs hnum hd hname hblock
  obtain ⟨-, nd', hnd', hdotted'⟩ := hentries.dotted ht.bitmapBlocks hnd hdotted
  exact hdotted'.checksAgree hnd'

/-- A directory made in a fresh root, with a child added to it. -/
theorem child_counted : ∃ s0 t u, Mounted (sampleDisk 128 1000 4 132) s0 ∧
    (naiveMkdir 0 (.letters 1 (by decide) (by decide)) 0).exec (Answers.good default 0 0) s0
      = .ok (0, t) ∧
    (naiveAddEntry 1 (.letters 2 (by decide) (by decide)) 3).exec (Answers.good default 0 0) t
      = .ok (0, u) ∧ u.ChecksAgree 1 := by
  obtain ⟨r, t, hmkdir, hcheck⟩ := exists_of_execTo
    (show execTo (FS.mounted (sampleDisk 128 1000 4 132) default)
      (naiveMkdir 0 (.letters 1 (by decide) (by decide)) 0) (Answers.good default 0 0)
      (fun r t => r == 0 && (t.inodes 1).any fun _ => decide (¬ t.dataStart ≤ 0) && execTo t
          (naiveAddEntry 1 (.letters 2 (by decide) (by decide)) 3) (Answers.good default 0 0)
          (fun q _ => q == 0)) = true by decide +kernel)
  simp only [Bool.and_eq_true, Option.any_eq_true, decide_eq_true_eq] at hcheck
  obtain ⟨hr, nd, hnd, hstart, hadds⟩ := hcheck
  obtain rfl : r = 0 := by simpa using hr
  obtain ⟨q, u, hadd, hq⟩ := exists_of_execTo hadds
  obtain rfl : q = 0 := by simpa using hq
  have hmounted := sampleDisk_mounted 128 1000 4 132 default
  have hstart0 : ¬ (FS.mounted (sampleDisk 128 1000 4 132) default).NextFree 0 := fun hfree =>
    absurd hfree.start (by decide +kernel)
  have hentries : EntryRun t 1 u :=
    .add .refl hnd (fun _ _ _ => rfl) (by decide) (.inr fun hfree => hstart hfree.start) hadd
  exact ⟨_, t, u, hmounted, hmkdir, hadd, emptiness_checks_agree (P := fun _ _ _ _ => True)
    hmounted .refl (by decide) hmkdir hstart0 hentries⟩

/-- A directory made in block 0: its block does not count as attached, and the records counted
are none, not two. -/
theorem block_zero_not_counted : ¬ ∀ (disk : Nat → Bytes) (s0 s t u : FS) (ans : Answers)
    (dir : Nat) (name : Name) (mode : Nat), Mounted disk s0 →
    Reach (fun _ _ _ _ => True) s0 s → ¬ IsDot name.bytes →
    (naiveMkdir dir name mode).exec ans s = .ok (0, t) → EntryRun t s.nextInode u →
    u.ChecksAgree s.nextInode := by
  intro hall
  obtain ⟨r, t, hmkdir, hcheck⟩ := exists_of_execTo
    (show execTo (FS.mounted (sampleDisk 128 1000 4 0) default)
      (naiveMkdir 0 (.letters 1 (by decide) (by decide)) 0) (Answers.good default 0 0)
      (fun r t => r == 0 && ((t.inodes 1).all fun nd => execTo t (rmdirScan nd)
          (Answers.good default 0 0) (fun q _ => q == none)) &&
        execTo t (naiveIsEmptyDir 1) (Answers.good default 0 0) (fun c _ => c == 0)) = true by
      decide +kernel)
  simp only [Bool.and_eq_true] at hcheck
  obtain ⟨⟨hr, hscan⟩, hcount⟩ := hcheck
  obtain rfl : r = 0 := by simpa using hr
  obtain ⟨nd, hnd, hagree⟩ := hall _ _ _ t t _ 0 _ 0
    (sampleDisk_mounted 128 1000 4 0 default) .refl (by decide) hmkdir .refl
  obtain ⟨q, c, hq, hc, hiff, -⟩ := hagree (Answers.good default 0 0) fun _ _ _ => rfl
  have hone : t.inodes 1 = some nd := hnd
  rw [hone, Option.all_some, execTo, hq] at hscan
  rw [execTo, show (naiveIsEmptyDir 1).exec _ _ = _ from hc] at hcount
  have hnone : q = none := by simpa using hscan
  have hzero : c = 0 := by simpa using hcount
  rw [hiff.mp hnone] at hzero
  exact absurd hzero (by decide)

end Runs

end NaiveFS
