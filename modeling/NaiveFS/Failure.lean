import NaiveFS.Run

/-!
# Operations that return an error

`naive_create` and `naive_mkdir` mark the inode number before the last step that
can fail, adding the entry, and do not clear it again. This module says exactly
when an operation that fails leaves everything as it was.
-/

namespace NaiveFS

open Bytes

/-! ## What a failed operation must not change -/

/-- The parent of a namespace operation, and the name it is about. -/
def Op.entry : Op → Option (Nat × Name)
  | .create dir name _ | .mkdir dir name _ | .unlink dir name | .rmdir dir name => some (dir, name)
  | .write .. | .lookup .. => none

/-- Both states have the same bitmaps, the same parent, the same blocks in the
inode the name leads to, and the same bytes in every directory record. -/
structure Unchanged (s t : FS) (dir : Nat) (name : Name) : Prop where
  inodeBitmap : t.sbi.inodeBitmap = s.sbi.inodeBitmap
  blockBitmap : t.sbi.blockBitmap = s.sbi.blockBitmap
  parent : ∀ nd, s.inodes dir = some nd → ∃ nd', t.inodes dir = some nd' ∧
    nd'.blockCount = nd.blockCount ∧ nd'.blockPointers = nd.blockPointers ∧
    nd'.iSize = nd.iSize ∧ nd'.iNlink = nd.iNlink
  target : ∀ id nd, s.dcache dir name = some id → s.inodes id = some nd →
    ∃ nd', t.inodes id = some nd' ∧ nd'.blockPointers = nd.blockPointers
  records : ∀ id nd i j k, s.inodes id = some nd → nd.isDir = true → nd.Slot i → j < 3 →
    k < 132 → t.slotBlock nd i (132 * j + k) = s.slotBlock nd i (132 * j + k)

theorem Unchanged.refl (s : FS) (dir : Nat) (name : Name) : Unchanged s s dir name where
  inodeBitmap := rfl
  blockBitmap := rfl
  parent nd h := ⟨nd, h, rfl, rfl, rfl, rfl⟩
  target _ nd _ h := ⟨nd, h, rfl⟩
  records _ _ _ _ _ _ _ _ _ _ := rfl

/-! ## When an entry can be added -/

/-- Adding an entry to the directory `d` succeeds: the scan reaches a free record,
or it reads every slot and there is a next free block that can be read. -/
def EntryFits (ans : Answers) (s : FS) (d : Inode) : Prop :=
  (∃ i j, StopsAt ans s d .addEntryScan isFree i j) ∨
    (FindsNone ans s d .addEntryScan isFree ∧
      ∃ b, s.NextFree b ∧ ans (.sbBread .addEntryNew 0 b) = true)

/-- A `create` or `mkdir` that gets as far as adding the entry can add it. -/
def FailSafe (s : FS) (ans : Answers) : Op → Prop
  | .create dir _ perm => ∀ d ino, s.inodes dir = some d → s.NextIno ino →
      ans .newInode = true → EntryFits ans (s.fileMade ans d (sIfreg ||| (perm &&& 0o7777)) ino) d
  | .mkdir dir _ mode => ∀ d ino b, s.inodes dir = some d → s.NextIno ino →
      ans .newInode = true → s.NextFree b → ans (.sbBread .mkdirNew 0 b) = true →
      EntryFits ans (s.dirMade ans d mode ino b) d
  | _ => True

section Entry

variable {ans : Answers} {s t : FS} {dir : Nat} {d : Inode} {name : Name} {ino r : Int}

theorem AddEntry.fits_iff (h : AddEntry ans s dir d name ino r t) : EntryFits ans s d ↔ r = 0 := by
  cases h with
  | filled stop => exact ⟨fun _ => rfl, fun _ => .inl ⟨_, _, stop⟩⟩
  | unreadable fail =>
      refine ⟨fun hfits => ?_, fun hr => absurd hr (by decide)⟩
      rcases hfits with ⟨i, j, stop⟩ | ⟨none, _⟩
      · exact (stop.not_failsAt fail).elim
      · exact absurd none fail.not_findsNone
  | noSpace full space =>
      refine ⟨fun hfits => ?_, fun hr => absurd hr (by decide)⟩
      rcases hfits with ⟨i, j, stop⟩ | ⟨_, b, free, _⟩
      · exact absurd full stop.not_findsNone
      · exact absurd space free.not_exhausted
  | newUnreadable full free unread =>
      refine ⟨fun hfits => ?_, fun hr => absurd hr (by decide)⟩
      rcases hfits with ⟨i, j, stop⟩ | ⟨_, b, free', read⟩
      · exact absurd full stop.not_findsNone
      · obtain rfl := free.unique free'
        rw [unread] at read
        cases read
  | grown full free read => exact ⟨fun _ => rfl, fun _ => .inr ⟨full, _, free, read⟩⟩

/-- Marking a free number changes the inode bitmap. -/
theorem FS.NextIno.bitmap_ne {n : Nat} (h : s.NextIno n) :
    s.sbi.inodeBitmap.setBit (n - 1) ≠ s.sbi.inodeBitmap := setBit_ne h.clear

end Entry

/-! ## Exactly when a failed operation changes nothing -/

section Failure

variable {ans : Answers} {s t : FS} {dir : Nat} {d : Inode} {name : Name} {r : Int}

theorem Create.unchanged_iff {perm : Nat} (hd : s.inodes dir = some d)
    (h : Create ans s dir d name (sIfreg ||| (perm &&& 0o7777)) r t) :
    (r < 0 → Unchanged s t dir name) ↔ FailSafe s ans (.create dir name perm) := by
  cases h with
  | noInode full =>
      exact ⟨fun _ _ _ _ free => absurd full free.not_noIno, fun _ _ => .refl s dir name⟩
  | noMemory _ mem =>
      refine ⟨fun _ _ _ _ _ mem' => ?_, fun _ _ => .refl s dir name⟩
      rw [mem] at mem'
      cases mem'
  | @notLinked n _ u free mem entry fail =>
      constructor
      · intro hun
        exact absurd (entry.inodeBitmap.symm.trans (hun fail).inodeBitmap) free.bitmap_ne
      · intro hsafe
        have := entry.fits_iff.mp (hsafe d n hd free mem)
        omega
  | linked free _ entry =>
      refine ⟨fun _ d' n hd' free' _ => ?_, fun _ hr => absurd hr (by decide)⟩
      obtain rfl := free.unique free'
      rw [hd] at hd'
      cases hd'
      exact entry.fits_iff.mpr rfl

theorem Mkdir.unchanged_iff {mode : Nat} (hd : s.inodes dir = some d)
    (h : Mkdir ans s dir d name mode r t) :
    (r < 0 → Unchanged s t dir name) ↔ FailSafe s ans (.mkdir dir name mode) := by
  have hrefl : Unchanged s { s with nextInode := s.nextInode + 1 } dir name :=
    ⟨rfl, rfl, fun nd h => ⟨nd, h, rfl, rfl, rfl, rfl⟩, fun _ nd _ h => ⟨nd, h, rfl⟩,
      fun _ _ _ _ _ _ _ _ _ _ => rfl⟩
  cases h with
  | noInode full =>
      exact ⟨fun _ _ _ _ _ free => absurd full free.not_noIno, fun _ _ => .refl s dir name⟩
  | noMemory _ mem =>
      refine ⟨fun _ _ _ _ _ _ mem' => ?_, fun _ _ => .refl s dir name⟩
      rw [mem] at mem'
      cases mem'
  | noBlock _ _ space =>
      exact ⟨fun _ _ _ _ _ _ _ block => absurd space block.not_exhausted, fun _ _ => hrefl⟩
  | blockUnreadable _ _ block unread =>
      refine ⟨fun _ _ _ _ _ _ _ block' read => ?_, fun _ _ => hrefl⟩
      obtain rfl := block.unique block'
      rw [unread] at read
      cases read
  | @notLinked n b _ u free mem block read entry fail =>
      constructor
      · intro hun
        exact absurd (entry.inodeBitmap.symm.trans (hun fail).inodeBitmap) free.bitmap_ne
      · intro hsafe
        have := entry.fits_iff.mp (hsafe d n b hd free mem block read)
        omega
  | linked free _ block _ entry =>
      refine ⟨fun _ d' n b hd' free' _ block' _ => ?_, fun _ hr => absurd hr (by decide)⟩
      obtain rfl := free.unique free'
      obtain rfl := block.unique block'
      rw [hd] at hd'
      cases hd'
      exact entry.fits_iff.mpr rfl

theorem Unlink.unchanged (h : Unlink ans s dir name r t) (hr : r < 0) :
    Unchanged s t dir name := by
  cases h with
  | noDentry | notRemoved => exact .refl s dir name
  | removed => exact absurd hr (by decide)

theorem Rmdir.unchanged (h : Rmdir ans s dir name r t) (hr : r < 0) :
    Unchanged s t dir name := by
  cases h with
  | noDentry | notDir | unreadable | notEmpty | notRemoved => exact .refl s dir name
  | removed => exact absurd hr (by decide)

/-- In every reachable state, whatever fails, a namespace operation that returns
an error changes nothing exactly when a `create` or `mkdir` that gets as far as
adding the entry can add it. -/
theorem failed_op_unchanged_iff {disk : Nat → Bytes} {s0 : FS} {op : Op} (h0 : Mounted disk s0)
    (h : Reach (fun _ _ _ _ => True) s0 s) (hop : op.entry = some (dir, name))
    (hstep : Step s op ans r t) : (r < 0 → Unchanged s t dir name) ↔ FailSafe s ans op := by
  have hs := h.ready h0.ready
  cases op with
  | create dir name perm =>
      cases hop
      obtain ⟨d, hd, hc⟩ := naiveCreate_cases hs hstep
      exact hc.unchanged_iff hd
  | mkdir dir name mode =>
      cases hop
      obtain ⟨d, hd, hc⟩ := naiveMkdir_cases hs hstep
      exact hc.unchanged_iff hd
  | unlink dir name =>
      cases hop
      exact ⟨fun _ => trivial, fun _ => (vfsUnlink_cases hs hstep).unchanged⟩
  | rmdir dir name =>
      cases hop
      exact ⟨fun _ => trivial, fun _ => (vfsRmdir_cases hs hstep).unchanged⟩
  | write | lookup => cases hop

end Failure

/-- A `mkdir` on a fresh image whose new block cannot be read fails and leaves
everything as it was. -/
theorem mkdir_unreadable_unchanged : ∃ r t,
    Step (FS.mounted (sampleDisk 128 1000 4 132) default)
      (.mkdir 0 (.letters 1 (by decide) (by decide)) 0o755)
      (Answers.unreadable .mkdirNew default 0 0) r t ∧ r = - EIO ∧
      Unchanged (FS.mounted (sampleDisk 128 1000 4 132) default) t 0
        (.letters 1 (by decide) (by decide)) := by
  obtain ⟨r, t, hstep, hr⟩ := exists_of_execTo
    (show execTo (FS.mounted (sampleDisk 128 1000 4 132) default)
      (Op.mkdir 0 (.letters 1 (by decide) (by decide)) 0o755).prog
      (Answers.unreadable .mkdirNew default 0 0) (fun r _ => r == - EIO) = true by decide +kernel)
  obtain rfl : r = - EIO := by simpa using hr
  refine ⟨_, t, hstep, rfl, (failed_op_unchanged_iff (sampleDisk_mounted 128 1000 4 132 default)
    .refl rfl hstep).mpr ?_ (by decide)⟩
  intro d ino b _ _ _ _ read
  exact absurd read (by simp [Answers.unreadable])

/-- A `create` on a fresh image that cannot read the root's new block fails with
the number of the new inode marked. -/
theorem failed_create_marks_inode : ¬ ∀ (disk : Nat → Bytes) (s0 s t : FS) (op : Op) (ans : Answers)
    (r : Int) (dir : Nat) (name : Name), Mounted disk s0 → Reach (fun _ _ _ _ => True) s0 s →
    op.entry = some (dir, name) → Step s op ans r t → r < 0 → Unchanged s t dir name := by
  intro hall
  obtain ⟨r, t, hstep, hcheck⟩ := exists_of_execTo
    (show execTo (FS.mounted (sampleDisk 128 1000 4 132) default)
      (Op.create 0 (.letters 1 (by decide) (by decide)) 0o644).prog
      (Answers.unreadable .addEntryNew default 0 0)
      (fun r t => decide (r < 0 ∧ t.inoMarked 2 = true)) = true by decide +kernel)
  obtain ⟨hr, hmarked⟩ := of_decide_eq_true hcheck
  have hun := hall _ _ _ t _ _ r 0 _ (sampleDisk_mounted 128 1000 4 132 default) .refl rfl hstep hr
  rw [FS.inoMarked, hun.inodeBitmap] at hmarked
  exact absurd hmarked (by decide +kernel)

end NaiveFS
