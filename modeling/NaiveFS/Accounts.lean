import NaiveFS.BlockMap
import NaiveFS.Cells
import NaiveFS.DirectoryMap

/-!
# Both bitmaps accounted for

Where every call succeeds and no directory outgrows its eight blocks, the marked
blocks are those marked on the device and those held in slots, each held once;
and the marked numbers are those of the inodes in memory, each number's once.
-/

namespace NaiveFS

open Bytes Ownership

/-- Block `b` is marked on the device. -/
def Disk.Marked (disk : Nat → Bytes) (b : Int) : Prop :=
  0 ≤ b ∧ b < 4096 ∧ (disk 2).bit b.toNat = true

namespace FS

/-- The marked blocks are those marked on the device and those held in slots. -/
abbrev Accounted (disk : Nat → Bytes) (s : FS) : Prop := Exact s.own s.isMarked (Disk.Marked disk)

/-- The number of the inode at `id`. -/
def number (s : FS) (id : Nat) : Option Nat := (s.inodes id).map (·.iIno)

/-- `ino` is a number marked in the inode bitmap. -/
def numberMarked (s : FS) (ino : Nat) : Prop := 1 ≤ ino ∧ s.inoMarked ino = true

/-- The directory has a free record or a slot for another block. -/
def Room (s : FS) (d : Inode) : Prop := HasFree s d ∨ d.blockCount < 8

end FS

/-! ## Blocks -/

section Blocks

variable {disk : Nat → Bytes} {ans : Answers} {s t : FS} {id dir b j : Nat} {d nd nd' : Inode}
  {name : Name} {ino r : Int}

/-- Put an inode in place that has the next free block besides. -/
theorem FS.Accounted.attach (h : s.Accounted disk) (id : Nat) (free : s.NextFree b)
    (hslot : ∀ i c, nd.slot i = some c ↔ s.own (id, i) = some c ∨ (i = j ∧ c = b)) :
    ((s.markBlock b).setInode id nd).Accounted disk := by
  refine h.grant (k := (id, j)) free.not_isMarked (fun ⟨k, i⟩ c => ?_) fun c => ?_
  · by_cases hk : k = id
    · subst hk
      rw [FS.own_setInode_self, hslot i c]
      simp
    · have hne : ((k, i) : Nat × Nat) ≠ (id, j) := by simp [hk]
      rw [FS.own_setInode_ne hk]
      exact ⟨fun hc => .inl hc, fun hc => hc.resolve_right fun heq => hne heq.1⟩
  · exact FS.isMarked_markBlock free.bitmap

/-- Slots that are not 0 come first, without a gap. -/
theorem Inode.Prefix.packed (h : nd.Prefix (· ≠ 0)) : nd.Packed := by
  refine ⟨h.count_nonneg, h.count_le, fun i hi => ⟨h.lt_count hi, h.below i⟩⟩

/-- A full directory with room gets its block at slot `block_count`. -/
theorem FS.Room.zeroSlot (h : s.Room d) (hshape : d.Prefix (· ≠ 0))
    (full : FindsNone ans s d .addEntryScan isFree) :
    zeroSlot d = some d.blockCount.toNat := by
  refine hshape.packed.zeroSlot_some (h.resolve_left ?_)
  rintro ⟨k, hk, hnone⟩
  exact full.recordAt_ne hshape.packed hk hnone

theorem attachBlock_slot_iff {z i : Nat} {c e : Int} (hz : zeroSlot d = some z) (he : e ≠ 0) :
    (attachBlock d e).slot i = some c ↔ d.slot i = some c ∨ (i = z ∧ c = e) := by
  obtain ⟨hz8, hzero⟩ := zeroSlot_some hz
  constructor
  · intro hi
    rcases attachBlock_slot hi with hold | ⟨hz', rfl⟩
    · exact .inl hold
    · rw [hz] at hz'
      cases hz'
      exact .inr ⟨rfl, rfl⟩
  · rw [attachBlock_some hz]
    rintro (hold | ⟨rfl, rfl⟩)
    · obtain ⟨hi, hp, hne⟩ := Inode.slot_eq_some.mp hold
      have hiz : i ≠ z := by
        rintro rfl
        exact hne (hp.symm.trans hzero)
      exact Inode.slot_eq_some.mpr ⟨hi, (Function.update_of_ne hiz _ _).trans hp, hne⟩
    · exact Inode.slot_eq_some.mpr ⟨hz8, Function.update_self _ _ _, he⟩

theorem FS.Accounted.entry (h : s.Accounted disk) (hd : s.inodes dir = some d)
    (hshape : d.Prefix (· ≠ 0)) (hroom : s.Room d) (hzero : ¬ s.NextFree 0)
    (he : AddEntry ans s dir d name ino r t) (hr : 0 ≤ r) : t.Accounted disk := by
  cases he with
  | filled => exact h
  | unreadable | noSpace | newUnreadable => exact absurd hr (by decide)
  | @grown b full free read =>
      have hb : (b : Int) ≠ 0 := by
        rintro hb
        obtain rfl : b = 0 := by omega
        exact hzero free
      refine h.attach (j := d.blockCount.toNat) dir free fun i c => ?_
      rw [slot_grow, attachBlock_slot_iff (hroom.zeroSlot hshape full) hb,
        FS.own_of (k := (dir, i)) hd]

/-- In a directory with room the entry added fills a free record. -/
theorem AddEntry.cell (h : s.OwnedOnce) (hd : s.inodes dir = some d) (hshape : d.Prefix (· ≠ 0))
    (hroom : s.Room d) (hzero : ¬ s.NextFree 0) (he : AddEntry ans s dir d name ino r t)
    (hr : 0 ≤ r) :
    ∃ d' c, t.inodes dir = some d' ∧ d'.iIno = d.iIno ∧ d'.iMode = d.iMode ∧
      CellFilled s d t d' c (entryOf name ino) := by
  cases he with
  | @filled i j stop =>
      have hc := stop.cell_filled h hd name ino
      exact ⟨d, _, hd, rfl, rfl, hc.bound, hc.empty, hc.new, hc.other⟩
  | unreadable | noSpace | newUnreadable => exact absurd hr (by decide)
  | @grown b full free read =>
      have hb : b ≠ 0 := by
        rintro rfl
        exact hzero free
      refine ⟨d.grow b, _, FS.inodes_setInode_self, ?_, attachBlock_iMode d b,
        grow_cell_filled h hd free (hroom.zeroSlot hshape full) hb name ino⟩
      unfold Inode.grow attachBlock
      split <;> rfl

/-- Freeing an inode's blocks unmarks exactly those it holds. -/
theorem released_isMarked_iff {c : Int} (hshape : nd.Prefix (· ≠ 0)) :
    (s.released nd).isMarked c ↔ s.isMarked c ∧ ∀ i, nd.slot i ≠ some c := by
  have hlow := hshape.count_nonneg
  have hhigh := hshape.count_le
  constructor
  · rintro ⟨h0, h1, hm⟩
    have hm' : (s.freedSlots nd nd.blockCount.toNat 0).marked c.toNat = true := hm
    obtain ⟨hmark, hfree⟩ := (FS.marked_freedSlots (by omega)).mp hm'
    refine ⟨⟨h0, h1, hmark⟩, fun i hi => ?_⟩
    obtain ⟨hi8, hp, hne⟩ := Inode.slot_eq_some.mp hi
    have hcount := hshape.lt_count hi8 (by rw [hp]; exact hne)
    refine hfree i (by omega) (by omega) (by rw [hp]; exact hne) ?_
    omega
  · rintro ⟨⟨h0, h1, hmark⟩, hother⟩
    refine ⟨h0, h1, ?_⟩
    show (s.freedSlots nd nd.blockCount.toNat 0).marked c.toNat = true
    refine (FS.marked_freedSlots (by omega)).mpr ⟨hmark, fun k _ hk hp hkc => ?_⟩
    refine hother k (Inode.slot_eq_some.mpr ⟨by omega, ?_, ?_⟩) <;> omega

/-- Removing an inode gives back exactly what it held. -/
theorem FS.Accounted.removed (h : s.Accounted disk) (hnd : ∀ i, s.own (id, i) = nd.slot i)
    (hshape : nd.Prefix (· ≠ 0)) (dir : Nat) (name : Name) :
    (s.removed dir name id nd).Accounted disk := by
  refine h.release (fun k => k.1 = id) (fun ⟨k, i⟩ c => ?_) fun c => ?_
  · by_cases hk : k = id
    · subst hk
      have hnone : (s.removed dir name k nd).inodes k = none := FS.inodes_dropInode_self
      unfold FS.own
      rw [hnone]
      simp
    · have hown : (s.removed dir name id nd).own (k, i) = s.own (k, i) := by
        unfold FS.own
        rw [inodes_removed_ne hk]
      rw [hown]
      exact ⟨fun hc => ⟨hc, hk⟩, fun hc => hc.1⟩
  · refine (released_isMarked_iff hshape).trans (and_congr_right fun _ => ?_)
    constructor
    · rintro hfree ⟨k, i⟩ rfl
      rw [hnd]
      exact hfree i
    · intro hfree i hi
      exact hfree (id, i) rfl ((hnd i).trans hi)

theorem Extend.accounted (h : s.Accounted disk) (hzero : ∀ t, Extend id s t → ¬ t.NextFree 0)
    (hshape : ∀ t nd, Extend id s t → t.inodes id = some nd → nd.Prefix (· ≠ 0))
    (he : Extend id s t) : t.Accounted disk := by
  induction he with
  | refl => exact h
  | @step t b nd rest free node low room ih =>
      have hb : (b : Int) ≠ 0 := by
        rintro hb
        obtain rfl : b = 0 := by omega
        exact hzero t rest free
      have habove := (hshape t nd rest node).above nd.blockCount.toNat (by omega) (by omega)
      refine ih.attach (j := nd.blockCount.toNat) id free fun i c => ?_
      rw [FS.own_of (s := t) (k := (id, i)) node, Inode.slot_eq_some, Inode.slot_eq_some]
      show i < 8 ∧ Function.update nd.blockPointers nd.blockCount.toNat (b : Int) i = c ∧ c ≠ 0 ↔ _
      by_cases hi : i = nd.blockCount.toNat
      · subst hi
        rw [Function.update_self, habove]
        constructor
        · rintro ⟨_, rfl, _⟩
          exact .inr ⟨rfl, rfl⟩
        · rintro (⟨_, rfl, hne⟩ | ⟨_, rfl⟩)
          · exact absurd rfl hne
          · exact ⟨by omega, rfl, hb⟩
      · rw [Function.update_of_ne hi]
        exact ⟨fun hc => .inl hc, fun hc => hc.resolve_right fun heq => hi heq.1⟩

end Blocks

/-! ## Inode numbers -/

section Numbers

variable {ans : Answers} {s t : FS} {id dir b : Nat} {d nd nd' : Inode} {name : Name} {r : Int}

theorem FS.number_of (h : s.inodes id = some nd) : s.number id = some nd.iIno := by
  rw [FS.number, h]
  rfl

theorem FS.number_eq_some {v : Nat} :
    s.number id = some v ↔ ∃ nd, s.inodes id = some nd ∧ nd.iIno = v := Option.map_eq_some_iff

/-- The bitmap alone decides which numbers are marked. -/
theorem numberMarked_congr (h : t.sbi.inodeBitmap = s.sbi.inodeBitmap) (v : Nat) :
    t.numberMarked v ↔ s.numberMarked v := by
  unfold FS.numberMarked FS.inoMarked
  rw [h]

theorem AddEntry.dcache {ino : Int} (he : AddEntry ans s dir d name ino r t) :
    t.dcache = s.dcache := by
  cases he <;> rfl

theorem AddEntry.number {ino : Int} (hd : s.inodes dir = some d)
    (he : AddEntry ans s dir d name ino r t) (k : Nat) : t.number k = s.number k := by
  by_cases hk : k = dir
  · subst hk
    obtain ⟨d', hd', hino, _⟩ := he.parent hd
    rw [FS.number_of hd', FS.number_of hd, hino]
  · unfold FS.number
    rw [(he.frame hd).2.2.2 k hk]

/-- Marking a number. -/
theorem numberMarked_mark {ino v : Nat} (hino : 1 ≤ ino)
    (hbm : t.sbi.inodeBitmap = s.sbi.inodeBitmap.setBit (ino - 1)) :
    t.numberMarked v ↔ s.numberMarked v ∨ v = ino := by
  unfold FS.numberMarked FS.inoMarked
  rw [hbm, bit_setBit, Bool.or_eq_true, decide_eq_true_eq]
  constructor
  · rintro ⟨hv, heq | hm⟩
    · exact .inr (by omega)
    · exact .inl ⟨hv, hm⟩
  · rintro (⟨hv, hm⟩ | rfl)
    · exact ⟨hv, .inr hm⟩
    · exact ⟨hino, .inl rfl⟩

theorem inoMarked_numberFreed (s : FS) {ino : Nat} (hpos : 1 ≤ ino) (v : Nat) :
    (s.numberFreed ino).inoMarked v = (decide (v - 1 ≠ ino - 1) && s.inoMarked v) := by
  rw [FS.numberFreed_of_pos (by omega), Int.toNat_natCast]
  exact bit_clearBit _ _ _

/-- Releasing an inode unmarks no other number. -/
theorem numberMarked_released {v : Nat} (hrange : 1 ≤ nd.iIno ∧ nd.iIno < 2 ^ 32)
    (hv : s.numberMarked v) (hne : v ≠ nd.iIno) : (s.released nd).numberMarked v := by
  obtain ⟨hpos, hm⟩ := hv
  obtain ⟨bm, hframe⟩ := s.freedSlots_frame nd nd.blockCount.toNat 0
  have hsame : (s.freedSlots nd nd.blockCount.toNat 0).inoMarked v = true := by
    rw [hframe]
    exact hm
  refine ⟨hpos, ?_⟩
  rw [FS.released]
  by_cases hino : 1 ≤ toInt32 nd.iIno
  · have hint : toInt32 nd.iIno = nd.iIno := by
      unfold toInt32 at *
      omega
    rw [hint, inoMarked_numberFreed _ hrange.1, hsame, Bool.and_true, decide_eq_true_eq]
    omega
  · rw [FS.numberFreed_of_neg hino]
    exact hsame

/-- Removing an inode gives back its number. -/
theorem numberMarked_removed {v : Nat} (hpos : 1 ≤ nd.iIno) (hle : nd.iIno ≤ 4096) (dir : Nat)
    (name : Name) (id : Nat) :
    (s.removed dir name id nd).numberMarked v ↔ s.numberMarked v ∧ v ≠ nd.iIno := by
  have hino : toInt32 nd.iIno = nd.iIno := toInt32_of_small (by omega) (by omega)
  obtain ⟨bm, hframe⟩ := s.freedSlots_frame nd nd.blockCount.toNat 0
  have hbit : (s.removed dir name id nd).inoMarked v
      = (decide (v - 1 ≠ nd.iIno - 1) && s.inoMarked v) := by
    have hsame : (s.freedSlots nd nd.blockCount.toNat 0).inoMarked v = s.inoMarked v := by
      rw [hframe]
      rfl
    have hremoved : (s.removed dir name id nd).inoMarked v
        = ((s.freedSlots nd nd.blockCount.toNat 0).numberFreed (toInt32 nd.iIno)).inoMarked v := rfl
    rw [hremoved, hino, inoMarked_numberFreed _ hpos, hsame]
  unfold FS.numberMarked
  rw [hbit, Bool.and_eq_true, decide_eq_true_eq]
  constructor
  · rintro ⟨hv, hne, hm⟩
    exact ⟨⟨hv, hm⟩, fun heq => hne (by rw [heq])⟩
  · rintro ⟨⟨hv, hm⟩, hne⟩
    exact ⟨hv, by omega, hm⟩

theorem number_removed_self (dir : Nat) (name : Name) (id : Nat) (nd : Inode) :
    (s.removed dir name id nd).number id = none := by
  unfold FS.number FS.removed
  rw [FS.inodes_dropInode_self]
  rfl

theorem number_removed_ne {k : Nat} (hne : k ≠ id) :
    (s.removed dir name id nd).number k = s.number k := by
  unfold FS.number
  rw [inodes_removed_ne hne]

theorem newFile_iIno (ans : Answers) (d : Inode) (mode ino : Nat) :
    (Inode.newFile ans d mode ino).iIno = ino :=
  initOwner_iIno { iNlink := 1, iIno := ino } d (ans .currentFsuid) (ans .currentFsgid) mode

theorem newDir_iIno (ans : Answers) (d : Inode) (mode ino b : Nat) :
    (Inode.newDir ans d mode ino b).iIno = ino :=
  initOwner_iIno { iNlink := 1, iIno := ino } d (ans .currentFsuid) (ans .currentFsgid) _

end Numbers

end NaiveFS
