import NaiveFS.Directory
import NaiveFS.Owners
import NaiveFS.Session

/-!
# Blocks and records of every inode

Where ownership is exclusive, an operation changes the bytes of the inodes it is
given and of no other. What it does to the records of a directory is to fill one
cell, to clear one, or nothing.
-/

namespace NaiveFS

open Bytes

/-! ## Bytes that stay -/

/-- The blocks of `nd` hold in `t` what they hold in `s`. -/
def Untouched (s t : FS) (nd : Inode) : Prop :=
  ∀ i, i < 8 → nd.blockPointers i ≠ 0 → t.slotBlock nd i = s.slotBlock nd i

section Untouched

variable {ans : Answers} {s t u : FS} {id dir i b : Nat} {nd d e : Inode} {name : Name} {r c : Int}

theorem Untouched.refl (s : FS) (nd : Inode) : Untouched s s nd := fun _ _ _ => rfl

theorem Untouched.trans (h : Untouched s t nd) (h' : Untouched t u nd) : Untouched s u nd :=
  fun i hi hp => (h' i hi hp).trans (h i hi hp)

/-- Buffers decide. -/
theorem Untouched.of_cache (h : t.cache = s.cache) : Untouched s t nd := by
  intro i _ _
  rw [FS.slotBlock, FS.block, h]
  rfl

/-- A store into another block. -/
theorem Untouched.writeBlock (v : Bytes)
    (hne : ∀ i, i < 8 → nd.blockPointers i ≠ 0 → toU64 (nd.blockPointers i) ≠ toU64 c) :
    Untouched s (s.writeBlock c v) nd :=
  fun i hi hp => FS.block_writeBlock_ne (hne i hi hp)

theorem FS.own_slot (hnd : s.inodes id = some nd) (hi : i < 8) (hp : nd.blockPointers i ≠ 0) :
    s.own (id, i) = some (nd.blockPointers i) :=
  (FS.own_of (k := (id, i)) hnd).trans (Inode.slot_eq_some.mpr ⟨hi, rfl, hp⟩)

/-- Blocks of different owners are different buffers. -/
theorem FS.OwnedOnce.toU64_ne {k l : Nat × Nat} {p q : Int} (h : s.OwnedOnce)
    (hk : s.own k = some p) (hl : s.own l = some q) (hne : k ≠ l) : toU64 p ≠ toU64 q := by
  obtain ⟨h0, h1, _⟩ := h.marked l q hl
  refine (h.marked k p hk).toU64_ne ⟨h0, h1⟩ ?_
  rintro rfl
  exact hne (h.inj k l p hk hl)

/-- A block owned is not the next free one. -/
theorem FS.OwnedOnce.toU64_ne_free {k : Nat × Nat} {p : Int} (h : s.OwnedOnce)
    (hk : s.own k = some p) (free : s.NextFree b) : toU64 p ≠ toU64 b := by
  have hb := free.bitmap
  refine (h.marked k p hk).toU64_ne ⟨by omega, by omega⟩ ?_
  rintro rfl
  exact free.not_isMarked (h.marked k _ hk)

theorem FS.OwnedOnce.toU64_ne_zero {k : Nat × Nat} {p : Int} (h : s.OwnedOnce)
    (hk : s.own k = some p) : toU64 p ≠ toU64 0 := by
  obtain ⟨_, _, hslot⟩ := FS.own_eq_some.mp hk
  obtain ⟨_, _, hne⟩ := Inode.slot_eq_some.mp hslot
  exact (h.marked k p hk).toU64_ne ⟨by omega, by omega⟩ hne

/-- A store into a block of another inode. -/
theorem FS.OwnedOnce.untouched {j : Nat} (h : s.OwnedOnce) (hnd : s.inodes id = some nd)
    (hd : s.inodes dir = some d) (hne : id ≠ dir) (hj : j < 8) (hp : d.blockPointers j ≠ 0)
    (v : Bytes) : Untouched s (s.writeBlock (d.blockPointers j) v) nd := by
  refine .writeBlock v fun i hi hpi => ?_
  apply h.toU64_ne (FS.own_slot hnd hi hpi) (FS.own_slot hd hj hp)
  intro heq
  exact hne (congrArg Prod.fst heq)

/-- A store into the next free block. -/
theorem FS.OwnedOnce.untouched_free (h : s.OwnedOnce) (hnd : s.inodes id = some nd)
    (free : s.NextFree b) (v : Bytes) : Untouched s (s.writeBlock b v) nd :=
  .writeBlock v fun _ hi hpi => h.toU64_ne_free (FS.own_slot hnd hi hpi) free

/-! ### Each operation -/

theorem AddEntry.untouched {ino : Int} (h : s.OwnedOnce) (hnd : s.inodes id = some nd)
    (hd : s.inodes dir = some d) (hne : id ≠ dir) (he : AddEntry ans s dir d name ino r t) :
    Untouched s t nd := by
  cases he with
  | filled stop => exact h.untouched hnd hd hne stop.slot.bound stop.slot.attached _
  | unreadable | noSpace => exact .refl s nd
  | newUnreadable => exact .of_cache rfl
  | grown full free read => exact h.untouched_free hnd free _

theorem fileMade_owned {mode ino : Nat} (h : s.OwnedOnce) :
    (s.fileMade ans d mode ino).OwnedOnce :=
  h.setInode s.nextInode fun i c hi => by
    rw [newFile_slot] at hi
    cases hi

theorem dirMade_owned {mode ino : Nat} (h : s.OwnedOnce) (free : s.NextFree b) :
    (s.dirMade ans d mode ino b).OwnedOnce :=
  h.attach s.nextInode free fun _ _ hi => .inr (newDir_slot hi)

theorem FS.OwnedOnce.untouched_dirMade {mode ino : Nat} (h : s.OwnedOnce)
    (hnd : s.inodes id = some nd) (block : s.NextFree b) :
    Untouched s (s.dirMade ans d mode ino b) nd :=
  h.untouched_free hnd block _

theorem mapInode_cache (s : FS) (id : Nat) (f : Inode → Inode) :
    (s.mapInode id f).cache = s.cache := by
  unfold FS.mapInode
  split <;> rfl

theorem mapInode_dcache (s : FS) (id : Nat) (f : Inode → Inode) :
    (s.mapInode id f).dcache = s.dcache := by
  unfold FS.mapInode
  split <;> rfl

theorem removed_cache (s : FS) (dir : Nat) (name : Name) (id : Nat) (nd : Inode) :
    (s.removed dir name id nd).cache = s.cache := by
  obtain ⟨bm, im, hframe⟩ := s.released_frame nd
  show (s.released nd).cache = s.cache
  rw [hframe]

theorem Unlink.untouched (h : s.OwnedOnce) (hnd : s.inodes id = some nd) (hne : id ≠ dir)
    (hu : Unlink ans s dir name r t) : Untouched s t nd := by
  cases hu with
  | noDentry | notRemoved => exact .refl s nd
  | @removed d _ _ i j dentry parent target node stop =>
      have hclear : Untouched s (s.clearRecord d i j) nd :=
        h.untouched hnd parent hne stop.slot.bound stop.slot.attached _
      exact hclear.trans (.of_cache (removed_cache _ _ _ _ _))

theorem Rmdir.untouched (h : s.OwnedOnce) (hnd : s.inodes id = some nd) (hne : id ≠ dir)
    (hu : Rmdir ans s dir name r t) : Untouched s t nd := by
  cases hu with
  | noDentry | notDir | unreadable | notEmpty | notRemoved => exact .refl s nd
  | @removed d _ _ i j dentry parent target node isDir empty stop =>
      have hclear : Untouched s (s.clearRecord d i j) nd :=
        h.untouched hnd parent hne stop.slot.bound stop.slot.attached _
      refine hclear.trans (.of_cache ?_)
      rw [removed_cache, mapInode_cache]

/-- Writing to a file changes no other inode's blocks. -/
theorem Write.untouched {k : Nat} (h : s.OwnedOnce) (he : s.inodes k = some e) (hne : k ≠ id)
    (hw : Write s id r t) : Untouched s t e := by
  cases hw with
  | tooBig => exact .refl s e
  | noSpace grow => exact .of_cache grow.frame.2.2.1
  | @written u v nd nd' r grow node data same =>
      have hu := grow.owned h
      obtain ⟨_, _, hcache, hother⟩ := grow.frame
      have heu : u.inodes k = some e := (hother k hne).trans he
      refine (Untouched.of_cache hcache).trans fun i hi hp => ?_
      have hown := FS.own_slot heu hi hp
      refine data.cache _ fun j hj _ => ?_
      by_cases hz : nd.blockPointers j = 0
      · rw [hz]
        exact (hu.toU64_ne_zero hown).symm
      · apply (hu.toU64_ne hown (FS.own_slot node hj hz) _).symm
        intro heq
        exact hne (congrArg Prod.fst heq)

/-! ### The inodes in memory after an operation -/

theorem FS.inodes_mapInode_ne {f : Inode → Inode} {k : Nat} (h : k ≠ id) :
    (s.mapInode id f).inodes k = s.inodes k := by
  unfold FS.mapInode
  split
  · exact FS.inodes_setInode_ne h
  · rfl

theorem isDir_of_iMode {nd' : Inode} (h : nd'.iMode = nd.iMode) : nd'.isDir = nd.isDir := by
  unfold Inode.isDir
  rw [h]

/-- Adding an entry keeps the parent's number and mode. -/
theorem AddEntry.parent {ino : Int} (hd : s.inodes dir = some d)
    (he : AddEntry ans s dir d name ino r t) :
    ∃ d', t.inodes dir = some d' ∧ d'.iIno = d.iIno ∧ d'.iMode = d.iMode := by
  have hattach (c : Int) : (attachBlock d c).iIno = d.iIno := by
    unfold attachBlock
    split <;> rfl
  cases he with
  | filled | unreadable | noSpace => exact ⟨d, hd, rfl, rfl⟩
  | newUnreadable => exact ⟨_, FS.inodes_setInode_self, hattach _, attachBlock_iMode d _⟩
  | grown => exact ⟨_, FS.inodes_setInode_self, hattach _, attachBlock_iMode d _⟩

theorem Create.parent {mode : Nat} (hs : s.Ready) (hd : s.inodes dir = some d)
    (hc : Create ans s dir d name mode r t) :
    ∃ d', t.inodes dir = some d' ∧ d'.iIno = d.iIno ∧ d'.iMode = d.iMode := by
  cases hc with
  | noInode | noMemory => exact ⟨d, hd, rfl, rfl⟩
  | notLinked free mem entry =>
      obtain ⟨d', hd', hsame⟩ := entry.parent (hs.inodes_fileMade hd)
      exact ⟨d', (FS.inodes_dropInode_ne (hs.ne_next hd)).trans hd', hsame⟩
  | linked free mem entry =>
      obtain ⟨d', hd', hsame⟩ := entry.parent (hs.inodes_fileMade hd)
      exact ⟨d', hd', hsame⟩

/-- Besides the parent, the inodes are those there were and the new one. -/
theorem Create.inodes {mode k : Nat} (hs : s.Ready) (hd : s.inodes dir = some d)
    (hc : Create ans s dir d name mode r t) (hk : k ≠ dir) (he : t.inodes k = some e) :
    s.inodes k = some e ∨
      (r = 0 ∧ k = s.nextInode ∧ ∃ ino, s.NextIno ino ∧ e = Inode.newFile ans d mode ino) := by
  have hentry {ino : Nat} {u : FS}
      (entry : AddEntry ans (s.fileMade ans d mode ino) dir d name ino r u) :
      u.inodes k = (s.fileMade ans d mode ino).inodes k :=
    (entry.frame (hs.inodes_fileMade hd)).2.2.2 k hk
  cases hc with
  | noInode | noMemory => exact .inl he
  | @notLinked ino _ u free mem entry =>
      have hne : k ≠ s.nextInode := by
        rintro rfl
        rw [FS.inodes_dropInode_self] at he
        cases he
      rw [FS.inodes_dropInode_ne hne, hentry entry] at he
      exact .inl ((FS.inodes_withNew_ne hne).symm.trans he)
  | @linked ino u free mem entry =>
      have hu : u.inodes k = some e := he
      rw [hentry entry] at hu
      by_cases hne : k = s.nextInode
      · subst hne
        have hnew : (s.fileMade ans d mode ino).inodes s.nextInode
            = some (Inode.newFile ans d mode ino) := FS.inodes_withNew_self
        exact .inr ⟨rfl, rfl, ino, free, Option.some.inj (hu.symm.trans hnew)⟩
      · exact .inl ((FS.inodes_withNew_ne hne).symm.trans hu)

theorem Mkdir.parent {mode : Nat} (hs : s.Ready) (hd : s.inodes dir = some d)
    (hm : Mkdir ans s dir d name mode r t) :
    ∃ d', t.inodes dir = some d' ∧ d'.iIno = d.iIno ∧ d'.iMode = d.iMode := by
  cases hm with
  | noInode | noMemory | noBlock | blockUnreadable => exact ⟨d, hd, rfl, rfl⟩
  | notLinked free mem block read entry fail =>
      obtain ⟨d', hd', hsame⟩ := entry.parent (hs.inodes_dirMade hd)
      exact ⟨d', (FS.inodes_dropInode_ne (hs.ne_next hd)).trans hd', hsame⟩
  | linked free mem block read entry =>
      obtain ⟨d', hd', hino, hmode⟩ := entry.parent (hs.inodes_dirMade hd)
      refine ⟨Inode.addLink d', ?_, hino, hmode⟩
      show (FS.mapInode _ dir Inode.addLink).inodes dir = _
      rw [FS.mapInode_of hd', FS.inodes_setInode_self]

theorem Mkdir.inodes {mode k : Nat} (hs : s.Ready) (hd : s.inodes dir = some d)
    (hm : Mkdir ans s dir d name mode r t) (hk : k ≠ dir) (he : t.inodes k = some e) :
    s.inodes k = some e ∨ (r = 0 ∧ k = s.nextInode ∧ ∃ ino b, s.NextIno ino ∧ s.NextFree b ∧
      e = Inode.newDir ans d mode ino b) := by
  have hentry {ino b : Nat} {u : FS}
      (entry : AddEntry ans (s.dirMade ans d mode ino b) dir d name ino r u) :
      u.inodes k = (s.dirMade ans d mode ino b).inodes k :=
    (entry.frame (hs.inodes_dirMade hd)).2.2.2 k hk
  cases hm with
  | noInode | noMemory | noBlock | blockUnreadable => exact .inl he
  | @notLinked ino b _ u free mem block read entry fail =>
      have hne : k ≠ s.nextInode := by
        rintro rfl
        rw [FS.inodes_dropInode_self] at he
        cases he
      rw [FS.inodes_dropInode_ne hne] at he
      have hu : u.inodes k = some e := he
      rw [hentry entry] at hu
      exact .inl ((FS.inodes_withNew_ne hne).symm.trans hu)
  | @linked ino b u free mem block read entry =>
      have hu : (u.mapInode dir Inode.addLink).inodes k = some e := he
      rw [FS.inodes_mapInode_ne hk, hentry entry] at hu
      by_cases hne : k = s.nextInode
      · subst hne
        have hnew : (s.dirMade ans d mode ino b).inodes s.nextInode
            = some (Inode.newDir ans d mode ino b) := FS.inodes_withNew_self
        exact .inr ⟨rfl, rfl, ino, b, free, block, Option.some.inj (hu.symm.trans hnew)⟩
      · exact .inl ((FS.inodes_withNew_ne hne).symm.trans hu)

theorem inodes_removed_ne {k : Nat} (hne : k ≠ id) :
    (s.removed dir name id nd).inodes k = s.inodes k := by
  unfold FS.removed
  rw [FS.inodes_dropInode_ne hne]
  exact congrFun (FS.released_inodes s nd) k

theorem inodes_removed_some {k : Nat} (h : (s.removed dir name id nd).inodes k = some e) :
    k ≠ id := by
  rintro rfl
  unfold FS.removed at h
  rw [FS.inodes_dropInode_self] at h
  cases h

theorem Unlink.inodes {k : Nat} (hu : Unlink ans s dir name r t) (he : t.inodes k = some e) :
    s.inodes k = some e := by
  cases hu with
  | noDentry | notRemoved => exact he
  | removed => rwa [inodes_removed_ne (inodes_removed_some he)] at he

theorem Rmdir.inodes {k : Nat} (hu : Rmdir ans s dir name r t) (he : t.inodes k = some e) :
    s.inodes k = some e ∨ (k = dir ∧ ∃ d, s.inodes dir = some d ∧ e = Inode.dropLink d) := by
  cases hu with
  | noDentry | notDir | unreadable | notEmpty | notRemoved => exact .inl he
  | @removed d _ _ i j dentry parent =>
      rw [inodes_removed_ne (inodes_removed_some he)] at he
      have hparent : (s.clearRecord d i j).inodes dir = some d := parent
      by_cases hk : k = dir
      · subst hk
        rw [FS.mapInode_of hparent, FS.inodes_setInode_self] at he
        exact .inr ⟨rfl, d, parent, (Option.some.inj he).symm⟩
      · rw [FS.inodes_mapInode_ne hk] at he
        exact .inl he

theorem Write.inodes {k : Nat} (hw : Write s id r t) (hk : k ≠ id) : t.inodes k = s.inodes k := by
  cases hw with
  | tooBig => rfl
  | noSpace grow => exact grow.frame.2.2.2 k hk
  | written grow node data same =>
      rw [FS.inodes_setInode_ne hk, data.inodes, grow.frame.2.2.2 k hk]

/-- Blocks that stay hold the same records. -/
theorem Untouched.recordAt (h : Untouched s t nd) {k : Nat} (hk : k < 24) :
    t.recordAt nd k = s.recordAt nd k := by
  refine recordAt_congr rfl (fun hp => ?_) fun hp => ?_
  · rw [h (k / 3) (by omega) hp]
  · rw [h (k / 3) (by omega) hp]

end Untouched

/-! ## The cells of a directory -/

/-- The attached slots come before `block_count`. -/
structure Inode.Front (nd : Inode) : Prop where
  low : 0 ≤ nd.blockCount
  lt_count : ∀ i : Nat, i < 8 → nd.blockPointers i ≠ 0 → (i : Int) < nd.blockCount

/-- `nd'` has in `t` the records that `nd` has in `s`. -/
def SameCells (s : FS) (nd : Inode) (t : FS) (nd' : Inode) : Prop :=
  ∀ k, k < 24 → t.recordAt nd' k = s.recordAt nd k

/-- The same but for cell `c`, which was empty and now holds `x`. -/
structure CellFilled (s : FS) (nd : Inode) (t : FS) (nd' : Inode) (c : Nat)
    (x : Option (List Byte × Nat)) : Prop where
  bound : c < 24
  empty : s.recordAt nd c = none
  new : t.recordAt nd' c = x
  other : ∀ k, k < 24 → k ≠ c → t.recordAt nd' k = s.recordAt nd k

/-- What adding an entry makes of the directory's inode and records; `r` is what
it returns. -/
structure EntryAdded (s : FS) (nd : Inode) (t : FS) (nd' : Inode) (name : Name) (ino r : Int) :
    Prop where
  iIno : nd'.iIno = nd.iIno
  iMode : nd'.iMode = nd.iMode
  front : nd.Front → nd'.Front
  cells : SameCells s nd t nd' ∨ (r = 0 ∧ ∃ c, CellFilled s nd t nd' c (entryOf name ino))

section Cells

variable {ans : Answers} {s t : FS} {dir i j b : Nat} {d nd nd' : Inode} {name : Name}
  {ino r : Int} {v : Bytes}

/-- Rewriting a record of an attached block. -/
theorem FS.OwnedOnce.recordAt_write (h : s.OwnedOnce) (hd : s.inodes dir = some d) (hi : i < 8)
    (hp : d.blockPointers i ≠ 0)
    (hv : ∀ l, l < 3 → l ≠ j → DirRecord.iIno v l = DirRecord.iIno (s.slotBlock d i) l ∧
      DirRecord.name v l = DirRecord.name (s.slotBlock d i) l) {k : Nat} (hk : k < 24)
    (hne : k ≠ 3 * i + j) :
    (s.writeBlock (d.blockPointers i) v).recordAt d k = s.recordAt d k := by
  by_cases hki : k / 3 = i
  · subst hki
    obtain ⟨hino, hname⟩ := hv (k % 3) (by omega) (by omega)
    exact recordAt_congr rfl (fun _ => by rw [slotBlock_writeBlock_self, hino])
      (fun _ => by rw [slotBlock_writeBlock_self, hname])
  · have hblock (hpk : d.blockPointers (k / 3) ≠ 0) :
        (s.writeBlock (d.blockPointers i) v).slotBlock d (k / 3) = s.slotBlock d (k / 3) := by
      apply slotBlock_writeBlock_ne
      apply h.toU64_ne (FS.own_slot hd (by omega) hpk) (FS.own_slot hd hi hp)
      intro heq
      exact hki (congrArg Prod.snd heq)
    exact recordAt_congr rfl (fun hpk => by rw [hblock hpk]) (fun hpk => by rw [hblock hpk])

theorem Inode.Front.attach (h : nd.Front) (c : Int) : (attachBlock nd c).Front := by
  cases hz : zeroSlot nd with
  | none =>
      rw [attachBlock_none hz]
      exact h
  | some z =>
      rw [attachBlock_some hz]
      have hlow := h.low
      -- every slot before the first zero slot is attached
      have hzcount : (z : Int) ≤ nd.blockCount := by
        rcases Nat.eq_zero_or_pos z with rfl | hpos
        · exact hlow
        · unfold zeroSlot at hz
          rw [List.find?_range_eq_some] at hz
          have hz8 : z < 8 := List.mem_range.mp hz.2.1
          have hprev := hz.2.2 (z - 1) (by omega)
          have := h.lt_count (z - 1) (by omega) (by simpa using hprev)
          omega
      refine ⟨by show 0 ≤ nd.blockCount + 1; omega, fun i hi hp => ?_⟩
      show (i : Int) < nd.blockCount + 1
      by_cases hiz : i = z
      · omega
      · have hp' : nd.blockPointers i ≠ 0 := by
          rw [← Function.update_of_ne hiz c nd.blockPointers]
          exact hp
        have := h.lt_count i hi hp'
        omega

/-- Filling a free record of an attached block. -/
theorem StopsAt.cell_filled (h : s.OwnedOnce) (hd : s.inodes dir = some d)
    (stop : StopsAt ans s d .addEntryScan isFree i j) (name : Name) (ino : Int) :
    CellFilled s d (s.putRecord d i j name ino) d (3 * i + j) (entryOf name ino) := by
  have hi := stop.slot.bound
  have hj := stop.bound
  refine ⟨by omega, stop.recordAt, ?_, ?_⟩
  · exact recordAt_put stop.slot.attached hj (slotBlock_writeBlock_self _ _ _ _)
  · intro k hk hne
    refine h.recordAt_write hd hi stop.slot.attached (fun l hl hlj => ?_) hk hne
    exact ⟨DirRecord.iIno_put_ne (Ne.symm hlj), DirRecord.name_put_ne (Ne.symm hlj)⟩

/-- Records do not change when the pointers and the blocks behind them do not. -/
theorem sameCells_of (hptr : nd'.blockPointers = nd.blockPointers) (h : Untouched s t nd) :
    SameCells s nd t nd' := by
  intro k hk
  refine recordAt_congr (by rw [hptr]) (fun hp => ?_) fun hp => ?_
  all_goals
    have hblock : t.slotBlock nd' (k / 3) = t.slotBlock nd (k / 3) := by
      rw [FS.slotBlock, hptr]
      rfl
    rw [hblock, h (k / 3) (by omega) hp]

/-- The new block, attached at slot `i`, holds the new record and two free ones. -/
theorem grow_cell_filled (h : s.OwnedOnce) (hd : s.inodes dir = some d) (free : s.NextFree b)
    (hz : zeroSlot d = some i) (hb : b ≠ 0) (name : Name) (ino : Int) :
    CellFilled s d (s.growDir dir d b name ino) (d.grow b) (3 * i) (entryOf name ino) := by
  obtain ⟨hi, hzero⟩ := zeroSlot_some hz
  have hptr : (d.grow b).blockPointers = Function.update d.blockPointers i (b : Int) := by
    unfold Inode.grow
    rw [attachBlock_some hz]
    rfl
  have hself : (d.grow b).blockPointers i = b := by
    rw [hptr]
    exact Function.update_self _ _ _
  have hne : (d.grow b).blockPointers i ≠ 0 := by
    rw [hself]
    omega
  have hblock : (s.growDir dir d b name ino).slotBlock (d.grow b) i
      = DirRecord.put ((s.block b).zero 0 naiveBlockSize) 0 (toU32 ino) name.bytes := by
    unfold FS.slotBlock
    rw [hself]
    exact FS.block_writeBlock_self (s.markBlock b) _ _
  have hnone (k : Nat) (hk : k / 3 = i) : s.recordAt d k = none :=
    if_neg fun hp => hp.1 (by rw [hk, hzero])
  refine ⟨by omega, hnone _ (by omega), recordAt_put (j := 0) hne (by omega) hblock, ?_⟩
  intro k hk hne'
  by_cases hki : k / 3 = i
  · have hrec : (s.growDir dir d b name ino).recordAt (d.grow b) (3 * i + k % 3) = none := by
      rw [recordAt_eq hne (by omega), hblock, DirRecord.iIno_put_ne (by omega),
        if_neg (not_not.mpr (DirRecord.iIno_zero (by omega)))]
    rw [hnone k hki, ← hrec, ← hki]
    congr 1
    omega
  · have hold : (d.grow b).blockPointers (k / 3) = d.blockPointers (k / 3) := by
      rw [hptr]
      exact Function.update_of_ne hki _ _
    have hkeep (hp : d.blockPointers (k / 3) ≠ 0) :
        (s.growDir dir d b name ino).slotBlock (d.grow b) (k / 3) = s.slotBlock d (k / 3) := by
      have hunt := h.untouched_free hd free (DirRecord.put ((s.block b).zero 0 naiveBlockSize) 0
        (toU32 ino) name.bytes) (k / 3) (by omega) hp
      rw [← hunt]
      unfold FS.slotBlock
      rw [hold]
      rfl
    exact recordAt_congr hold (fun hp => by rw [hkeep hp]) (fun hp => by rw [hkeep hp])

/-- A directory that gets no new slot keeps its records. -/
theorem attach_sameCells (h : s.OwnedOnce) (hd : s.inodes dir = some d) (free : s.NextFree b)
    (hsame : (attachBlock d b).blockPointers = d.blockPointers) (name : Name) (ino : Int) :
    SameCells s d (s.growDir dir d b name ino) (d.grow b) :=
  sameCells_of hsame (h.untouched_free hd free _)

/-- Block 0 attached looks like no block. -/
theorem attachBlock_zero (nd : Inode) : (attachBlock nd 0).blockPointers = nd.blockPointers := by
  cases hz : zeroSlot nd with
  | none => rw [attachBlock_none hz]
  | some z =>
      rw [attachBlock_some hz]
      show Function.update nd.blockPointers z 0 = nd.blockPointers
      rw [← (zeroSlot_some hz).2, Function.update_eq_self]

/-- Adding an entry keeps the records, or fills an empty cell with it. -/
theorem AddEntry.added (h : s.OwnedOnce) (hd : s.inodes dir = some d)
    (hok : ∀ b, ¬ AttachFails ans s d b) (he : AddEntry ans s dir d name ino r t) :
    ∃ d', t.inodes dir = some d' ∧ EntryAdded s d t d' name ino r := by
  cases he with
  | @filled i j stop =>
      have hc := stop.cell_filled h hd name ino
      exact ⟨d, hd, rfl, rfl, id, .inr ⟨rfl, _, hc.bound, hc.empty, hc.new, hc.other⟩⟩
  | unreadable | noSpace => exact ⟨d, hd, rfl, rfl, id, .inl fun _ _ => rfl⟩
  | @newUnreadable b full free unread =>
      have hsame : (attachBlock d b).blockPointers = d.blockPointers := by
        by_cases hb : b = 0
        · rw [hb]
          exact attachBlock_zero d
        · by_cases hz : zeroSlot d = none
          · rw [attachBlock_none hz]
          · exact absurd ⟨full, free, hb, hz, unread⟩ (hok b)
      refine ⟨_, FS.inodes_setInode_self, ?_, attachBlock_iMode d b, fun hf => hf.attach b, ?_⟩
      · unfold attachBlock
        split <;> rfl
      · exact .inl (sameCells_of hsame (.of_cache rfl))
  | @grown b full free read =>
      refine ⟨_, FS.inodes_setInode_self, ?_, attachBlock_iMode d b, ?_, ?_⟩
      · unfold Inode.grow attachBlock
        split <;> rfl
      · intro hf
        exact ⟨(hf.attach b).low, (hf.attach b).lt_count⟩
      · by_cases hb : b = 0
        · refine .inl (attach_sameCells h hd free ?_ name ino)
          rw [hb]
          exact attachBlock_zero d
        · cases hz : zeroSlot d with
          | none =>
              refine .inl (attach_sameCells h hd free ?_ name ino)
              rw [attachBlock_none hz]
          | some i => exact .inr ⟨rfl, _, grow_cell_filled h hd free hz hb name ino⟩

/-- Records are read from the buffers. -/
theorem recordAt_of_cache (h : t.cache = s.cache) (nd : Inode) (k : Nat) :
    t.recordAt nd k = s.recordAt nd k := by
  unfold FS.recordAt FS.slotBlock FS.block
  rw [h]

theorem CellFilled.congr {s' t' : FS} {c : Nat} {x : Option (List Byte × Nat)}
    (h : CellFilled s nd t nd' c x) (hs : ∀ k, k < 24 → s'.recordAt nd k = s.recordAt nd k)
    (ht : t'.cache = t.cache) : CellFilled s' nd t' nd' c x := by
  refine ⟨h.bound, ?_, ?_, ?_⟩
  · rw [hs c h.bound, h.empty]
  · rw [recordAt_of_cache ht, h.new]
  · intro k hk hne
    rw [recordAt_of_cache ht, hs k hk, h.other k hk hne]

theorem EntryAdded.congr {s' t' : FS} (h : EntryAdded s nd t nd' name ino r)
    (hs : ∀ k, k < 24 → s'.recordAt nd k = s.recordAt nd k) (ht : t'.cache = t.cache) :
    EntryAdded s' nd t' nd' name ino r := by
  refine ⟨h.iIno, h.iMode, h.front, ?_⟩
  rcases h.cells with hsame | ⟨hr, c, hc⟩
  · refine .inl fun k hk => ?_
    rw [recordAt_of_cache ht, hs k hk, hsame k hk]
  · exact .inr ⟨hr, c, hc.congr hs ht⟩

/-- Clearing a record of an attached block. -/
theorem FS.OwnedOnce.cell_cleared (h : s.OwnedOnce) (hd : s.inodes dir = some d) (hi : i < 8)
    (hp : d.blockPointers i ≠ 0) (hj : j < 3) :
    (s.clearRecord d i j).recordAt d (3 * i + j) = none ∧
      ∀ k, k < 24 → k ≠ 3 * i + j → (s.clearRecord d i j).recordAt d k = s.recordAt d k := by
  constructor
  · rw [recordAt_eq hp hj, FS.clearRecord, slotBlock_writeBlock_self, DirRecord.iIno_clear_self]
    rfl
  · intro k hk hne
    refine h.recordAt_write hd hi hp (fun l hl hlj => ?_) hk hne
    exact ⟨DirRecord.iIno_clear_ne (Ne.symm hlj), DirRecord.name_clear_ne (Ne.symm hlj)⟩

/-! ### The records of a new directory -/

/-- The records of a directory's first block: `.` and `..`. -/
theorem dotBlock_record {v : Bytes} {ino parent : Nat} {n : List Byte} {w : Nat}
    (hp : nd.blockPointers 0 ≠ 0) (hblock : t.slotBlock nd 0 = dotBlock v ino parent)
    (hj : j < 3) (h : t.recordAt nd j = some (n, w)) :
    (j = 0 ∧ n = dotBytes) ∨ (j = 1 ∧ n = dotdotBytes) := by
  have hrec : t.recordAt nd (3 * 0 + j) = some (n, w) := by rw [Nat.mul_zero, Nat.zero_add, h]
  rw [recordAt_eq hp hj, hblock] at hrec
  split at hrec
  · rename_i hino
    have hname := congrArg Prod.fst (Option.some.inj hrec)
    rw [dotBlock] at hname hino
    rcases (by omega : j = 0 ∨ j = 1 ∨ j = 2) with rfl | rfl | rfl
    · rw [DirRecord.name_putDot_ne (by omega), DirRecord.name_putDot_self _ _ _ (by decide)
        (by decide)] at hname
      exact .inl ⟨rfl, hname.symm⟩
    · rw [DirRecord.name_putDot_self _ _ _ (by decide) (by decide)] at hname
      exact .inr ⟨rfl, hname.symm⟩
    · rw [DirRecord.iIno_putDot_ne (by omega), DirRecord.iIno_putDot_ne (by omega)] at hino
      exact absurd (DirRecord.iIno_zero (by omega)) hino
  · cases hrec

theorem newDir_blocks (ans : Answers) (d : Inode) (mode ino b : Nat) :
    (Inode.newDir ans d mode ino b).blockCount = 1 ∧
      (Inode.newDir ans d mode ino b).blockPointers = Function.update (fun _ => 0) 0 (b : Int) := by
  obtain ⟨_, hptr, _⟩ := initOwner_fields { iNlink := 1, iIno := ino } d (ans .currentFsuid)
    (ans .currentFsgid) (sIfdir ||| (mode &&& 0o777))
  refine ⟨rfl, ?_⟩
  unfold Inode.newDir Inode.setTimes
  dsimp only
  rw [hptr]

theorem newDir_pointer (ans : Answers) (d : Inode) (mode ino b : Nat) :
    (Inode.newDir ans d mode ino b).blockPointers 0 = b := by
  rw [(newDir_blocks ans d mode ino b).2]
  exact Function.update_self _ _ _

theorem newDir_slot_zero {mode m : Nat} (hi : (Inode.newDir ans d mode m b).blockPointers i ≠ 0) :
    i = 0 := by
  by_contra hne
  rw [(newDir_blocks ans d mode m b).2, Function.update_of_ne hne] at hi
  exact hi rfl

/-- A record of a new directory is one of the two in slot 0. -/
theorem newDir_record {mode m parent k w : Nat} {n : List Byte}
    (hblock : (b : Int) ≠ 0 → t.slotBlock (Inode.newDir ans d mode m b) 0 = dotBlock v m parent)
    (hk : t.recordAt (Inode.newDir ans d mode m b) k = some (n, w)) :
    (k = 0 ∧ n = dotBytes) ∨ (k = 1 ∧ n = dotdotBytes) := by
  have hp : (Inode.newDir ans d mode m b).blockPointers (k / 3) ≠ 0 := by
    intro hz
    rw [FS.recordAt, if_neg fun hp => hp.1 hz] at hk
    cases hk
  have hk0 := newDir_slot_zero hp
  rw [hk0] at hp
  refine dotBlock_record hp (hblock ?_) (by omega) hk
  rwa [← newDir_pointer ans d mode m b]

/-- Adding the entry leaves the new directory's block as `naive_mkdir` wrote it. -/
theorem AddEntry.newDir_block {mode m : Nat} (hs : s.Ready) (h : s.OwnedOnce)
    (hd : s.inodes dir = some d) (block : s.NextFree b)
    (he : AddEntry ans (s.dirMade ans d mode m b) dir d name ino r t) (hb : (b : Int) ≠ 0) :
    t.slotBlock (Inode.newDir ans d mode m b) 0 = dotBlock (s.block b) m d.iIno := by
  have hmade : (s.dirMade ans d mode m b).inodes s.nextInode
      = some (Inode.newDir ans d mode m b) := FS.inodes_withNew_self
  have hself := newDir_pointer ans d mode m b
  have hunt := he.untouched (dirMade_owned h block) hmade (hs.inodes_dirMade hd)
    (Ne.symm (hs.ne_next hd))
  refine (hunt 0 (by omega) (by rw [hself]; exact hb)).trans ?_
  rw [FS.slotBlock, hself]
  exact FS.block_writeBlock_self (s.markBlock b) _ _

end Cells

end NaiveFS
