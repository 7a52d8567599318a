import Mathlib.Data.List.Find
import NaiveFS.BlockMap
import NaiveFS.Lib.Follow

/-!
# A state beside one with fewer inodes in memory

`s.Beside F s'`: the two states are the same but for the inodes that only `s` has in memory, for
the addresses of the others, and for the inode table. Code that works on inodes that both have in
memory runs `Alongside` itself in the two.
-/

namespace NaiveFS

open Bytes Prog

/-! ## Inodes that differ in their times -/

/-- The two inodes differ in their times and flags at most. -/
structure Inode.Like (nd nd' : Inode) : Prop where
  iIno : nd'.iIno = nd.iIno
  iMode : nd'.iMode = nd.iMode
  iUid : nd'.iUid = nd.iUid
  iGid : nd'.iGid = nd.iGid
  iSize : nd'.iSize = nd.iSize
  iNlink : nd'.iNlink = nd.iNlink
  blockCount : nd'.blockCount = nd.blockCount
  blockPointers : ∀ i, i < 8 → nd'.blockPointers i = nd.blockPointers i

namespace Inode.Like

variable {nd nd' nd'' : Inode}

theorem refl (nd : Inode) : nd.Like nd := ⟨rfl, rfl, rfl, rfl, rfl, rfl, rfl, fun _ _ => rfl⟩

theorem trans (h : nd.Like nd') (h' : nd'.Like nd'') : nd.Like nd'' :=
  ⟨h'.iIno.trans h.iIno, h'.iMode.trans h.iMode, h'.iUid.trans h.iUid, h'.iGid.trans h.iGid,
    h'.iSize.trans h.iSize, h'.iNlink.trans h.iNlink, h'.blockCount.trans h.blockCount,
    fun i hi => (h'.blockPointers i hi).trans (h.blockPointers i hi)⟩

theorem symm (h : nd.Like nd') : nd'.Like nd :=
  ⟨h.iIno.symm, h.iMode.symm, h.iUid.symm, h.iGid.symm, h.iSize.symm, h.iNlink.symm,
    h.blockCount.symm, fun i hi => (h.blockPointers i hi).symm⟩

theorem isDir (h : nd.Like nd') : nd'.isDir = nd.isDir := by
  rw [Inode.isDir, h.iMode, Inode.isDir]

/-- The code reads the same pointers in both. -/
theorem pointer (h : nd.Like nd') (i : Int) : pointer nd' i = pointer nd i := by
  unfold NaiveFS.pointer naiveBlockPerFile
  split
  · rfl
  · rw [h.blockPointers i.toNat (by omega)]

theorem slot (h : nd.Like nd') {i : Nat} (hi : nd.Slot i) : nd'.Slot i :=
  ⟨by rw [h.blockCount]; exact hi.count, hi.bound,
    by rw [h.blockPointers i hi.bound]; exact hi.attached⟩

theorem setPointer (h : nd.Like nd') (i : Nat) (b : Int) :
    (nd.setPointer i b).Like (nd'.setPointer i b) := by
  refine ⟨h.iIno, h.iMode, h.iUid, h.iGid, h.iSize, h.iNlink, h.blockCount, fun k hk => ?_⟩
  show Function.update nd'.blockPointers i b k = Function.update nd.blockPointers i b k
  by_cases hki : k = i
  · rw [hki, Function.update_self, Function.update_self]
  · rw [Function.update_of_ne hki, Function.update_of_ne hki, h.blockPointers k hk]

/-- A slot of both assigned to, and the same block count given to both. -/
theorem push (h : nd.Like nd') (i : Nat) (b n : Int) :
    Inode.Like { nd.setPointer i b with blockCount := n }
      { nd'.setPointer i b with blockCount := n } :=
  ⟨h.iIno, h.iMode, h.iUid, h.iGid, h.iSize, h.iNlink, rfl, (h.setPointer i b).blockPointers⟩

theorem zeroSlot (h : nd.Like nd') : zeroSlot nd' = zeroSlot nd := by
  unfold NaiveFS.zeroSlot
  refine List.find?_congr fun i hi => ?_
  rw [h.blockPointers i (List.mem_range.mp hi)]

theorem attachBlock (h : nd.Like nd') (b : Int) :
    (attachBlock nd b).Like (attachBlock nd' b) := by
  unfold NaiveFS.attachBlock
  rw [h.zeroSlot]
  cases NaiveFS.zeroSlot nd with
  | none => exact h
  | some i =>
      show Inode.Like _ { nd'.setPointer i b with blockCount := nd'.blockCount + 1 }
      rw [h.blockCount]
      exact h.push i b _

theorem initOwner {d d' : Inode} (h : nd.Like nd') (hd : d.Like d') (uid gid mode : Nat) :
    (nd.initOwner d uid gid mode).Like (nd'.initOwner d' uid gid mode) := by
  unfold Inode.initOwner
  rw [hd.iMode, hd.iGid]
  split
  · exact ⟨h.iIno, rfl, rfl, rfl, h.iSize, h.iNlink, h.blockCount, h.blockPointers⟩
  · exact ⟨h.iIno, rfl, rfl, rfl, h.iSize, h.iNlink, h.blockCount, h.blockPointers⟩

end Inode.Like

/-! ## The inode table and the other blocks -/

/-- The device has an inode of this number. -/
def Disk.HasIno (disk : Nat → Bytes) (v : Nat) : Prop :=
  1 ≤ v ∧ (v : Int) ≤ toInt32 (SuperBlock.inodeTotal (disk naiveSuperBlockBlock))

/-- The superblock and the blocks of the inode table. -/
def Disk.Table (disk : Nat → Bytes) (c : Nat) : Prop :=
  c = naiveSuperBlockBlock ∨ ∃ v, HasIno disk v ∧
    c = toU64 (inodeTableBlock (disk naiveSuperBlockBlock) v)

/-- No pointer leads into the inode table. -/
def Inode.OnData (disk : Nat → Bytes) (nd : Inode) : Prop :=
  ∀ i, i < 8 → ¬ Disk.Table disk (toU64 (nd.blockPointers i))

namespace Inode.OnData

variable {nd : Inode} {disk : Nat → Bytes} {b : Int}

theorem setPointer (h : nd.OnData disk) (hb : ¬ Disk.Table disk (toU64 b)) (i : Nat) :
    (nd.setPointer i b).OnData disk := by
  intro k hk
  show ¬ Disk.Table disk (toU64 (Function.update nd.blockPointers i b k))
  by_cases hki : k = i
  · rwa [hki, Function.update_self]
  · rw [Function.update_of_ne hki]
    exact h k hk

theorem attachBlock (h : nd.OnData disk) (hb : ¬ Disk.Table disk (toU64 b)) :
    (attachBlock nd b).OnData disk := by
  unfold NaiveFS.attachBlock
  split
  · exact h.setPointer hb _
  · exact h

end Inode.OnData

/-! ## States beside each other -/

/-- What stays as it is while a call runs in both states. -/
structure Aside where
  /-- What the device held when it was mounted. -/
  disk : Nat → Bytes
  /-- Where the second state has the inodes that both have in memory. -/
  place : Nat → Option Nat
  /-- The inodes that only the first state has in memory. -/
  out : Nat → Option Inode
  /-- What the second state has in the inode table. -/
  table : Nat → Bytes
  /-- Where the next inode goes in either state. -/
  next : Nat
  next' : Nat

/-- The data area has no block of the inode table that is free on the device, both states have
the superblock of the device, and inodes have places of their own below the next one. -/
structure Aside.Ok (F : Aside) : Prop where
  guarded : Disk.Guarded (Disk.Table F.disk) F.disk
  zero : ¬ Disk.Table F.disk 0
  super : F.table naiveSuperBlockBlock = F.disk naiveSuperBlockBlock
  inj : ∀ id k id', F.place id = some id' → F.place k = some id' → id = k
  below : ∀ id id', F.place id = some id' → id < F.next ∧ id' < F.next'
  fresh : ∀ id, F.next ≤ id → F.out id = none

/-- The same blocks and bitmaps but for the inode table, which `s` has as it was mounted. -/
structure FS.SameData (F : Aside) (s s' : FS) : Prop where
  sbi : s'.sbi = s.sbi
  bitmapBlocks : s.sbi.blockBitmapBlocks = 1
  home : ∀ c, Disk.Table F.disk c → s.cache c = F.disk c
  table : ∀ c, Disk.Table F.disk c → s'.cache c = F.table c
  data : ∀ c, ¬ Disk.Table F.disk c → s'.cache c = s.cache c
  marked : ∀ b, b < 4096 → Disk.Table F.disk b → (F.disk 2).bit b = true → s.marked b = true

/-- The same inodes but for those that are out. -/
structure FS.SameInodes (F : Aside) (s s' : FS) : Prop where
  next : s.nextInode = F.next
  next' : s'.nextInode = F.next'
  pointers : ∀ id nd, s.inodes id = some nd → nd.OnData F.disk
  inodes : ∀ id id', F.place id = some id' → Option.Rel Inode.Like (s.inodes id) (s'.inodes id')
  out : ∀ id, F.place id = none → s.inodes id = F.out id
  only : ∀ id', s'.inodes id' ≠ none → ∃ id, F.place id = some id'

structure FS.Beside (F : Aside) (s s' : FS) : Prop extends s.SameData F s', s.SameInodes F s' where
  dcache : ∀ dir dir' name, F.place dir = some dir' →
    s'.dcache dir' name = (s.dcache dir name).bind F.place
  bare : ∀ dir name, F.place dir = none → s.dcache dir name = none
  named : ∀ dir name id, s.dcache dir name = some id → id < F.next
  named' : ∀ dir name, F.next' ≤ dir → s'.dcache dir name = none

section Data

variable {F : Aside} {s s' t t' : FS} {b : Int}

namespace FS.SameData

theorem superBlock (hF : F.Ok) (h : s.SameData F s') :
    s'.block naiveSuperBlockBlock = s.block naiveSuperBlockBlock := by
  have htable : s'.cache naiveSuperBlockBlock = F.table naiveSuperBlockBlock :=
    h.table _ hF.guarded.super
  exact (htable.trans hF.super).trans (h.home _ hF.guarded.super).symm

theorem block (h : s.SameData F s') (hb : ¬ Disk.Table F.disk (toU64 b)) :
    s'.block b = s.block b := h.data _ hb

/-- The allocator takes no block of the inode table. -/
theorem notTable (hF : F.Ok) (h : s.SameData F s') {c : Nat} (free : s.NextFree c) :
    ¬ Disk.Table F.disk (toU64 c) := by
  rw [toU64_natCast (by have := free.bitmap; omega)]
  intro hc
  have hsb : s.block naiveSuperBlockBlock = F.disk naiveSuperBlockBlock := h.home _ hF.guarded.super
  have hstart : Disk.dataStart F.disk ≤ c := by
    have := free.start
    rwa [FS.dataStart, hsb] at this
  have htotal := free.total
  rw [FS.totalBlocks, hsb, tdiv_eight] at htotal
  have hlt : (c : Int) < Disk.totalBlocks F.disk := by
    show (c : Int) < toInt32 (SuperBlock.blockTotal (F.disk naiveSuperBlockBlock))
    split at htotal <;> omega
  have := h.marked c free.bitmap hc (hF.guarded.reserved c hc hstart hlt)
  rw [free.clear] at this
  cases this

theorem congr (h : s.SameData F s') (ht : t.sbi = s.sbi ∧ t.cache = s.cache)
    (ht' : t'.sbi = s'.sbi ∧ t'.cache = s'.cache) : t.SameData F t' := by
  obtain ⟨h1, h2⟩ := ht
  obtain ⟨h1', h2'⟩ := ht'
  refine ⟨by rw [h1, h1', h.sbi], by rw [h1, h.bitmapBlocks], by rw [h2]; exact h.home,
    by rw [h2']; exact h.table, by rw [h2, h2']; exact h.data, fun k hk hc hbit => ?_⟩
  rw [FS.marked, h1]
  exact h.marked k hk hc hbit

/-- The same change to `sbi` in both. -/
theorem setSbi (h : s.SameData F s') {v : SbInfo} (hblocks : v.blockBitmapBlocks = 1)
    (hmarked : ∀ b, b < 4096 → Disk.Table F.disk b → s.marked b = true →
      v.blockBitmap.bit b = true) : (s.setSbi v).SameData F (s'.setSbi v) :=
  ⟨rfl, hblocks, h.home, h.table, h.data,
    fun b hb hc hbit => hmarked b hb hc (h.marked b hb hc hbit)⟩

/-- The same bytes stored in a block outside the inode table. -/
theorem store (h : s.SameData F s') {c : Nat} (hc : ¬ Disk.Table F.disk c) (v : Bytes) :
    FS.SameData F { s with cache := Function.update s.cache c v }
      { s' with cache := Function.update s'.cache c v } := by
  have hne {k : Nat} (hk : Disk.Table F.disk k) : k ≠ c := fun heq => hc (heq ▸ hk)
  refine ⟨h.sbi, h.bitmapBlocks, fun k hk => ?_, fun k hk => ?_, fun k hk => ?_, h.marked⟩
  · exact (Function.update_of_ne (hne hk) _ _).trans (h.home k hk)
  · exact (Function.update_of_ne (hne hk) _ _).trans (h.table k hk)
  · show Function.update s'.cache c v k = Function.update s.cache c v k
    by_cases hkc : k = c
    · rw [hkc, Function.update_self, Function.update_self]
    · rw [Function.update_of_ne hkc, Function.update_of_ne hkc, h.data k hk]

end FS.SameData

end Data

section Inodes

variable {F : Aside} {s s' t t' : FS} {id id' : Nat} {nd nd' : Inode}

theorem Aside.Ok.place_ne (hF : F.Ok) (hid : F.place id = some id') {k k' : Nat} (hk : k ≠ id)
    (hplace : F.place k = some k') : k' ≠ id' :=
  fun heq => hk (hF.inj k id id' (heq ▸ hplace) hid)

theorem Aside.ne_of_out (hid : F.place id = some id') {k : Nat} (hk : F.place k = none) :
    k ≠ id := by
  rintro rfl
  rw [hid] at hk
  cases hk

namespace FS.SameInodes

theorem congr (h : s.SameInodes F s') (ht : t.inodes = s.inodes ∧ t.nextInode = s.nextInode)
    (ht' : t'.inodes = s'.inodes ∧ t'.nextInode = s'.nextInode) : t.SameInodes F t' := by
  obtain ⟨h1, h2⟩ := ht
  obtain ⟨h1', h2'⟩ := ht'
  exact ⟨h2.trans h.next, h2'.trans h.next', by rw [h1]; exact h.pointers,
    by rw [h1, h1']; exact h.inodes, by rw [h1]; exact h.out, by rw [h1']; exact h.only⟩

/-- An inode both have in memory, assigned to in both. -/
theorem setInode (hF : F.Ok) (h : s.SameInodes F s') (hid : F.place id = some id')
    (hlike : nd.Like nd') (hdata : nd.OnData F.disk) :
    (s.setInode id nd).SameInodes F (s'.setInode id' nd') := by
  refine ⟨h.next, h.next', fun k e he => ?_, fun k k' hk => ?_, fun k hk => ?_, fun k' hk' => ?_⟩
  · by_cases hki : k = id
    · subst hki
      obtain rfl := Option.some.inj (FS.inodes_setInode_self.symm.trans he)
      exact hdata
    · rw [FS.inodes_setInode_ne hki] at he
      exact h.pointers k e he
  · by_cases hki : k = id
    · subst hki
      obtain rfl := Option.some.inj (hid.symm.trans hk)
      rw [FS.inodes_setInode_self, FS.inodes_setInode_self]
      exact .some hlike
    · rw [FS.inodes_setInode_ne hki, FS.inodes_setInode_ne (hF.place_ne hid hki hk)]
      exact h.inodes k k' hk
  · rw [FS.inodes_setInode_ne (Aside.ne_of_out hid hk), h.out k hk]
  · by_cases hki : k' = id'
    · exact ⟨id, hki ▸ hid⟩
    · rw [FS.inodes_setInode_ne hki] at hk'
      exact h.only k' hk'

theorem dropInode (hF : F.Ok) (h : s.SameInodes F s') (hid : F.place id = some id') :
    (s.dropInode id).SameInodes F (s'.dropInode id') := by
  refine ⟨h.next, h.next', fun k e he => ?_, fun k k' hk => ?_, fun k hk => ?_, fun k' hk' => ?_⟩
  · by_cases hki : k = id
    · subst hki
      cases FS.inodes_dropInode_self.symm.trans he
    · rw [FS.inodes_dropInode_ne hki] at he
      exact h.pointers k e he
  · by_cases hki : k = id
    · subst hki
      obtain rfl := Option.some.inj (hid.symm.trans hk)
      rw [FS.inodes_dropInode_self, FS.inodes_dropInode_self]
      exact .none
    · rw [FS.inodes_dropInode_ne hki, FS.inodes_dropInode_ne (hF.place_ne hid hki hk)]
      exact h.inodes k k' hk
  · rw [FS.inodes_dropInode_ne (Aside.ne_of_out hid hk), h.out k hk]
  · by_cases hki : k' = id'
    · exact ⟨id, hki ▸ hid⟩
    · rw [FS.inodes_dropInode_ne hki] at hk'
      exact h.only k' hk'

/-- An inode in memory has its counterpart at its place. -/
theorem node (h : s.SameInodes F s') (hid : F.place id = some id') (hnd : s.inodes id = some nd) :
    ∃ nd', s'.inodes id' = some nd' ∧ nd.Like nd' := by
  have hrel := h.inodes id id' hid
  rw [hnd] at hrel
  cases hnd' : s'.inodes id' with
  | none =>
      rw [hnd'] at hrel
      cases hrel
  | some nd' =>
      rw [hnd'] at hrel
      cases hrel with
      | some hlike => exact ⟨nd', rfl, hlike⟩

end FS.SameInodes

end Inodes

section Beside

variable {F : Aside} {s s' t t' : FS} {id id' dir dir' : Nat} {nd nd' : Inode} {b : Int}

namespace FS.Beside

theorem same (h : s.Beside F s')
    (ht : t.sbi = s.sbi ∧ t.cache = s.cache ∧ t.inodes = s.inodes ∧ t.nextInode = s.nextInode ∧
      t.dcache = s.dcache)
    (ht' : t'.sbi = s'.sbi ∧ t'.cache = s'.cache ∧ t'.inodes = s'.inodes ∧
      t'.nextInode = s'.nextInode ∧ t'.dcache = s'.dcache) : t.Beside F t' := by
  obtain ⟨h1, h2, h3, h4, h5⟩ := ht
  obtain ⟨h1', h2', h3', h4', h5'⟩ := ht'
  exact ⟨h.toSameData.congr ⟨h1, h2⟩ ⟨h1', h2'⟩, h.toSameInodes.congr ⟨h3, h4⟩ ⟨h3', h4'⟩,
    by rw [h5, h5']; exact h.dcache, by rw [h5]; exact h.bare, by rw [h5]; exact h.named, by rw [h5']; exact h.named'⟩

theorem addRef (h : s.Beside F s') (b k : Int) : (s.addRef b k).Beside F (s'.addRef b k) :=
  h.same ⟨rfl, rfl, rfl, rfl, rfl⟩ ⟨rfl, rfl, rfl, rfl, rfl⟩

theorem setSbi (h : s.Beside F s') {v : SbInfo} (hblocks : v.blockBitmapBlocks = 1)
    (hmarked : ∀ b, b < 4096 → Disk.Table F.disk b → s.marked b = true →
      v.blockBitmap.bit b = true) : (s.setSbi v).Beside F (s'.setSbi v) :=
  ⟨h.toSameData.setSbi hblocks hmarked, h.toSameInodes.congr ⟨rfl, rfl⟩ ⟨rfl, rfl⟩, h.dcache,
    h.bare, h.named, h.named'⟩

theorem store (h : s.Beside F s') {c : Nat} (hc : ¬ Disk.Table F.disk c) (v : Bytes) :
    FS.Beside F { s with cache := Function.update s.cache c v }
      { s' with cache := Function.update s'.cache c v } :=
  ⟨h.toSameData.store hc v, h.toSameInodes.congr ⟨rfl, rfl⟩ ⟨rfl, rfl⟩, h.dcache, h.bare,
    h.named, h.named'⟩

theorem writeBlock (h : s.Beside F s') (hb : ¬ Disk.Table F.disk (toU64 b)) (v : Bytes) :
    (s.writeBlock b v).Beside F (s'.writeBlock b v) :=
  (h.store hb v).same ⟨rfl, rfl, rfl, rfl, rfl⟩ ⟨rfl, rfl, rfl, rfl, rfl⟩

theorem setInode (hF : F.Ok) (h : s.Beside F s') (hid : F.place id = some id')
    (hlike : nd.Like nd') (hdata : nd.OnData F.disk) :
    (s.setInode id nd).Beside F (s'.setInode id' nd') :=
  ⟨h.toSameData.congr ⟨rfl, rfl⟩ ⟨rfl, rfl⟩, h.toSameInodes.setInode hF hid hlike hdata, h.dcache,
    h.bare, h.named, h.named'⟩

theorem dropInode (hF : F.Ok) (h : s.Beside F s') (hid : F.place id = some id') :
    (s.dropInode id).Beside F (s'.dropInode id') :=
  ⟨h.toSameData.congr ⟨rfl, rfl⟩ ⟨rfl, rfl⟩, h.toSameInodes.dropInode hF hid, h.dcache, h.bare,
    h.named, h.named'⟩

/-- A dentry of a directory both have in memory is given a target, or none. -/
theorem setDentry (hF : F.Ok) (h : s.Beside F s') (hdir : F.place dir = some dir') (name : Name)
    (x : Option Nat) (hx : ∀ id, x = some id → id < F.next) :
    (s.setDentry dir name x).Beside F (s'.setDentry dir' name (x.bind F.place)) := by
  have hbelow := hF.below dir dir' hdir
  refine ⟨h.toSameData.congr ⟨rfl, rfl⟩ ⟨rfl, rfl⟩, h.toSameInodes.congr ⟨rfl, rfl⟩ ⟨rfl, rfl⟩,
    fun k k' n hk => ?_, fun k n hk => ?_, fun k n id hid => ?_, fun k n hk => ?_⟩
  · rw [FS.dcache_setDentry, FS.dcache_setDentry]
    by_cases hkd : k = dir
    · subst hkd
      obtain rfl := Option.some.inj (hdir.symm.trans hk)
      by_cases hn : n = name
      · rw [if_pos ⟨rfl, hn⟩, if_pos ⟨rfl, hn⟩]
      · rw [if_neg fun hx => hn hx.2, if_neg fun hx => hn hx.2, h.dcache k dir' n hk]
    · rw [if_neg fun hx => hF.place_ne hdir hkd hk hx.1, if_neg fun hx => hkd hx.1,
        h.dcache k k' n hk]
  · rw [FS.dcache_setDentry, if_neg fun heq => Aside.ne_of_out hdir hk heq.1, h.bare k n hk]
  · rw [FS.dcache_setDentry] at hid
    split at hid
    · exact hx id hid
    · exact h.named k n id hid
  · rw [FS.dcache_setDentry, if_neg fun heq => by omega, h.named' k n hk]

/-- Both states are ones a run can be in. -/
theorem ready (hF : F.Ok) (h : s.Beside F s') : s.Ready ∧ s'.Ready := by
  refine ⟨⟨h.bitmapBlocks, fun id hid => ?_⟩, ⟨?_, fun id' hid' => ?_⟩⟩
  · have hnext := h.next
    have hplace : F.place id = none := by
      by_contra hne
      obtain ⟨id', hid'⟩ := Option.ne_none_iff_exists'.mp hne
      have := (hF.below id id' hid').1
      omega
    rw [h.out id hplace, hF.fresh id (by omega)]
  · rw [h.sbi, h.bitmapBlocks]
  · have hnext := h.next'
    by_contra hne
    obtain ⟨id, hid⟩ := h.only id' hne
    have := (hF.below id id' hid).2
    omega

end FS.Beside

end Beside

/-! ## A place for another inode -/

/-- The inode at `id` has its place at the next address of the second state; the next address of
the first one is `n`. -/
def Aside.give (F : Aside) (id n : Nat) : Aside :=
  { F with place := Function.update F.place id (some F.next'), next := n, next' := F.next' + 1 }

section Give

variable {F : Aside} {s s' t : FS} {id n dir dir' : Nat} {nd nd' : Inode} {name : Name}

theorem Aside.place_give_self : (F.give id n).place id = some F.next' := Function.update_self ..

theorem Aside.place_give_ne {k : Nat} (hk : k ≠ id) : (F.give id n).place k = F.place k :=
  Function.update_of_ne hk ..

theorem Aside.place_of_give {k : Nat} (hk : (F.give id n).place k = none) :
    k ≠ id ∧ F.place k = none := by
  have hne : k ≠ id := by
    rintro rfl
    cases Aside.place_give_self.symm.trans hk
  exact ⟨hne, (Aside.place_give_ne hne).symm.trans hk⟩

/-- The places of the other inodes stay. -/
theorem Aside.bind_give {x : Option Nat} (hx : x ≠ some id) :
    x.bind (F.give id n).place = x.bind F.place := by
  cases x with
  | none => rfl
  | some k => exact Aside.place_give_ne fun heq => hx (heq ▸ rfl)

theorem Aside.Ok.give (hF : F.Ok) (hid : id < n) (hn : F.next ≤ n) : (F.give id n).Ok := by
  have hne {k x : Nat} (hk : F.place k = some x) : x ≠ F.next' := by
    have := (hF.below k x hk).2
    omega
  refine ⟨hF.guarded, hF.zero, hF.super, fun a b x ha hb => ?_, fun a x ha => ?_,
    fun k hk => hF.fresh k (Nat.le_trans hn hk)⟩
  · by_cases hai : a = id <;> by_cases hbi : b = id
    · rw [hai, hbi]
    · subst hai
      rw [Aside.place_give_self] at ha
      rw [Aside.place_give_ne hbi] at hb
      exact absurd (Option.some.inj ha).symm (hne hb)
    · subst hbi
      rw [Aside.place_give_self] at hb
      rw [Aside.place_give_ne hai] at ha
      exact absurd (Option.some.inj hb).symm (hne ha)
    · rw [Aside.place_give_ne hai] at ha
      rw [Aside.place_give_ne hbi] at hb
      exact hF.inj a b x ha hb
  · by_cases hai : a = id
    · subst hai
      obtain rfl := Option.some.inj (Aside.place_give_self.symm.trans ha)
      exact ⟨hid, Nat.lt_succ_self _⟩
    · rw [Aside.place_give_ne hai] at ha
      obtain ⟨h1, h2⟩ := hF.below a x ha
      exact ⟨Nat.lt_of_lt_of_le h1 hn, Nat.lt_succ_of_lt h2⟩

/-- The second state takes an inode into memory that the first one has at `id`. -/
theorem FS.SameInodes.give (hF : F.Ok) (h : s.SameInodes F s') (hid : F.place id = none)
    (hnd : t.inodes id = some nd) (hrest : ∀ k, k ≠ id → t.inodes k = s.inodes k)
    (hnext : t.nextInode = n) (hlike : nd.Like nd') (hdata : nd.OnData F.disk) :
    t.SameInodes (F.give id n) (s'.withNew nd') := by
  have hnext' := h.next'
  refine ⟨hnext, congrArg (· + 1) hnext', fun k e he => ?_, fun k x hk => ?_, fun k hk => ?_,
    fun x hx => ?_⟩
  · by_cases hki : k = id
    · subst hki
      obtain rfl := Option.some.inj (hnd.symm.trans he)
      exact hdata
    · rw [hrest k hki] at he
      exact h.pointers k e he
  · by_cases hki : k = id
    · subst hki
      obtain rfl := Option.some.inj (Aside.place_give_self.symm.trans hk)
      rw [hnd, ← hnext', FS.inodes_withNew_self]
      exact .some hlike
    · rw [Aside.place_give_ne hki] at hk
      have hlt := (hF.below k x hk).2
      rw [hrest k hki, FS.inodes_withNew_ne (by omega)]
      exact h.inodes k x hk
  · obtain ⟨hki, hk⟩ := Aside.place_of_give hk
    rw [hrest k hki, h.out k hk]
    rfl
  · by_cases hxn : x = s'.nextInode
    · exact ⟨id, by rw [Aside.place_give_self, hxn, hnext']⟩
    · rw [FS.inodes_withNew_ne hxn] at hx
      obtain ⟨k, hk⟩ := h.only x hx
      refine ⟨k, (Aside.place_give_ne ?_).trans hk⟩
      rintro rfl
      rw [hid] at hk
      cases hk

theorem FS.SameData.give (h : s.SameData F s') (id n : Nat) : s.SameData (F.give id n) s' :=
  ⟨h.sbi, h.bitmapBlocks, h.home, h.table, h.data, h.marked⟩

/-- An inode made in both. -/
theorem FS.Beside.withNew (hF : F.Ok) (h : s.Beside F s') (hlike : nd.Like nd')
    (hdata : nd.OnData F.disk) :
    (s.withNew nd).Beside (F.give F.next (F.next + 1)) (s'.withNew nd') := by
  have hplace : F.place F.next = none := by
    by_contra hne
    obtain ⟨x, hx⟩ := Option.ne_none_iff_exists'.mp hne
    exact absurd (hF.below _ x hx).1 (Nat.lt_irrefl _)
  have hnext := h.next
  have hself : (s.withNew nd).inodes F.next = some nd := hnext ▸ FS.inodes_withNew_self
  refine ⟨(h.toSameData.give _ _).congr ⟨rfl, rfl⟩ ⟨rfl, rfl⟩, h.toSameInodes.give hF hplace hself
    (fun k hk => FS.inodes_withNew_ne (by omega)) (congrArg (· + 1) hnext) hlike hdata,
    fun k x n hk => ?_, fun k n hk => ?_, fun k n i hi => Nat.lt_succ_of_lt (h.named k n i hi),
    fun x n hx => h.named' x n (Nat.le_of_succ_le hx)⟩
  · have hnamed : s.dcache k n ≠ some F.next := fun hi =>
      absurd (h.named k n _ hi) (Nat.lt_irrefl _)
    show s'.dcache x n = (s.dcache k n).bind _
    rw [Aside.bind_give hnamed]
    by_cases hkn : k = F.next
    · subst hkn
      obtain rfl := Option.some.inj (Aside.place_give_self.symm.trans hk)
      rw [h.bare _ n hplace, h.named' _ n (Nat.le_refl _)]
      rfl
    · rw [Aside.place_give_ne hkn] at hk
      exact h.dcache k x n hk
  · exact h.bare k n (Aside.place_of_give hk).2

/-- The second state takes an inode into memory again, under the one name it has. -/
theorem FS.Beside.load (hF : F.Ok) (h : s.Beside F s') (hid : F.place id = none)
    (hnd : s.inodes id = some nd) (hlike : nd.Like nd') (hdir : F.place dir = some dir')
    (hdentry : s.dcache dir name = some id)
    (honce : ∀ k n, s.dcache k n = some id → k = dir ∧ n = name) :
    s.Beside (F.give id F.next)
      ((s'.withNew nd').setDentry dir' name (some s'.nextInode)) := by
  have hbelow := hF.below dir dir' hdir
  have hsame := h.toSameInodes.give hF hid hnd (fun _ _ => rfl) h.next hlike
    (h.pointers id nd hnd)
  refine ⟨(h.toSameData.give _ _).congr ⟨rfl, rfl⟩ ⟨rfl, rfl⟩, hsame.congr ⟨rfl, rfl⟩ ⟨rfl, rfl⟩,
    fun k x n hk => ?_, fun k n hk => ?_, h.named, fun x n hx => ?_⟩
  · rw [FS.dcache_setDentry]
    show (if x = dir' ∧ n = name then _ else s'.dcache x n) = _
    by_cases hki : k = id
    · subst hki
      obtain rfl := Option.some.inj (Aside.place_give_self.symm.trans hk)
      rw [if_neg fun heq => by omega, h.named' _ n (Nat.le_refl _), h.bare k n hid]
      rfl
    rw [Aside.place_give_ne hki] at hk
    by_cases hthis : k = dir ∧ n = name
    · obtain ⟨rfl, rfl⟩ := hthis
      rw [if_pos ⟨Option.some.inj (hk.symm.trans hdir), rfl⟩, hdentry, h.next']
      exact Aside.place_give_self.symm
    · have hother : ¬ (x = dir' ∧ n = name) := fun heq =>
        hthis ⟨hF.inj k dir dir' (heq.1 ▸ hk) hdir, heq.2⟩
      rw [if_neg hother, Aside.bind_give fun hi => hthis (honce k n hi)]
      exact h.dcache k x n hk
  · exact h.bare k n (Aside.place_of_give hk).2
  · have hx' : F.next' + 1 ≤ x := hx
    rw [FS.dcache_setDentry, if_neg fun heq => by omega]
    exact h.named' x n (by omega)

end Give

end NaiveFS
