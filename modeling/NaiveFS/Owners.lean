import NaiveFS.Lib.Ownership
import NaiveFS.Run

/-!
# Who owns which block

The owners are the pairs of an inode in memory and one of its eight slots; a
slot that is not 0 holds its block. The marks are the bits of the in-memory
block bitmap.

`naive_add_entry` attaches the new block before it reads it and, when the read
fails, frees the block without detaching it. Everything else keeps ownership
exclusive, whatever reads fail.
-/

namespace NaiveFS

open Bytes Ownership

/-- The block in slot `i`, if there is one. -/
def Inode.slot (nd : Inode) (i : Nat) : Option Int :=
  if i < 8 ∧ nd.blockPointers i ≠ 0 then some (nd.blockPointers i) else none

namespace FS

/-- The block held by slot `k.2` of the inode at `k.1`. -/
def own (s : FS) (k : Nat × Nat) : Option Int := (s.inodes k.1).bind (·.slot k.2)

/-- No block is owned twice, and every owned block is marked. -/
abbrev OwnedOnce (s : FS) : Prop := Exclusive s.own s.isMarked

end FS

/-- Adding an entry on a directory that is `d` attaches a block and cannot read it. -/
structure AttachFails (ans : Answers) (s : FS) (d : Inode) (b : Nat) : Prop where
  full : FindsNone ans s d .addEntryScan isFree
  free : s.NextFree b
  pos : b ≠ 0
  slot : zeroSlot d ≠ none
  unread : ans (.sbBread .addEntryNew 0 b) = false

/-- The operation does not run into a failing read of a block just attached to
the parent. -/
def AttachReadable (s : FS) (ans : Answers) : Op → Prop
  | .create dir _ perm => ∀ d ino b, s.inodes dir = some d → s.NextIno ino →
      ans .newInode = true →
      ¬ AttachFails ans (s.fileMade ans d (sIfreg ||| (perm &&& 0o7777)) ino) d b
  | .mkdir dir _ mode => ∀ d ino c b, s.inodes dir = some d → s.NextIno ino →
      ans .newInode = true → s.NextFree c → ans (.sbBread .mkdirNew 0 c) = true →
      ¬ AttachFails ans (s.dirMade ans d mode ino c) d b
  | _ => True

/-! ## How the updates of the state change owners and marks -/

section Updates

variable {s t : FS} {id dir i b : Nat} {nd nd' d : Inode} {k : Nat × Nat} {c : Int}

theorem Inode.slot_eq_some : nd.slot i = some c ↔ i < 8 ∧ nd.blockPointers i = c ∧ c ≠ 0 := by
  unfold Inode.slot
  split
  · rename_i h
    constructor
    · intro hc
      cases hc
      exact ⟨h.1, rfl, h.2⟩
    · rintro ⟨_, rfl, _⟩
      rfl
  · rename_i h
    constructor
    · intro hc
      cases hc
    · rintro ⟨hi, rfl, hne⟩
      exact absurd ⟨hi, hne⟩ h

theorem FS.own_eq_some : s.own k = some c ↔
    ∃ nd, s.inodes k.1 = some nd ∧ nd.slot k.2 = some c := by
  unfold FS.own
  cases s.inodes k.1 <;> simp

theorem FS.own_of (h : s.inodes k.1 = some nd) : s.own k = nd.slot k.2 := by
  rw [FS.own, h]
  rfl

theorem FS.own_setInode_self : (s.setInode id nd).own (id, i) = nd.slot i :=
  FS.own_of FS.inodes_setInode_self

theorem FS.own_setInode_ne (h : k.1 ≠ id) : (s.setInode id nd).own k = s.own k := by
  unfold FS.own
  rw [FS.inodes_setInode_ne h]

theorem FS.own_dropInode (h : (s.dropInode id).own k = some c) :
    s.own k = some c ∧ k.1 ≠ id := by
  have hne : k.1 ≠ id := by
    intro hk
    obtain ⟨nd, hnd, _⟩ := FS.own_eq_some.mp h
    rw [hk, FS.inodes_dropInode_self] at hnd
    cases hnd
  refine ⟨?_, hne⟩
  unfold FS.own at *
  rwa [FS.inodes_dropInode_ne hne] at h

/-- Put an inode in place whose blocks the inode there held before. -/
theorem FS.OwnedOnce.setInode (h : s.OwnedOnce) (id : Nat)
    (hslot : ∀ i c, nd.slot i = some c → s.own (id, i) = some c) :
    (s.setInode id nd).OwnedOnce := by
  refine h.shrink fun ⟨k, i⟩ c hk => ?_
  by_cases hkid : k = id
  · subst hkid
    rw [FS.own_setInode_self] at hk
    exact ⟨hslot i c hk, h.marked _ _ (hslot i c hk)⟩
  · rw [FS.own_setInode_ne hkid] at hk
    exact ⟨hk, h.marked _ _ hk⟩

/-- Put an inode in place that has the next free block besides. -/
theorem FS.OwnedOnce.attach {j : Nat} (h : s.OwnedOnce) (id : Nat) (free : s.NextFree b)
    (hslot : ∀ i c, nd.slot i = some c → s.own (id, i) = some c ∨ (i = j ∧ c = b)) :
    ((s.markBlock b).setInode id nd).OwnedOnce := by
  refine h.grant (k := (id, j)) free.not_isMarked fun ⟨k, i⟩ c hk => ?_
  by_cases hkid : k = id
  · subst hkid
    rw [FS.own_setInode_self] at hk
    rcases hslot i c hk with hown | ⟨rfl, rfl⟩
    · exact ⟨free.isMarked (h.marked _ _ hown), .inl hown⟩
    · exact ⟨(FS.isMarked_markBlock free.bitmap).mpr (.inr rfl), .inr ⟨rfl, rfl⟩⟩
  · rw [FS.own_setInode_ne hkid] at hk
    have hown : s.own (k, i) = some c := hk
    exact ⟨free.isMarked (h.marked _ _ hown), .inl hown⟩

theorem FS.own_mapInode {f : Inode → Inode} (hf : ∀ nd i, (f nd).slot i = nd.slot i) :
    (s.mapInode id f).own k = s.own k := by
  unfold FS.mapInode
  split
  · rename_i nd hnd
    obtain ⟨k, i⟩ := k
    by_cases hk : k = id
    · subst hk
      rw [FS.own_setInode_self, hf, FS.own_of (k := (k, i)) hnd]
    · exact FS.own_setInode_ne hk
  · rfl

theorem FS.mapInode_sbi (s : FS) (id : Nat) (f : Inode → Inode) :
    (s.mapInode id f).sbi = s.sbi := by
  unfold FS.mapInode
  split <;> rfl

theorem FS.OwnedOnce.congr (h : s.OwnedOnce) (hown : ∀ k, t.own k = s.own k)
    (hsbi : t.sbi = s.sbi) : t.OwnedOnce := by
  refine h.shrink fun k c hk => ?_
  rw [hown] at hk
  obtain ⟨h0, h1, hm⟩ := h.marked k c hk
  exact ⟨hk, h0, h1, by rwa [FS.marked, hsbi]⟩

theorem FS.OwnedOnce.mapInode {f : Inode → Inode} (h : s.OwnedOnce) (id : Nat)
    (hf : ∀ nd i, (f nd).slot i = nd.slot i) : (s.mapInode id f).OwnedOnce :=
  h.congr (fun _ => FS.own_mapInode hf) (FS.mapInode_sbi s id f)

theorem FS.OwnedOnce.dropInode (h : s.OwnedOnce) (id : Nat) : (s.dropInode id).OwnedOnce :=
  h.shrink fun _ _ hk => ⟨(FS.own_dropInode hk).1, h.marked _ _ (FS.own_dropInode hk).1⟩

theorem zeroSlot_some (h : zeroSlot nd = some i) : i < 8 ∧ nd.blockPointers i = 0 := by
  unfold zeroSlot at h
  rw [List.find?_range_eq_some] at h
  exact ⟨List.mem_range.mp h.2.1, by simpa using h.1⟩

theorem attachBlock_none (h : zeroSlot nd = none) (c : Int) : attachBlock nd c = nd := by
  rw [attachBlock, h]

/-- Attaching a block fills the first zero slot. -/
theorem attachBlock_some (h : zeroSlot nd = some i) (c : Int) :
    attachBlock nd c = { nd.setPointer i c with blockCount := nd.blockCount + 1 } := by
  rw [attachBlock, h]

theorem attachBlock_slot {e : Int} (h : (attachBlock nd e).slot i = some c) :
    nd.slot i = some c ∨ (zeroSlot nd = some i ∧ c = e) := by
  cases hz : zeroSlot nd with
  | none =>
      rw [attachBlock_none hz] at h
      exact .inl h
  | some j =>
      rw [attachBlock_some hz, Inode.slot_eq_some] at h
      obtain ⟨hi, hp, hne⟩ := h
      by_cases hij : i = j
      · subst hij
        refine .inr ⟨rfl, ?_⟩
        rw [← hp]
        exact Function.update_self _ _ _
      · refine .inl (Inode.slot_eq_some.mpr ⟨hi, ?_, hne⟩)
        rw [← hp]
        exact (Function.update_of_ne hij _ _).symm

theorem slot_grow (nd : Inode) (c : Int) (i : Nat) :
    (nd.grow c).slot i = (attachBlock nd c).slot i := rfl

end Updates

/-! ## Each operation -/

section Operations

variable {ans : Answers} {s t : FS} {dir id : Nat} {d nd : Inode} {name : Name} {ino r : Int}

theorem FS.OwnedOnce.entry (h : s.OwnedOnce) (hd : s.inodes dir = some d)
    (hok : ∀ b, ¬ AttachFails ans s d b) (he : AddEntry ans s dir d name ino r t) :
    t.OwnedOnce := by
  cases he with
  | filled | unreadable | noSpace => exact h
  | newUnreadable full free unread =>
      refine h.setInode dir fun i c hi => ?_
      rcases attachBlock_slot hi with hold | ⟨hz, rfl⟩
      · exact (FS.own_of hd).trans hold
      · obtain ⟨_, _, hne⟩ := Inode.slot_eq_some.mp hi
        exact absurd ⟨full, free, by omega, by rw [hz]; simp, unread⟩ (hok _)
  | @grown b full free read =>
      cases hz : zeroSlot d with
      | none =>
          refine h.attach (j := 0) dir free fun i c hi => .inl ?_
          rw [slot_grow, attachBlock_none hz] at hi
          exact (FS.own_of hd).trans hi
      | some j =>
          refine h.attach (j := j) dir free fun i c hi => ?_
          rcases attachBlock_slot hi with hold | ⟨hz', rfl⟩
          · exact .inl ((FS.own_of hd).trans hold)
          · rw [hz] at hz'
            cases hz'
            exact .inr ⟨rfl, rfl⟩

theorem initOwner_iIno (nd d : Inode) (uid gid mode : Nat) :
    (nd.initOwner d uid gid mode).iIno = nd.iIno := by
  unfold Inode.initOwner
  split <;> rfl

theorem initOwner_slot (nd d : Inode) (uid gid mode i : Nat) :
    (nd.initOwner d uid gid mode).slot i = nd.slot i := by
  unfold Inode.initOwner
  split <;> rfl

/-- A new file has no blocks. -/
theorem newFile_slot (ans : Answers) (d : Inode) (mode ino i : Nat) :
    (Inode.newFile ans d mode ino).slot i = none := by
  have h := initOwner_slot { iNlink := 1, iIno := ino } d (ans .currentFsuid) (ans .currentFsgid)
    mode i
  exact h.trans (if_neg (by simp))

/-- A new directory has its block in slot 0. -/
theorem newDir_slot {mode ino b i : Nat} {c : Int}
    (h : (Inode.newDir ans d mode ino b).slot i = some c) : i = 0 ∧ c = b := by
  obtain ⟨_, hp, hne⟩ := Inode.slot_eq_some.mp h
  have hzero : ∀ k, (({ iNlink := 1, iIno := ino } : Inode).initOwner d (ans .currentFsuid)
      (ans .currentFsgid) (sIfdir ||| (mode &&& 0o777))).blockPointers k = 0 := by
    intro k
    unfold Inode.initOwner
    split <;> rfl
  have hptr : (Inode.newDir ans d mode ino b).blockPointers i = if i = 0 then (b : Int) else 0 := by
    simp only [Inode.newDir, Function.update_apply, Inode.setTimes, hzero]
  rw [hptr] at hp
  split at hp
  · rename_i hi
    exact ⟨hi, hp.symm⟩
  · exact absurd hp.symm hne

theorem Create.owned {perm : Nat} (hs : s.Ready) (h : s.OwnedOnce) (hd : s.inodes dir = some d)
    (hok : AttachReadable s ans (.create dir name perm))
    (hc : Create ans s dir d name (sIfreg ||| (perm &&& 0o7777)) r t) : t.OwnedOnce := by
  have hmade (ino : Nat) : (s.fileMade ans d (sIfreg ||| (perm &&& 0o7777)) ino).OwnedOnce :=
    h.setInode s.nextInode fun i c hi => by
      rw [newFile_slot] at hi
      cases hi
  cases hc with
  | noInode | noMemory => exact h
  | notLinked free mem entry fail =>
      exact ((hmade _).entry (hs.inodes_fileMade hd) (hok _ _ · hd free mem) entry).dropInode _
  | linked free mem entry =>
      have ht := (hmade _).entry (hs.inodes_fileMade hd) (hok _ _ · hd free mem) entry
      exact ht

/-- Evict an inode and free blocks that it alone holds. -/
theorem FS.OwnedOnce.evict (h : s.OwnedOnce) (id : Nat)
    (hown : ∀ k, t.own k = (s.dropInode id).own k)
    (hmark : ∀ c, s.isMarked c → c ≠ 0 → (∀ i, s.own (id, i) ≠ some c) → t.isMarked c) :
    t.OwnedOnce := by
  refine h.shrink fun k c hk => ?_
  rw [hown] at hk
  obtain ⟨hk', hne⟩ := FS.own_dropInode hk
  obtain ⟨_, _, hslot⟩ := FS.own_eq_some.mp hk'
  refine ⟨hk', hmark c (h.marked _ _ hk') (Inode.slot_eq_some.mp hslot).2.2 fun i hi => hne ?_⟩
  rw [h.inj _ _ _ hk' hi]

theorem Mkdir.owned {mode : Nat} (hs : s.Ready) (h : s.OwnedOnce) (hd : s.inodes dir = some d)
    (hok : AttachReadable s ans (.mkdir dir name mode)) (hc : Mkdir ans s dir d name mode r t) :
    t.OwnedOnce := by
  have hmade {ino b : Nat} (free : s.NextFree b) : (s.dirMade ans d mode ino b).OwnedOnce :=
    h.attach s.nextInode free fun i c hi => .inr (newDir_slot hi)
  have hentry {ino b : Nat} {r : Int} {t : FS} (free : s.NextIno ino)
      (mem : ans .newInode = true) (block : s.NextFree b)
      (read : ans (.sbBread .mkdirNew 0 b) = true)
      (entry : AddEntry ans (s.dirMade ans d mode ino b) dir d name ino r t) : t.OwnedOnce :=
    (hmade block).entry (hs.inodes_dirMade hd) (hok _ _ _ · hd free mem block read) entry
  cases hc with
  | noInode | noMemory | noBlock | blockUnreadable => exact h
  | @notLinked ino b _ u free mem block read entry fail =>
      refine (hentry free mem block read entry).evict s.nextInode (fun _ => rfl) ?_
      rintro c ⟨h0, h1, hm⟩ hne hother
      -- slot 0 of the new directory still holds the block that is freed
      have hnew : u.inodes s.nextInode = some (Inode.newDir ans d mode ino b) :=
        ((entry.frame (hs.inodes_dirMade hd)).2.2.2 _ (Ne.symm (hs.ne_next hd))).trans
          FS.inodes_withNew_self
      have hcb : c ≠ b := by
        rintro rfl
        refine hother 0 ((FS.own_of hnew).trans (Inode.slot_eq_some.mpr ⟨by omega, ?_, hne⟩))
        simp [Inode.newDir]
      refine ⟨h0, h1, ?_⟩
      have hbit : (u.unmarkBlock b).marked c.toNat = (decide (c.toNat ≠ b) && u.marked c.toNat) :=
        bit_clearBit _ _ _
      show (u.unmarkBlock b).marked c.toNat = true
      rw [hbit, hm, decide_eq_true (by omega)]
      rfl
  | linked free mem block read entry =>
      have ht := (hentry free mem block read entry).mapInode (f := Inode.addLink) dir
        fun _ _ => rfl
      exact ht

/-- Freeing an inode's blocks unmarks those it holds. -/
theorem FS.isMarked_released {c : Int} (hnode : nd.Releasable) (hc : s.isMarked c) (hne : c ≠ 0)
    (hother : ∀ i, nd.slot i ≠ some c) : (s.released nd).isMarked c := by
  obtain ⟨h0, h1, hm⟩ := hc
  refine ⟨h0, h1, ?_⟩
  have hcount := hnode.count
  show (s.freedSlots nd nd.blockCount.toNat 0).marked c.toNat = true
  rw [FS.marked_freedSlots (by omega)]
  refine ⟨hm, fun k _ hk _ hkc => hother k (Inode.slot_eq_some.mpr ⟨by omega, ?_, hne⟩)⟩
  omega

theorem FS.OwnedOnce.removed (h : s.OwnedOnce) (hnd : ∀ i, s.own (id, i) = nd.slot i)
    (hnode : nd.Releasable) (dir : Nat) (name : Name) :
    (s.removed dir name id nd).OwnedOnce := by
  refine h.evict id (fun k => ?_) fun c hc hne hother => ?_
  · unfold FS.own FS.removed FS.dropInode
    rw [← FS.released_inodes s nd]
    rfl
  · exact FS.isMarked_released hnode hc hne fun i hi => hother i ((hnd i).trans hi)

theorem Unlink.owned (h : s.OwnedOnce) (hu : Unlink ans s dir name r t) : t.OwnedOnce := by
  cases hu with
  | noDentry | notRemoved => exact h
  | @removed d nd id i j dentry parent target node stop =>
      have hclear : (s.clearRecord d i j).OwnedOnce := h
      exact hclear.removed (fun i => FS.own_of target) node dir name

theorem Rmdir.owned (h : s.OwnedOnce) (hu : Rmdir ans s dir name r t) : t.OwnedOnce := by
  cases hu with
  | noDentry | notDir | unreadable | notEmpty | notRemoved => exact h
  | @removed d nd id i j dentry parent target node isDir empty stop =>
      have hclear : (s.clearRecord d i j).OwnedOnce := h
      have hslots : ∀ nd i, (Inode.dropLink nd).slot i = nd.slot i := fun _ _ => rfl
      refine (hclear.mapInode dir hslots).removed (fun k => ?_) node dir name
      rw [FS.own_mapInode hslots]
      exact FS.own_of target

theorem Extend.owned (h : s.OwnedOnce) (he : Extend id s t) : t.OwnedOnce := by
  induction he with
  | refl => exact h
  | @step t b nd _ free node low room ih =>
      refine ih.attach (j := nd.blockCount.toNat) id free fun i c hi => ?_
      obtain ⟨hi8, hp, hne⟩ := Inode.slot_eq_some.mp hi
      by_cases hij : i = nd.blockCount.toNat
      · subst hij
        exact .inr ⟨rfl, hp.symm.trans (Function.update_self _ _ _)⟩
      · refine .inl ((FS.own_of node).trans (Inode.slot_eq_some.mpr ⟨hi8, ?_, hne⟩))
        exact (Function.update_of_ne hij _ _).symm.trans hp

theorem Write.owned (h : s.OwnedOnce) (hw : Write s id r t) : t.OwnedOnce := by
  cases hw with
  | tooBig => exact h
  | noSpace grow => exact grow.owned h
  | @written u v nd nd' _ grow node data same =>
      have hown : ∀ k, v.own k = u.own k := fun k => by rw [FS.own, data.inodes, FS.own]
      refine ((grow.owned h).congr hown data.sbi).setInode id fun i c hi => ?_
      rw [hown, FS.own_of (s := u) (k := (id, i)) node, ← hi]
      unfold Inode.slot
      rw [same.blockPointers]

/-! ### The failing read -/

/-- The entry that runs into the failing read keeps the block it freed. -/
theorem AttachFails.entry {b : Nat} (h : AttachFails ans s d b)
    (he : AddEntry ans s dir d name ino r t) : t = s.setInode dir (attachBlock d b) ∧ r < 0 := by
  cases he with
  | filled stop => exact absurd h.full stop.not_findsNone
  | unreadable fail => exact absurd h.full fail.not_findsNone
  | noSpace full space => exact absurd space h.free.not_exhausted
  | newUnreadable full free unread =>
      obtain rfl := h.free.unique free
      exact ⟨rfl, by decide⟩
  | grown full free read =>
      obtain rfl := h.free.unique free
      rw [h.unread] at read
      cases read

/-- After it, a slot of the directory holds a block that is not marked. -/
theorem AttachFails.not_owned {b : Nat} (h : AttachFails ans s d b) (howned : t.OwnedOnce)
    (dir : Nat) (hdir : t.inodes dir = some (attachBlock d b))
    (hmark : t.isMarked b → s.isMarked b) : False := by
  cases hz : zeroSlot d with
  | none => exact h.slot hz
  | some i =>
      have hb : (b : Int) ≠ 0 := by
        have := h.pos
        omega
      have hown : t.own (dir, i) = some (b : Int) := by
        rw [FS.own_of (k := (dir, i)) hdir, attachBlock_some hz, Inode.slot_eq_some]
        exact ⟨(zeroSlot_some hz).1, Function.update_self _ _ _, hb⟩
      exact h.free.not_isMarked (hmark (howned.marked _ _ hown))

/-- A step of a run with cached inodes keeps ownership exclusive exactly when it
does not run into a failing read of a block just attached. -/
theorem Step.owned_iff {op : Op} (hs : s.Ready) (h : s.OwnedOnce) (hop : op.cached)
    (hstep : Step s op ans r t) : t.OwnedOnce ↔ AttachReadable s ans op := by
  cases op with
  | create dir name perm =>
      obtain ⟨d, hd, hc⟩ := naiveCreate_cases hs hstep
      refine ⟨fun ht d' ino b hd' free mem hfail => ?_, fun hok => hc.owned hs h hd hok⟩
      obtain rfl : d = d' := by
        rw [hd] at hd'
        cases hd'
        rfl
      cases hc with
      | noInode full => exact free.not_noIno full
      | noMemory _ mem' =>
          rw [mem] at mem'
          cases mem'
      | notLinked free' _ entry fail =>
          obtain rfl := free.unique free'
          obtain ⟨rfl, _⟩ := hfail.entry entry
          -- the parent keeps the pointer, and the block is free
          refine hfail.not_owned ht dir ?_ fun hm => hm
          rw [FS.inodes_dropInode_ne (hs.ne_next hd)]
          exact FS.inodes_setInode_self
      | linked free' _ entry =>
          obtain rfl := free.unique free'
          exact absurd (hfail.entry entry).2 (by decide)
  | mkdir dir name mode =>
      obtain ⟨d, hd, hc⟩ := naiveMkdir_cases hs hstep
      refine ⟨fun ht d' ino c b hd' free mem block read hfail => ?_,
        fun hok => hc.owned hs h hd hok⟩
      obtain rfl : d = d' := by
        rw [hd] at hd'
        cases hd'
        rfl
      cases hc with
      | noInode full => exact free.not_noIno full
      | noMemory _ mem' =>
          rw [mem] at mem'
          cases mem'
      | noBlock _ _ space => exact block.not_exhausted space
      | blockUnreadable _ _ block' unread =>
          obtain rfl := block.unique block'
          rw [read] at unread
          cases unread
      | notLinked free' _ block' _ entry fail =>
          obtain rfl := free.unique free'
          obtain rfl := block.unique block'
          obtain ⟨rfl, _⟩ := hfail.entry entry
          -- so does it here, after the block of the new directory was given back
          refine hfail.not_owned ht dir ?_ ?_
          · rw [FS.inodes_dropInode_ne (hs.ne_next hd)]
            exact FS.inodes_setInode_self
          · rintro ⟨h0, h1, hm⟩
            refine ⟨h0, h1, ?_⟩
            have hbit :
                ((s.dirMade ans d mode ino c).unmarkBlock c).marked (b : Int).toNat = true := hm
            unfold FS.marked FS.unmarkBlock at hbit
            rw [bit_clearBit, Bool.and_eq_true] at hbit
            exact hbit.2
      | linked free' _ block' _ entry =>
          obtain rfl := free.unique free'
          obtain rfl := block.unique block'
          exact absurd (hfail.entry entry).2 (by decide)
  | unlink dir name => exact ⟨fun _ => trivial, fun _ => (vfsUnlink_cases hs hstep).owned h⟩
  | rmdir dir name => exact ⟨fun _ => trivial, fun _ => (vfsRmdir_cases hs hstep).owned h⟩
  | write id data pos =>
      obtain ⟨q, u, hwrite, hend⟩ := Prog.exec_bind_ok.mp hstep
      cases hend
      exact ⟨fun _ => trivial, fun _ => (naiveFileWrite_cases hs hwrite).owned h⟩
  | lookup => exact absurd hop id

end Operations

/-! ## Runs -/

theorem own_mounted (disk : Nat → Bytes) (ts : Timespec) (k : Nat × Nat) :
    (FS.mounted disk ts).own k = none := by
  by_cases hk : k.1 = 0
  · have hroot : (FS.mounted disk ts).inodes k.1 = some (Inode.root ts) := by
      rw [hk]
      rfl
    rw [FS.own_of hroot]
    exact if_neg (by simp [Inode.root, Inode.setTimes])
  · simp [FS.own, FS.mounted, hk]

theorem owned_mounted (disk : Nat → Bytes) (ts : Timespec) : (FS.mounted disk ts).OwnedOnce := by
  constructor
  · intro k b hk
    rw [own_mounted] at hk
    cases hk
  · intro k l b hk
    rw [own_mounted] at hk
    cases hk

/-- In every run with cached inodes whose steps do not run into a failing read of
a block just attached, no block is owned twice; and the next step keeps this
exactly when it does not run into one either. -/
theorem owned_once_of_attach_readable {disk : Nat → Bytes} {s0 s : FS} (h0 : Mounted disk s0)
    (h : Reach (fun s op ans _ => op.cached ∧ AttachReadable s ans op) s0 s) :
    s.OwnedOnce ∧ ∀ op ans r t, op.cached → Step s op ans r t →
      (t.OwnedOnce ↔ AttachReadable s ans op) := by
  have hmount : s0.OwnedOnce := by
    obtain ⟨_, ts, rfl⟩ := mounted_eq h0
    exact owned_mounted disk ts
  have hinv : s.Ready ∧ s.OwnedOnce := by
    refine h.invariant (I := fun s => s.Ready ∧ s.OwnedOnce) ⟨h0.ready, hmount⟩ ?_
    intro t op ans r u ht hP hstep
    exact ⟨hstep.ready ht.1, (hstep.owned_iff ht.1 ht.2 hP.1).mpr hP.2⟩
  exact ⟨hinv.2, fun op ans r t hop hstep => hstep.owned_iff hinv.1 hinv.2 hop⟩

/-- Without failing reads the condition holds. -/
theorem attachReadable_good (s : FS) (ts : Timespec) (uid gid : Nat) (op : Op) :
    AttachReadable s (Answers.good ts uid gid) op := by
  cases op with
  | create dir name perm => exact fun _ _ _ _ _ _ hfail => Bool.noConfusion hfail.unread
  | mkdir dir name mode => exact fun _ _ _ _ _ _ _ _ _ hfail => Bool.noConfusion hfail.unread
  | unlink | rmdir | write | lookup => trivial

theorem owned_once_after_create_mkdir : ∃ s,
    runOps (FS.mounted (sampleDisk 128 1000 4 132) default)
      [(.create 0 (.letters 1 (by decide) (by decide)) 0o644, Answers.good default 0 0),
        (.mkdir 0 (.letters 2 (by decide) (by decide)) 0o755, Answers.good default 0 0)] = .ok s ∧
      s.OwnedOnce := by
  obtain ⟨s, hs, _⟩ := exists_of_runsTo
    (show runsTo (FS.mounted (sampleDisk 128 1000 4 132) default)
    [(.create 0 (.letters 1 (by decide) (by decide)) 0o644, Answers.good default 0 0),
      (.mkdir 0 (.letters 2 (by decide) (by decide)) 0o755, Answers.good default 0 0)]
    (fun _ => true) = true by decide +kernel)
  refine ⟨s, hs, (owned_once_of_attach_readable (sampleDisk_mounted 128 1000 4 132 default) ?_).1⟩
  refine Reach.of_runOps (fun t x _ hx => ?_) .refl hs
  simp only [List.mem_cons, List.not_mem_nil, or_false] at hx
  rcases hx with rfl | rfl <;> exact ⟨trivial, attachReadable_good _ _ _ _ _⟩

/-- The first `create` on a fresh image fails to read the root's new block; the
`mkdir` after it is given the same block. -/
def attachFailureRun : List (Op × Answers) :=
  [(.create 0 (.letters 1 Nat.one_pos Name.one_le_max) 0o644,
      Answers.unreadable .addEntryNew default 0 0),
    (.mkdir 0 (.letters 2 Nat.two_pos Name.two_le_max) 0o755, Answers.good default 0 0)]

theorem owned_twice_after_attach_failure : ¬ ∀ (disk : Nat → Bytes) (s0 s : FS),
    Mounted disk s0 → Reach (fun _ op _ _ => op.cached) s0 s → s.OwnedOnce := by
  intro hall
  obtain ⟨s, hs, hcheck⟩ := exists_of_runsTo
    (show runsTo (FS.mounted (sampleDisk 128 1000 4 132) default) attachFailureRun
      (fun s => decide (s.own (0, 0) = some 132 ∧ s.own (2, 0) = some 132))
        = true by decide +kernel)
  obtain ⟨h0, h2⟩ := of_decide_eq_true hcheck
  have hreach : Reach (fun _ op _ _ => op.cached)
      (FS.mounted (sampleDisk 128 1000 4 132) default) s := by
    refine Reach.of_runOps (fun _ x _ hx => ?_) .refl hs
    simp only [attachFailureRun, List.mem_cons, List.not_mem_nil, or_false] at hx
    rcases hx with rfl | rfl <;> trivial
  have := (hall _ _ s (sampleDisk_mounted _ _ _ _ _) hreach).inj _ _ _ h0 h2
  cases this

end NaiveFS
