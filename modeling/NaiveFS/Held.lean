import NaiveFS.Contents
import NaiveFS.Names

/-!
# Blocks held in memory, lookups included

`FS.Held`: every block an inode in memory has is marked and has no second holder, and the slots
that have one come before `block_count`. Every step keeps it in which a lookup that loads an inode
loads one with blocks of its own.
-/

namespace NaiveFS

open Bytes Ownership Prog

/-- Each block in memory is held once, in a slot before `block_count`. -/
structure FS.Held (s : FS) : Prop extends s.Ready where
  owned : s.OwnedOnce
  front : ∀ id nd, s.inodes id = some nd → nd.Front

/-- The blocks of `nd` are its own: marked, held by no inode in memory, no two of them the same. -/
structure FS.OwnBlocks (s : FS) (nd : Inode) : Prop where
  low : 0 ≤ nd.blockCount
  marked : ∀ i c, nd.slot i = some c → s.isMarked c
  unheld : ∀ i c k, nd.slot i = some c → s.own k ≠ some c
  inj : ∀ i j c, nd.slot i = some c → nd.slot j = some c → i = j

/-- The inode that `naive_iget` makes of the inode table's bytes for `ino`. -/
def FS.decoded (s : FS) (ino : Nat) : Except Fault Inode :=
  decodeInode { iIno := ino, iNlink := 1, iHashed := true }
    (s.block (inodeTableBlock (s.block naiveSuperBlockBlock) ino))

/-- What `naive_lookup` of `name` in `dir` goes to the inode table for. -/
def FS.LooksUp (s : FS) (dir : Nat) (name : Name) (ino : Nat) : Prop :=
  s.findHashed ino = none ∧ ∃ d i j, s.inodes dir = some d ∧ d.Slot i ∧ j < 3 ∧
    isNamed name (s.slotBlock d i) j = true ∧ ino = DirRecord.iIno (s.slotBlock d i) j

/-- A lookup loads no inode with blocks that are free or held by an inode in memory. -/
def Op.LoadsOwn (s : FS) : Op → Prop
  | .lookup dir name => ∀ ino nd, s.LooksUp dir name ino → s.decoded ino = .ok nd →
      s.OwnBlocks nd
  | _ => True

section Held

variable {ans : Answers} {s t : FS} {id dir : Nat} {d e nd : Inode} {name : Name} {mode : Nat}
  {r ino : Int}

theorem newFile_front (ans : Answers) (d : Inode) (mode ino : Nat) :
    (Inode.newFile ans d mode ino).Front := by
  have hsized := newFile_slot ans d mode ino
  obtain ⟨_, _, hcount⟩ := initOwner_fields { iNlink := 1, iIno := ino } d (ans .currentFsuid)
    (ans .currentFsgid) mode
  have hzero : (Inode.newFile ans d mode ino).blockCount = 0 := hcount
  refine ⟨by omega, fun i hi hp => ?_⟩
  have hslot := Inode.slot_eq_some.mpr ⟨hi, rfl, hp⟩
  rw [hsized] at hslot
  cases hslot

theorem newDir_front (ans : Answers) (d : Inode) (mode ino b : Nat) :
    (Inode.newDir ans d mode ino b).Front := by
  have hcount := (newDir_blocks ans d mode ino b).1
  refine ⟨by omega, fun i _ hp => ?_⟩
  have hi := newDir_slot_zero hp
  omega

theorem AddEntry.front (hd : s.inodes dir = some d) (hfront : d.Front)
    (he : AddEntry ans s dir d name ino r t) (hnd : t.inodes dir = some nd) : nd.Front := by
  cases he with
  | filled | unreadable | noSpace =>
      obtain rfl := Option.some.inj (hd.symm.trans hnd)
      exact hfront
  | newUnreadable =>
      obtain rfl := Option.some.inj (FS.inodes_setInode_self.symm.trans hnd)
      exact hfront.attach _
  | @grown b =>
      obtain rfl := Option.some.inj (FS.inodes_setInode_self.symm.trans hnd)
      exact ⟨(hfront.attach b).low, (hfront.attach b).lt_count⟩

theorem Create.front (hs : s.Ready) (hd : s.inodes dir = some d) (hfront : d.Front)
    (hc : Create ans s dir d name mode r t) (hnd : t.inodes dir = some nd) : nd.Front := by
  cases hc with
  | noInode | noMemory =>
      obtain rfl := Option.some.inj (hd.symm.trans hnd)
      exact hfront
  | notLinked free mem entry =>
      rw [FS.inodes_dropInode_ne (hs.ne_next hd)] at hnd
      exact entry.front (hs.inodes_fileMade hd) hfront hnd
  | linked free mem entry => exact entry.front (hs.inodes_fileMade hd) hfront hnd

theorem Mkdir.front (hs : s.Ready) (hd : s.inodes dir = some d) (hfront : d.Front)
    (hm : Mkdir ans s dir d name mode r t) (hnd : t.inodes dir = some nd) : nd.Front := by
  cases hm with
  | noInode | noMemory | noBlock | blockUnreadable =>
      obtain rfl := Option.some.inj (hd.symm.trans hnd)
      exact hfront
  | notLinked free mem block read entry fail =>
      rw [FS.inodes_dropInode_ne (hs.ne_next hd)] at hnd
      exact entry.front (hs.inodes_dirMade hd) hfront hnd
  | @linked _ _ u free mem block read entry =>
      obtain ⟨d', hd', -⟩ := entry.parent (hs.inodes_dirMade hd)
      have hfront' := entry.front (hs.inodes_dirMade hd) hfront hd'
      have hnd' : (u.mapInode dir Inode.addLink).inodes dir = some nd := hnd
      rw [FS.mapInode_of hd', FS.inodes_setInode_self] at hnd'
      cases hnd'
      exact ⟨hfront'.low, hfront'.lt_count⟩

theorem Extend.front (hnd : s.inodes id = some nd) (hfront : nd.Front) (he : Extend id s t)
    (hnd' : t.inodes id = some e) : e.Front := by
  induction he generalizing e with
  | refl =>
      obtain rfl := Option.some.inj (hnd.symm.trans hnd')
      exact hfront
  | @step t b e' _ free node low room ih =>
      obtain rfl := Option.some.inj (FS.inodes_setInode_self.symm.trans hnd')
      refine ⟨show 0 ≤ e'.blockCount + 1 by omega, fun i hi hp => ?_⟩
      show (i : Int) < e'.blockCount + 1
      by_cases hcount : i = e'.blockCount.toNat
      · omega
      · have hp' : e'.blockPointers i ≠ 0 := by
          rw [← Function.update_of_ne hcount (b : Int) e'.blockPointers]
          exact hp
        have := (ih node).lt_count i hi hp'
        omega

theorem Write.front (hnd : s.inodes id = some nd) (hfront : nd.Front) (hw : Write s id r t)
    (hnd' : t.inodes id = some e) : e.Front := by
  cases hw with
  | tooBig =>
      obtain rfl := Option.some.inj (hnd.symm.trans hnd')
      exact hfront
  | noSpace grow => exact grow.front hnd hfront hnd'
  | @written u v e₁ e₂ _ grow node data same =>
      obtain rfl := Option.some.inj (FS.inodes_setInode_self.symm.trans hnd')
      have h := grow.front hnd hfront node
      refine ⟨by rw [same.blockCount]; exact h.low, fun i hi hp => ?_⟩
      rw [same.blockPointers] at hp
      rw [same.blockCount]
      exact h.lt_count i hi hp

/-- The pointers the loop leaves alone. -/
theorem readPointers_rest {v : Bytes} {n i : Nat} {p q : Nat → Int}
    (h : readPointers v n i p = .ok q) {k : Nat} (hk : i + n ≤ k) : q k = p k := by
  induction n generalizing i p with
  | zero =>
      cases h
      rfl
  | succ n ih =>
      rw [readPointers] at h
      split at h
      · cases h
      · rw [ih h (by omega), Function.update_of_ne (by omega)]

theorem FS.decoded_front {m : Nat} (h : s.decoded m = .ok nd) (hlow : 0 ≤ nd.blockCount) :
    nd.Front := by
  rw [FS.decoded, decodeInode] at h
  dsimp only at h
  generalize toInt32 (DiskInode.blockCount _) = count at h
  cases hread : readPointers (s.block (inodeTableBlock (s.block naiveSuperBlockBlock) m))
      count.toNat 0 fun _ => 0 with
  | error x =>
      rw [hread] at h
      cases h
  | ok p =>
      rw [hread] at h
      cases h
      refine ⟨hlow, fun i _ hp => ?_⟩
      show (i : Int) < count
      by_contra hge
      exact hp (readPointers_rest hread (by omega))

/-- What a lookup adds to memory. -/
theorem naiveLookup_loads {q : Option (Except Int Nat)} (hs : s.Ready)
    (h : (naiveLookup dir name).exec ans s = .ok (q, t)) :
    t.sbi = s.sbi ∧ (t.inodes = s.inodes ∨ ∃ m nd, s.LooksUp dir name m ∧ s.decoded m = .ok nd ∧
      t.inodes = (s.withNew nd).inodes) := by
  obtain ⟨d, hd⟩ := exec_inode_bind_ok h
  rcases exec_naiveLookup hd h with
    ⟨-, -, rfl⟩ | ⟨i, j, x, u, -, hslot, -, hj, hhit, -, rfl, higet, hinodes, -, hsbi, -⟩
  · exact ⟨rfl, .inl rfl⟩
  have hs' : (s.addRef (d.blockPointers i) 1).Ready := hs.same _ ⟨rfl, rfl, rfl⟩
  rw [hsbi, hinodes]
  cases naiveIget_cases hs' higet with
  | noMemory | cached | unreadable => exact ⟨rfl, .inl rfl⟩
  | loaded none decode =>
      exact ⟨rfl, .inr ⟨_, _, ⟨none, d, i, j, hd, hslot, hj, hhit, rfl⟩, decode, rfl⟩⟩

theorem FS.OwnedOnce.load (h : s.OwnedOnce) (hnd : s.OwnBlocks nd) :
    (s.withNew nd).OwnedOnce := by
  have hown (k : Nat × Nat) : (s.withNew nd).own k = if k.1 = s.nextInode then nd.slot k.2
      else s.own k := by
    unfold FS.own
    split
    · rename_i hk
      rw [hk, FS.inodes_withNew_self]
      rfl
    · rename_i hk
      rw [FS.inodes_withNew_ne hk]
  refine ⟨fun k b hk => ?_, fun k l b hk hl => ?_⟩
  · rw [hown] at hk
    split at hk
    · exact hnd.marked _ _ hk
    · exact h.marked _ _ hk
  · rw [hown] at hk hl
    split at hk
    · rename_i hk'
      split at hl
      · rename_i hl'
        exact Prod.ext (hk'.trans hl'.symm) (hnd.inj _ _ _ hk hl)
      · exact absurd hl (hnd.unheld _ _ _ hk)
    · split at hl
      · exact absurd hk (hnd.unheld _ _ _ hl)
      · exact h.inj _ _ _ hk hl

/-- Every step of every run keeps the blocks in memory apart and before `block_count`. -/
theorem Step.held {op : Op} (h : s.Held) (hattach : AttachReadable s ans op) (hload : op.LoadsOwn s)
    (hstep : Step s op ans r t) : t.Held := by
  -- ownership is kept by the operations as in `owned_iff`, by a lookup if it loads its own
  have hs := h.toReady
  have hown (hop : op.cached) : t.OwnedOnce := (hstep.owned_iff hs h.owned hop).mpr hattach
  refine ⟨hstep.ready hs, ?_, fun k e he => ?_⟩
  · cases op with
    | create | mkdir | unlink | rmdir | write => exact hown trivial
    | lookup dir name =>
        obtain ⟨q, u, hlookup, hend⟩ := exec_bind_ok.mp hstep
        cases hend
        obtain ⟨hsbi, hsame | ⟨m, nd, hlooks, hdecode, hnew⟩⟩ := naiveLookup_loads hs hlookup
        · exact h.owned.congr (fun k => by rw [FS.own, hsame, FS.own]) hsbi
        · exact (h.owned.load (hload m nd hlooks hdecode)).congr
            (fun k => by rw [FS.own, hnew, FS.own]) hsbi
  · cases op with
    | create dir name perm =>
        obtain ⟨d, hd, hc⟩ := naiveCreate_cases hs hstep
        by_cases hk : k = dir
        · subst hk
          exact hc.front hs hd (h.front _ d hd) he
        · rcases hc.inodes hs hd hk he with hold | ⟨-, -, m, -, rfl⟩
          · exact h.front k e hold
          · exact newFile_front _ _ _ _
    | mkdir dir name mode =>
        obtain ⟨d, hd, hm⟩ := naiveMkdir_cases hs hstep
        by_cases hk : k = dir
        · subst hk
          exact hm.front hs hd (h.front _ d hd) he
        · rcases hm.inodes hs hd hk he with hold | ⟨-, -, m, b, -, -, rfl⟩
          · exact h.front k e hold
          · exact newDir_front _ _ _ _ _
    | unlink dir name => exact h.front k e ((vfsUnlink_cases hs hstep).inodes he)
    | rmdir dir name =>
        rcases (vfsRmdir_cases hs hstep).inodes he with hold | ⟨-, d, hd, rfl⟩
        · exact h.front k e hold
        · exact ⟨(h.front dir d hd).low, (h.front dir d hd).lt_count⟩
    | write id data pos =>
        obtain ⟨q, u, hwrite, hend⟩ := exec_bind_ok.mp hstep
        cases hend
        have hw := naiveFileWrite_cases hs hwrite
        by_cases hk : k = id
        · subst hk
          obtain ⟨nd, hnd⟩ := exec_inode_bind_ok hwrite
          exact hw.front hnd (h.front k nd hnd) he
        · exact h.front k e ((hw.inodes hk).symm.trans he)
    | lookup dir name =>
        obtain ⟨q, u, hlookup, hend⟩ := exec_bind_ok.mp hstep
        cases hend
        obtain ⟨-, hsame | ⟨m, nd, hlooks, hdecode, hnew⟩⟩ := naiveLookup_loads hs hlookup
        · exact h.front k e (hsame ▸ he)
        · rw [hnew] at he
          by_cases hk : k = s.nextInode
          · subst hk
            obtain rfl := Option.some.inj (FS.inodes_withNew_self.symm.trans he)
            exact FS.decoded_front hdecode (hload m _ hlooks hdecode).low
          · exact h.front k e ((FS.inodes_withNew_ne hk).symm.trans he)

end Held

end NaiveFS
