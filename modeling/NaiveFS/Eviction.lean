import NaiveFS.Alongside
import NaiveFS.Descriptors
import NaiveFS.Fsck
import NaiveFS.Held
import NaiveFS.References

/-!
# Eviction

Two runs of the same calls. In one the kernel evicts inodes, which `naive_iget` loads again when
their names are looked up; in the other every inode stays in memory. The kernel writes an inode
back before it evicts it, if `mark_inode_dirty` was called on it. The invariant is that the first
state of `Both` is `Beside` the second, and that the record of every inode that is out of memory
says what the inode is.
-/

namespace NaiveFS

open Bytes Prog

/-! ## The two runs -/

/-- The kernel drops an inode, which it writes back first if it is marked dirty. -/
def evictInode (id : Nat) : K Unit := do
  let nd ← inode id
  if nd.iDirty then
    let _ ← naiveWriteInode id
    Prog.modify (·.evict id)
  else
    Prog.modify (·.evict id)

/-- A lookup of the VFS: the dentry's inode, or what `naive_lookup` finds. -/
def vfsLookup (dir : Nat) (name : Name) : K (Option (Except Int Nat)) := do
  match ← Prog.read fun s => s.dcache dir name with
  | some id => pure (some (.ok id))
  | none => naiveLookup dir name

/-- The run in which all inodes are kept and the one in which some are evicted. -/
structure Both where
  kept : FS
  evicted : FS
  /-- Where the second run has the inodes of the first. -/
  place : Nat → Option Nat
  /-- The inode as it was when it was last evicted or loaded. -/
  saved : Nat → Option Inode

/-- The runs begin in one state. -/
def Both.start (s : FS) : Both where
  kept := s
  evicted := s
  place := fun id => (s.inodes id).map fun _ => id
  saved := fun _ => none

/-- What happens in the two runs. -/
inductive Act where
  | call (op : Op)
  /-- Only in the second run. -/
  | evict (id : Nat)
  | find (dir : Nat) (name : Name)

namespace Both

/-- Both runs are taken further; an inode new to the second one is the first one's `id`. -/
def moved (c : Both) (t t' : FS) (id : Nat) (saved : Option Inode) : Both :=
  if t'.nextInode = c.evicted.nextInode then { c with kept := t, evicted := t' }
  else
    { kept := t, evicted := t'
      place := Function.update c.place id (some c.evicted.nextInode)
      saved := Function.update c.saved id saved }

/-- A call, in the second run on the inodes it has in their places. -/
def call (c : Both) (ans : Answers) (op op' : Op) : Except Fault Both := do
  let (_, t) ← op.prog.exec ans c.kept
  let (_, t') ← op'.prog.exec ans c.evicted
  pure (c.moved t t' c.kept.nextInode none)

/-- The inode `id` leaves memory in the second run, which has it at `id'`. -/
def evict (c : Both) (ans : Answers) (id id' : Nat) : Except Fault Both := do
  let (_, t') ← (evictInode id').exec ans c.evicted
  pure { c with
    evicted := t'
    place := Function.update c.place id none
    saved := Function.update c.saved id (c.evicted.inodes id') }

/-- A name is looked up; the inode may have to be loaded. -/
def find (c : Both) (ans : Answers) (dir dir' : Nat) (name : Name) : Except Fault Both := do
  let (_, t) ← (vfsLookup dir name).exec ans c.kept
  let (_, t') ← (vfsLookup dir' name).exec ans c.evicted
  pure (c.moved t t' ((c.kept.dcache dir name).getD c.kept.nextInode)
    (t'.inodes c.evicted.nextInode))

/-- What the second run does not have in memory it can neither work on nor evict. -/
def step (c : Both) (ans : Answers) : Act → Except Fault Both
  | .call op =>
    match op.moved c.place with
    | some op' => c.call ans op op'
    | none => pure c
  | .evict id =>
    match c.place id with
    | some id' => c.evict ans id id'
    | none => pure c
  | .find dir name =>
    match c.place dir with
    | some dir' => c.find ans dir dir' name
    | none => pure c

/-- The states that acts lead to, each of which satisfies `P`. -/
inductive Runs (P : Both → Answers → Act → Prop) (c₀ : Both) : Both → Prop where
  | refl : Runs P c₀ c₀
  | step {c c' : Both} {ans : Answers} {a : Act} :
      Runs P c₀ c → P c ans a → c.step ans a = .ok c' → Runs P c₀ c'

end Both

/-! ## When eviction is invisible -/

/-- No read fails, and there is memory for an inode. -/
structure Answers.Reliable (ans : Answers) : Prop where
  reads : Readable ans
  memory : ∀ ino, ans (.igetLocked ino) = true

/-- What the kernel does. A call other than a lookup; the name that `unlink` or `rmdir` removes
was looked up, so its inode is in memory. The root and directories with dentries are not
evicted. No device fails. -/
def Act.Allowed (c : Both) (ans : Answers) : Act → Prop
  | .call op => op.cached ∧ ∀ dir name id, op.removes = some (dir, name) →
      c.kept.dcache dir name = some id → c.place id ≠ none
  | .evict id => id ≠ c.kept.sRoot ∧ (∀ name, c.kept.dcache id name = none) ∧ ans.Reliable
  | .find _ _ => ans.Reliable

/-- What `naive_write_inode` stores of the inode `naive_iget` reads back: the fields fit, a
directory has size 0 and no pointer is left behind the blocks. -/
structure Inode.Storable (nd : Inode) : Prop extends nd.Fits where
  dirSize : nd.isDir = true → nd.iSize = 0
  rest : ∀ i : Nat, nd.blockCount ≤ i → i < 8 → nd.blockPointers i = 0

/-- The name leads to the inode `id` on the device too. -/
def Both.Recorded (c : Both) (ans : Answers) (dir : Nat) (name : Name) (id : Nat) : Prop :=
  ∃ d i j, c.kept.inodes dir = some d ∧ Finds ans c.kept d name i j ∧
    c.kept.number id = some (DirRecord.iIno (c.kept.slotBlock d i) j)

/-- The number `v` of an inode that is on the device only: no inode in memory has it, nothing was
written back under it, and its blocks are outside the inode table. -/
structure Both.Untouched (disk : Nat → Bytes) (c : Both) (v : Nat) : Prop where
  valid : Disk.HasIno disk v
  unused : ∀ id, c.kept.number id ≠ some v
  same : c.evicted.block (inodeTableBlock (c.kept.block naiveSuperBlockBlock) v) =
    c.kept.block (inodeTableBlock (c.kept.block naiveSuperBlockBlock) v)
  data : ∀ nd, c.kept.decoded v = .ok nd → nd.OnData disk

/-- A creation takes no number that an inode in memory has. An inode is evicted that is marked
dirty and can be stored, or one that was loaded and is as it was then. A name that is looked up
leads to its dentry's inode on the device too, or to an inode that is there only. -/
def Act.Lossless (disk : Nat → Bytes) (c : Both) (ans : Answers) : Act → Prop
  | .call op => op.makes ≠ none → ∀ ino, c.kept.NextIno ino → ∀ id, c.kept.number id ≠ some ino
  | .evict id => ∀ id' nd, c.place id = some id' → c.evicted.inodes id' = some nd →
      if nd.iDirty then nd.Storable else ∃ nd', c.saved id = some nd' ∧ nd'.Like nd
  | .find dir name => (∀ id, c.kept.dcache dir name = some id → c.place id = none →
        c.Recorded ans dir name id) ∧
      (c.kept.dcache dir name = none → ∀ d i j, c.kept.inodes dir = some d →
        Finds ans c.kept d name i j → c.Untouched disk (DirRecord.iIno (c.kept.slotBlock d i) j))

/-- The act loses nothing. -/
def Act.Safe (disk : Nat → Bytes) (c : Both) (ans : Answers) (a : Act) : Prop :=
  a.Allowed c ans ∧ a.Lossless disk c ans

/-! ## The dentries of a run -/

section Dentries

variable {ans : Answers} {s t : FS} {r : Int} {op : Op}

/-- A call leaves the dentries, or gives its name no inode or a new one. -/
inductive DentryStep (s t : FS) (op : Op) : Prop where
  | same (dcache : t.dcache = s.dcache)
  | made {dir : Nat} {name : Name} (makes : op.makes = some (dir, name))
      (dcache : t.dcache = (s.setDentry dir name (some s.nextInode)).dcache)
  | removed {dir : Nat} {name : Name} (removes : op.removes = some (dir, name))
      (dcache : t.dcache = (s.setDentry dir name none).dcache)

theorem Write.dcache {id : Nat} (hw : Write s id r t) : t.dcache = s.dcache := by
  cases hw with
  | tooBig => rfl
  | noSpace grow => exact grow.names.2
  | written grow node data same => exact data.dcache.trans grow.names.2

theorem Step.dentries (hs : s.Ready) (hop : op.cached) (hstep : Step s op ans r t) :
    DentryStep s t op := by
  cases op with
  | create dir name perm =>
      obtain ⟨d, hd, hc⟩ := naiveCreate_cases hs hstep
      cases hc with
      | noInode | noMemory => exact .same rfl
      | notLinked free mem entry => exact .same (entry.dcache (s := s.fileMade ans d _ _))
      | @linked _ u free mem entry =>
          have hu : u.dcache = s.dcache := entry.dcache
          exact .made rfl (by rw [FS.setDentry, FS.setDentry, hu])
  | mkdir dir name mode =>
      obtain ⟨d, hd, hm⟩ := naiveMkdir_cases hs hstep
      cases hm with
      | noInode | noMemory | noBlock | blockUnreadable => exact .same rfl
      | notLinked free mem block read entry =>
          exact .same (entry.dcache (s := s.dirMade ans d _ _ _))
      | @linked _ _ u free mem block read entry =>
          have hu : (u.mapInode dir Inode.addLink).dcache = s.dcache :=
            (mapInode_dcache u dir _).trans entry.dcache
          exact .made rfl (by rw [FS.setDentry, FS.setDentry, hu])
  | unlink dir name =>
      cases vfsUnlink_cases hs hstep with
      | noDentry | notRemoved => exact .same rfl
      | removed => exact .removed rfl (removed_dcache _ _ _ _)
  | rmdir dir name =>
      cases vfsRmdir_cases hs hstep with
      | noDentry | notDir | unreadable | notEmpty | notRemoved => exact .same rfl
      | removed =>
          refine .removed rfl ((removed_dcache _ _ _ _).trans ?_)
          rw [FS.setDentry, mapInode_dcache]
          rfl
  | write id data pos =>
      obtain ⟨q, u, hwrite, hend⟩ := Prog.exec_bind_ok.mp hstep
      cases hend
      exact .same (naiveFileWrite_cases hs hwrite).dcache
  | lookup => exact hop.elim

/-- A call leaves the dentries of other names than its own. -/
theorem DentryStep.other {dir : Nat} {name : Name} (h : DentryStep s t op)
    (hmakes : op.makes ≠ some (dir, name)) (hremoves : op.removes ≠ some (dir, name)) :
    t.dcache dir name = s.dcache dir name := by
  cases h with
  | same dcache => rw [dcache]
  | made makes dcache =>
      rw [dcache, FS.dcache_setDentry, if_neg]
      rintro ⟨rfl, rfl⟩
      exact hmakes makes
  | removed removes dcache =>
      rw [dcache, FS.dcache_setDentry, if_neg]
      rintro ⟨rfl, rfl⟩
      exact hremoves removes

/-- No two names lead to one inode. -/
def FS.NamedOnce (s : FS) : Prop :=
  ∀ dir name k n id, s.dcache dir name = some id → s.dcache k n = some id → k = dir ∧ n = name

/-- A name is given an inode that has none, or none at all. -/
theorem FS.NamedOnce.setDentry {dir : Nat} {name : Name} {x : Option Nat} (h : s.NamedOnce)
    (hx : ∀ id, x = some id → ∀ k n, s.dcache k n ≠ some id) :
    (s.setDentry dir name x).NamedOnce := by
  intro e m k n id hid hid'
  rw [FS.dcache_setDentry] at hid hid'
  split at hid <;> split at hid'
  · rename_i h1 h2
    exact ⟨h2.1.trans h1.1.symm, h2.2.trans h1.2.symm⟩
  · exact absurd hid' (hx id hid k n)
  · exact absurd hid (hx id hid' e m)
  · exact h e m k n id hid hid'

theorem FS.NamedOnce.congr (h : s.NamedOnce) (hd : t.dcache = s.dcache) : t.NamedOnce := by
  intro dir name k n id
  rw [hd]
  exact h dir name k n id

theorem DentryStep.once (hd : DentryStep s t op) (h : s.NamedOnce)
    (hnew : ∀ dir name, s.dcache dir name ≠ some s.nextInode) : t.NamedOnce := by
  cases hd with
  | same dcache => exact h.congr dcache
  | made makes dcache =>
      exact (h.setDentry fun id hid k n => by
        cases hid
        exact hnew k n).congr dcache
  | removed removes dcache => exact (h.setDentry fun _ hid => absurd hid (by simp)).congr dcache

end Dentries

/-! ## The invariant -/

/-- What the two runs share. -/
def Both.aside (disk : Nat → Bytes) (c : Both) : Aside where
  disk := disk
  place := c.place
  out := fun id => if c.place id = none then c.kept.inodes id else none
  table := c.evicted.cache
  next := c.kept.nextInode
  next' := c.evicted.nextInode

/-- The runs are beside each other, and the records of the inodes that were evicted or loaded say
what they were then. -/
structure Both.Inv (disk : Nat → Bytes) (c : Both) : Prop where
  ok : (c.aside disk).Ok
  beside : c.kept.Beside (c.aside disk) c.evicted
  rooted : c.kept.Rooted
  numbered : c.kept.Numbered
  valid : ∀ id v, c.kept.number id = some v → id = c.kept.sRoot ∨ Disk.HasIno disk v
  apart : ∀ id k v, c.kept.number id = some v → c.kept.number k = some v → id = k
  once : ∀ dir name k n id, c.kept.dcache dir name = some id → c.kept.dcache k n = some id →
    k = dir ∧ n = name
  out : ∀ id nd, c.place id = none → c.kept.inodes id = some nd →
    ∃ nd', c.saved id = some nd' ∧ nd.Like nd'
  saved : ∀ id nd nd', c.kept.inodes id = some nd → c.saved id = some nd' →
    nd'.iIno = nd.iIno ∧ ∃ nd₁, c.evicted.decoded nd.iIno = .ok nd₁ ∧ nd'.Like nd₁
  savedNew : ∀ id, c.kept.nextInode ≤ id → c.saved id = none
  savedRoot : c.saved c.kept.sRoot = none

section Invariant

variable {disk : Nat → Bytes} {F : Aside} {s s' t t' : FS} {c : Both} {id id' v : Nat} {nd : Inode}

/-- States beside each other, with what they share read off from them. -/
theorem FS.Beside.settle (hF : F.Ok) (h : s.Beside F s') (saved : Nat → Option Inode) :
    ((Both.mk s s' F.place saved).aside F.disk).Ok ∧
      s.Beside ((Both.mk s s' F.place saved).aside F.disk) s' := by
  refine ⟨⟨hF.guarded, hF.zero, (h.table _ hF.guarded.super).trans hF.super, hF.inj, ?_, ?_⟩,
    ⟨h.sbi, h.bitmapBlocks, h.home, fun _ _ => rfl, h.data, h.marked⟩,
    ⟨rfl, rfl, h.pointers, h.inodes, fun id hid => (if_pos hid).symm, h.only⟩, h.dcache, h.bare,
    ?_, ?_⟩
  · show ∀ id id', F.place id = some id' → id < s.nextInode ∧ id' < s'.nextInode
    rw [h.next, h.next']
    exact hF.below
  · intro id hid
    have hid' : F.next ≤ id := h.next ▸ hid
    show (if F.place id = none then s.inodes id else none) = none
    split
    · rename_i hplace
      rw [h.out id hplace, hF.fresh id hid']
    · rfl
  · show ∀ dir name id, s.dcache dir name = some id → id < s.nextInode
    rw [h.next]
    exact h.named
  · show ∀ dir name, s'.nextInode ≤ dir → s'.dcache dir name = none
    rw [h.next']
    exact h.named'

/-- The record of a number that the device has is in the inode table. -/
theorem FS.decoded_congr (hs : t.block naiveSuperBlockBlock = s.block naiveSuperBlockBlock)
    (hb : t.block (inodeTableBlock (s.block naiveSuperBlockBlock) v) =
      s.block (inodeTableBlock (s.block naiveSuperBlockBlock) v)) : t.decoded v = s.decoded v := by
  rw [FS.decoded, FS.decoded, hs, hb]

theorem FS.Beside.onDevice (hF : F.Ok) (h : s.Beside F s') :
    s'.block naiveSuperBlockBlock = F.disk naiveSuperBlockBlock :=
  (h.toSameData.superBlock hF).trans (h.home _ hF.guarded.super)

/-- The inode table of the second state stays in a call. -/
theorem FS.Beside.decoded (hF : F.Ok) (h : s.Beside F s') {G : Aside} (hG : t.Beside G t')
    (hdisk : G.disk = F.disk) (htable : G.table = F.table) (hv : Disk.HasIno F.disk v) :
    t'.decoded v = s'.decoded v := by
  have hcache : ∀ b, Disk.Table F.disk b → t'.cache b = s'.cache b := fun b hb =>
    (hG.table b (hdisk ▸ hb)).trans ((congrFun htable b).trans (h.table b hb).symm)
  refine FS.decoded_congr (hcache _ hF.guarded.super) (hcache _ (.inr ⟨v, hv, ?_⟩))
  rw [h.onDevice hF]

theorem FS.NextIno.hasIno {ino : Nat} (h : s.NextIno ino)
    (hs : s.block naiveSuperBlockBlock = disk naiveSuperBlockBlock) : Disk.HasIno disk ino := by
  have hpos := h.pos
  have htotal := h.total
  rw [FS.totalInodes, hs, tdiv_eight] at htotal
  exact ⟨hpos, by split at htotal <;> omega⟩

end Invariant

/-! ## Calls -/

section Calls

variable {disk : Nat → Bytes} {G : Aside} {ans : Answers} {c c' : Both} {t t' : FS} {op op' : Op}
  {r : Int}

/-- A name that leads to an inode leads to no other one after a call. -/
theorem Both.Inv.once_call (h : c.Inv disk) (hd : DentryStep c.kept t op) : t.NamedOnce :=
  hd.once h.once fun dir name hid => Nat.lt_irrefl _ (h.beside.named dir name _ hid)

theorem Both.Inv.of_call (h : c.Inv disk) (hop : op.cached)
    (hloss : Act.Lossless disk c ans (.call op))
    (hstep : Step c.kept op ans r t) (hG : G.Ok) (ht : t.Beside G t') (hdisk : G.disk = disk)
    (htable : G.table = c.evicted.cache)
    (hout : ∀ id, G.place id = none → c.place id = none ∧ G.out id = (c.aside disk).out id)
    (hnext : c.kept.nextInode ≤ t.nextInode) : (Both.mk t t' G.place c.saved).Inv disk := by
  subst hdisk
  have hready := (h.beside.ready h.ok).1
  have hrooted := hstep.rooted hready h.rooted hop
  have hroot : t.sRoot = c.kept.sRoot := hrooted.sRoot.trans h.rooted.sRoot.symm
  have hnumbers := hstep.numbers hready hop
  obtain ⟨hok, hbeside⟩ := ht.settle hG c.saved
  refine ⟨hok, hbeside, hrooted, hstep.numbered hready h.numbered, fun id v hv => ?_,
    fun id k v hid hk => ?_, h.once_call (hstep.dentries hready hop), fun id nd hplace hnd => ?_,
    fun id nd nd' hnd hsaved => ?_, fun id hid => h.savedNew id (Nat.le_trans hnext hid),
    (congrArg c.saved hroot).trans h.savedRoot⟩
  · rcases hnumbers id v hv with hold | ⟨-, -, hfree⟩
    · rw [show (Both.mk t t' G.place c.saved).kept.sRoot = c.kept.sRoot from hroot]
      exact h.valid id v hold
    · exact .inr (hfree.hasIno (h.beside.home _ h.ok.guarded.super))
  · rcases hnumbers id v hid with hold | ⟨hmakes, rfl, hfree⟩ <;>
      rcases hnumbers k v hk with hold' | ⟨hmakes', rfl, hfree'⟩
    · exact h.apart id k v hold hold'
    · exact absurd hold (hloss hmakes' v hfree' id)
    · exact absurd hold' (hloss hmakes v hfree k)
    · rfl
  · obtain ⟨hplace', hsame⟩ := hout id hplace
    have hold : c.kept.inodes id = some nd := by
      rw [← hnd, ht.out id hplace, hsame]
      exact (if_pos hplace').symm
    exact h.out id nd hplace' hold
  · rcases hnumbers id nd.iIno (FS.number_of hnd) with hold | ⟨-, rfl, -⟩
    · obtain ⟨nd₀, hnd₀, hino⟩ := FS.number_eq_some.mp hold
      obtain ⟨hsame, nd₁, hdecode, hlike⟩ := h.saved id nd₀ nd' hnd₀ hsaved
      have hvalid : Disk.HasIno G.disk nd.iIno := by
        refine (h.valid id _ hold).resolve_left fun hid => ?_
        rw [hid, h.savedRoot] at hsaved
        cases hsaved
      rw [hino] at hsame hdecode
      exact ⟨hsame, nd₁, (h.beside.decoded h.ok ht rfl htable hvalid).trans hdecode, hlike⟩
    · rw [h.savedNew _ (Nat.le_refl _)] at hsaved
      cases hsaved

/-- What an act makes of the two states. -/
theorem Both.moved_same {id : Nat} {x : Option Inode}
    (h : t'.nextInode = c.evicted.nextInode) : c.moved t t' id x = ⟨t, t', c.place, c.saved⟩ :=
  if_pos h

theorem Both.moved_new (disk : Nat → Bytes) {id : Nat} {x : Option Inode} (n : Nat)
    (h : t'.nextInode = c.evicted.nextInode + 1) :
    c.moved t t' id x = ⟨t, t', ((c.aside disk).give id n).place,
      Function.update c.saved id x⟩ := if_neg (by omega)

/-- What the first run's code returns the second run's returns. -/
theorem Both.Inv.follows_call (h : c.Inv disk) (hallowed : Act.Allowed c ans (.call op))
    (hmoved : op.moved c.place = some op') :
    Follows ans op.prog c.kept op'.prog c.evicted (StillOrMade (c.aside disk)) :=
  follows_op h.ok h.beside hallowed.1 hmoved hallowed.2

/-- A call keeps the invariant. -/
theorem Both.Inv.call (h : c.Inv disk) (hallowed : Act.Allowed c ans (.call op))
    (hloss : Act.Lossless disk c ans (.call op)) (hmoved : op.moved c.place = some op')
    (hexec : c.call ans op op' = .ok c') : c'.Inv disk := by
  obtain ⟨r, t, hkept, hexec⟩ := exec_returns hexec
  obtain ⟨r', t', hevicted, hexec⟩ := exec_returns hexec
  cases hexec
  obtain ⟨q, u, hu, -, hbeside⟩ := h.follows_call hallowed hmoved r t hkept
  obtain ⟨rfl, rfl⟩ := Prod.mk.inj (Except.ok.inj (hevicted.symm.trans hu))
  rcases hbeside with ht | ht
  · rw [moved_same ht.next']
    exact h.of_call hallowed.1 hloss hkept h.ok ht rfl rfl (fun _ hid => ⟨hid, rfl⟩)
      (Nat.le_of_eq ht.next.symm)
  · have hG := h.ok.give (Nat.lt_succ_self c.kept.nextInode) (Nat.le_succ c.kept.nextInode)
    have hsaved : Function.update c.saved c.kept.nextInode none = c.saved := by
      rw [← h.savedNew c.kept.nextInode (Nat.le_refl _), Function.update_eq_self]
    rw [moved_new disk (c.kept.nextInode + 1) ht.next', hsaved]
    refine h.of_call hallowed.1 hloss hkept hG ht rfl rfl (fun id hid => ⟨?_, rfl⟩)
      (Nat.le_trans (Nat.le_succ _) (Nat.le_of_eq ht.next.symm))
    exact (Aside.place_of_give hid).2

end Calls

end NaiveFS
