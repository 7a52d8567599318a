import NaiveFS.AlikeDirs
import NaiveFS.AlikeFiles
import NaiveFS.Held

/-!
# Old bytes of free blocks

A block that is freed keeps its bytes. What a directory takes is cleared, what a file takes is
not. Two states that differ in the bytes of free data blocks only give the same replies to
the same requests, as long as every write extends its file from its end.
-/

namespace NaiveFS

open Bytes Prog

/-! ## Hidden bytes -/

/-- A block of the data area, which starts at `start`; the superblock is none. -/
def DataBlock (start : Int) (b : Nat) : Prop := start ≤ b ∧ b ≠ naiveSuperBlockBlock

/-- No file shows the byte: its block is free (or is block 0, which no pointer names), or the byte
is past the end of the file that holds the block. -/
def FS.Hidden (start : Int) (s : FS) (b o : Nat) : Prop :=
  DataBlock start b ∧ o < naiveBlockSize ∧ (¬ s.isMarked b ∨ b = 0 ∨
    ∃ id nd i, s.inodes id = some nd ∧ nd.isDir = false ∧ nd.slot i = some (b : Int) ∧
      nd.iSize ≤ (naiveBlockSize * i + o : Nat))

/-- A file of `s` is as it was, or its blocks are free. -/
def FilesStay (s t : FS) : Prop :=
  ∀ id nd, s.inodes id = some nd → nd.isDir = false →
    t.inodes id = some nd ∨ ∀ i c, nd.slot i = some c → ¬ t.isMarked c

section Hidden

variable {ans : Answers} {start : Int} {s s' t : FS} {id dir i b o pos : Nat} {d e nd : Inode}
  {name : Name} {mode : Nat} {r c : Int}

theorem FS.Hidden.within (h : s.Hidden start b o) :
    b ≠ toU64 naiveSuperBlockBlock ∧ o < naiveBlockSize := ⟨h.1.2, h.2.1⟩

/-- What a directory holds is not hidden. -/
theorem FS.Held.clearOf (h : s.Held) (hnd : s.inodes id = some nd) (hdir : nd.isDir = true) :
    nd.ClearOf (s.Hidden start) := by
  rintro i hi o ⟨hdata, -, hcase⟩
  have hslot : nd.slot i = some (nd.blockPointers i) :=
    Inode.slot_eq_some.mpr ⟨hi.bound, rfl, hi.attached⟩
  have hown : s.own (id, i) = some (nd.blockPointers i) :=
    (FS.own_of (k := (id, i)) hnd).trans hslot
  have hmarked := h.owned.marked _ _ hown
  have hb : ((toU64 (nd.blockPointers i) : Nat) : Int) = nd.blockPointers i := by
    obtain ⟨h0, h1, -⟩ := hmarked
    unfold toU64
    omega
  rw [hb] at hcase
  rcases hcase with hfree | hzero | ⟨id', nd', j, hnd', hfile, hslot', -⟩
  · exact hfree hmarked
  · have := hi.attached
    omega
  · have hown' : s.own (id', j) = some (nd.blockPointers i) :=
      (FS.own_of (k := (id', j)) hnd').trans hslot'
    have hid : id' = id := congrArg Prod.fst (h.owned.inj _ _ _ hown' hown)
    subst hid
    obtain rfl := Option.some.inj (hnd.symm.trans hnd')
    rw [hdir] at hfile
    cases hfile

/-- What an inode shows is not hidden. -/
theorem FS.Held.showsNone (h : s.Held) (hnd : s.inodes id = some nd) :
    nd.ShowsNone (s.Hidden start) := by
  rintro i hi o hsize ⟨hdata, -, hcase⟩
  have hslot : nd.slot i = some (nd.blockPointers i) :=
    Inode.slot_eq_some.mpr ⟨hi.bound, rfl, hi.attached⟩
  have hown : s.own (id, i) = some (nd.blockPointers i) :=
    (FS.own_of (k := (id, i)) hnd).trans hslot
  have hmarked := h.owned.marked _ _ hown
  have hb : ((toU64 (nd.blockPointers i) : Nat) : Int) = nd.blockPointers i := by
    obtain ⟨h0, h1, -⟩ := hmarked
    unfold toU64
    omega
  rw [hb] at hcase
  rcases hcase with hfree | hzero | ⟨id', nd', j, hnd', -, hslot', hpast⟩
  · exact hfree hmarked
  · have := hi.attached
    omega
  · have hown' : s.own (id', j) = some (nd.blockPointers i) :=
      (FS.own_of (k := (id', j)) hnd').trans hslot'
    have hpair := h.owned.inj _ _ _ hown' hown
    obtain ⟨rfl, rfl⟩ := Prod.mk.inj hpair
    obtain rfl := Option.some.inj (hnd.symm.trans hnd')
    omega

/-! ### What the operations on directories hide -/

/-- What was hidden stays so, but for the blocks that were taken. -/
theorem FilesStay.hidden (hstay : FilesStay s t) (h : Unfilled (s.Hidden start) s t b o) :
    t.Hidden start b o := by
  obtain ⟨⟨hdata, ho, hcase⟩, hmarks⟩ := h
  refine ⟨hdata, ho, ?_⟩
  rcases hcase with hfree | hzero | ⟨id, nd, i, hnd, hfile, hslot, hpast⟩
  · exact .inl fun hm => hfree (hmarks hm)
  · exact .inr (.inl hzero)
  · rcases hstay id nd hnd hfile with hkept | hfreed
    · exact .inr (.inr ⟨id, nd, i, hkept, hfile, hslot, hpast⟩)
    · exact .inl (hfreed i b hslot)

theorem Create.stay (hs : s.Ready) (hd : s.inodes dir = some d) (hdir : d.isDir = true)
    (hc : Create ans s dir d name mode r t) : FilesStay s t := by
  intro k nd hnd hfile
  have hk : k ≠ dir := by
    rintro rfl
    obtain rfl := Option.some.inj (hd.symm.trans hnd)
    rw [hdir] at hfile
    cases hfile
  have hne := hs.ne_next hnd
  have hentry {ino : Nat} {u : FS}
      (entry : AddEntry ans (s.fileMade ans d mode ino) dir d name ino r u) :
      u.inodes k = some nd :=
    ((entry.frame (hs.inodes_fileMade hd)).2.2.2 k hk).trans (hs.inodes_fileMade hnd)
  refine .inl ?_
  cases hc with
  | noInode | noMemory => exact hnd
  | notLinked free mem entry => exact (FS.inodes_dropInode_ne hne).trans (hentry entry)
  | linked free mem entry =>
      have hkept := hentry entry
      exact hkept

theorem Mkdir.stay (hs : s.Ready) (hd : s.inodes dir = some d) (hdir : d.isDir = true)
    (hm : Mkdir ans s dir d name mode r t) : FilesStay s t := by
  intro k nd hnd hfile
  have hk : k ≠ dir := by
    rintro rfl
    obtain rfl := Option.some.inj (hd.symm.trans hnd)
    rw [hdir] at hfile
    cases hfile
  have hne := hs.ne_next hnd
  have hentry {ino b : Nat} {u : FS}
      (entry : AddEntry ans (s.dirMade ans d mode ino b) dir d name ino r u) :
      u.inodes k = some nd :=
    ((entry.frame (hs.inodes_dirMade hd)).2.2.2 k hk).trans (hs.inodes_dirMade hnd)
  refine .inl ?_
  cases hm with
  | noInode | noMemory | noBlock | blockUnreadable => exact hnd
  | @notLinked _ c _ u free mem block read entry fail =>
      have hkept := hentry entry
      exact (FS.inodes_dropInode_ne (s := u.unmarkBlock c) hne).trans hkept
  | @linked _ _ u free mem block read entry =>
      have hkept : (u.mapInode dir Inode.addLink).inodes k = some nd :=
        (FS.inodes_mapInode_ne hk).trans (hentry entry)
      exact hkept

/-- Releasing an inode marks nothing, and frees every block it holds. -/
theorem FS.released_marks (s : FS) (nd : Inode) (hm : (s.released nd).isMarked c) :
    s.isMarked c ∧ (nd.Front → ∀ i, nd.slot i ≠ some c) := by
  obtain ⟨h0, h1, hbit⟩ := hm
  obtain ⟨hold, hrest⟩ := (FS.marked_freedSlots (by omega)).mp hbit
  refine ⟨⟨h0, h1, hold⟩, fun hfront i hi => ?_⟩
  obtain ⟨hi8, hp, hne⟩ := Inode.slot_eq_some.mp hi
  have hcount := hfront.lt_count i hi8 (by rw [hp]; exact hne)
  exact hrest i (Nat.zero_le i) (by omega) (by rw [hp]; exact hne) (by omega)

theorem Unlink.stay (h : s.Held) (hu : Unlink ans s dir name r t) :
    FilesStay s t ∧ ∀ c, t.isMarked c → s.isMarked c := by
  cases hu with
  | noDentry | notRemoved => exact ⟨fun _ _ hnd _ => .inl hnd, fun _ hm => hm⟩
  | @removed d nd id i j dentry parent target node stop =>
      have hmarks (c : Int) (hm : ((s.clearRecord d i j).removed dir name id nd).isMarked c) :=
        (s.clearRecord d i j).released_marks nd (c := c) hm
      refine ⟨fun k e he _ => ?_, fun c hm => (hmarks c hm).1⟩
      by_cases hk : k = id
      · subst hk
        obtain rfl := Option.some.inj (target.symm.trans he)
        exact .inr fun i c hi hm => (hmarks c hm).2 (h.front k nd target) i hi
      · exact .inl ((inodes_removed_ne hk).trans he)

theorem Rmdir.stay (hdir : ∀ d, s.inodes dir = some d → d.isDir = true)
    (hu : Rmdir ans s dir name r t) : FilesStay s t ∧ ∀ c, t.isMarked c → s.isMarked c := by
  cases hu with
  | noDentry | notDir | unreadable | notEmpty | notRemoved =>
      exact ⟨fun _ _ hnd _ => .inl hnd, fun _ hm => hm⟩
  | @removed d nd id i j dentry parent target node isDir empty stop =>
      have hmarks (c : Int) (hm : (((s.clearRecord d i j).mapInode dir Inode.dropLink).removed dir
          name id nd).isMarked c) : s.isMarked c := by
        have hreleased := (FS.released_marks _ nd (c := c) hm).1
        unfold FS.isMarked FS.marked at hreleased
        rw [FS.mapInode_sbi] at hreleased
        exact hreleased
      refine ⟨fun k e he hfile => .inl ?_, hmarks⟩
      have hk : k ≠ id := by
        rintro rfl
        obtain rfl := Option.some.inj (target.symm.trans he)
        rw [isDir] at hfile
        cases hfile
      have hkdir : k ≠ dir := by
        rintro rfl
        rw [hdir e he] at hfile
        cases hfile
      rw [inodes_removed_ne hk, FS.inodes_mapInode_ne hkdir]
      exact he

theorem naiveLookup_stay {q : Option (Except Int Nat)} (hs : s.Ready)
    (h : (naiveLookup dir name).exec ans s = .ok (q, t)) :
    FilesStay s t ∧ ∀ c, t.isMarked c → s.isMarked c := by
  obtain ⟨hsbi, hinodes⟩ := naiveLookup_loads hs h
  refine ⟨fun k e he _ => .inl ?_, fun c hm => ?_⟩
  · rcases hinodes with hsame | ⟨m, nd, -, -, hnew⟩
    · rw [hsame, he]
    · rw [hnew, hs.inodes_withNew he]
  · unfold FS.isMarked FS.marked at hm ⊢
    rwa [hsbi] at hm

/-! ### What a write hides -/

/-- Writing `len` bytes at `pos` extends the file from its end, and the blocks it attaches come
after its end. -/
def Inode.NoGap (nd : Inode) (pos len : Nat) : Prop :=
  0 ≤ nd.iSize ∧ (toU64 nd.iSize < pos + len →
    (pos : Int) ≤ nd.iSize ∧ nd.iSize ≤ naiveBlockSize * nd.blockCount)

/-- What a write to the file `nd` up to byte `stop` makes of it and of the bitmap: its blocks stay,
those it takes come after its end, and if it gets longer, then from within. -/
structure WriteShows (s t : FS) (nd nd' : Inode) (pos stop : Nat) : Prop where
  isDir : nd'.isDir = nd.isDir
  slots : ∀ i c, nd.slot i = some c → nd'.slot i = some c
  taken : ∀ b : Nat, t.isMarked b → s.isMarked b ∨ b = 0 ∨
    ∃ i : Nat, nd'.slot i = some (b : Int) ∧ nd.iSize ≤ (naiveBlockSize * i : Nat)
  size : nd'.iSize = nd.iSize ∨ (nd'.iSize = stop ∧ (pos : Int) ≤ nd.iSize)

/-- The blocks that were taken are attached after the others. -/
theorem Extend.taken (hnd : s.inodes id = some nd) (hfront : nd.Front) (he : Extend id s t)
    (he' : t.inodes id = some e) {b : Nat} (hm : t.isMarked b) : s.isMarked b ∨ b = 0 ∨
      ∃ i : Nat, e.slot i = some (b : Int) ∧ nd.blockCount ≤ i := by
  induction he generalizing e with
  | refl => exact .inl hm
  | @step t c e' grow free node low room ih =>
      obtain rfl := Option.some.inj (FS.inodes_setInode_self.symm.trans he')
      have hm' : (t.markBlock c).isMarked b := hm
      rcases (FS.isMarked_markBlock free.bitmap).mp hm' with hold | hnew
      · rcases ih node hold with h | h | ⟨i, hi, hcount⟩
        · exact .inl h
        · exact .inr (.inl h)
        · obtain ⟨hi8, hp, hne⟩ := Inode.slot_eq_some.mp hi
          have hlt := (grow.front hnd hfront node).lt_count i hi8 (by rw [hp]; exact hne)
          refine .inr (.inr ⟨i, Inode.slot_eq_some.mpr ⟨hi8, ?_, hne⟩, hcount⟩)
          show Function.update e'.blockPointers e'.blockCount.toNat (c : Int) i = _
          rw [Function.update_of_ne (by omega), hp]
      · by_cases hzero : b = 0
        · exact .inr (.inl hzero)
        obtain ⟨f, hf, hgrown⟩ := grow.grown hnd
        obtain rfl := Option.some.inj (node.symm.trans hf)
        have hcount := hgrown.count
        refine .inr (.inr ⟨e'.blockCount.toNat, Inode.slot_eq_some.mpr ⟨by omega, ?_, by omega⟩,
          by omega⟩)
        show Function.update e'.blockPointers e'.blockCount.toNat (c : Int) e'.blockCount.toNat = _
        rw [Function.update_self, hnew]

theorem naiveFileWrite_shows {data : List Byte} {q : Int × Nat} (hs : s.Held)
    (hnd : s.inodes id = some nd) (hgap : nd.NoGap pos data.length)
    (hmax : pos + data.length ≤ naiveMaxFileSize)
    (h : (naiveFileWrite id data pos).exec ans s = .ok (q, t)) :
    ∃ nd', t.inodes id = some nd' ∧ WriteShows s t nd nd' pos q.2 := by
  have hfront := hs.front id nd hnd
  obtain ⟨hlow, hend⟩ := hgap
  have htotal : toU64 ((pos : Int) + data.length) = pos + data.length := by
    unfold naiveMaxFileSize naiveBlockSize naiveBlockPerFile at hmax
    unfold toU64
    omega
  have hsize : (toU64 nd.iSize : Int) ≤ nd.iSize := by
    unfold toU64
    omega
  -- what the data part does once the blocks are there
  have hdata {u : FS} {e : Inode} (he : u.inodes id = some e) (hgrown : nd.Grown e)
      (htaken : ∀ b : Nat, u.isMarked b → s.isMarked b ∨ b = 0 ∨
        ∃ i : Nat, e.slot i = some (b : Int) ∧ nd.iSize ≤ (naiveBlockSize * i : Nat))
      (hexec : (fileWriteData id data pos).exec ans u = .ok (q, t)) :
      ∃ nd', t.inodes id = some nd' ∧ WriteShows s t nd nd' pos q.2 := by
    obtain ⟨hsbi, nd', hnd', hsame, hlen, hstop⟩ := fileWriteData_inode he hexec
    have hslot (i : Nat) : nd'.slot i = e.slot i := by
      unfold Inode.slot
      rw [hsame.blockPointers]
    refine ⟨nd', hnd', isDir_of_iMode (hsame.iMode.trans hgrown.iMode), fun i c hi => ?_,
      fun b hm => ?_, ?_⟩
    · obtain ⟨hi8, hp, hne⟩ := Inode.slot_eq_some.mp hi
      rw [hslot, Inode.slot_eq_some]
      refine ⟨hi8, ?_, hne⟩
      rw [hgrown.pointers i (hfront.lt_count i hi8 (by rw [hp]; exact hne)), hp]
    · unfold FS.isMarked FS.marked at hm
      rw [hsbi] at hm
      simp only [hslot]
      exact htaken b hm
    · rw [hlen, hgrown.iSize]
      split
      · exact .inr ⟨rfl, (hend (by omega)).1⟩
      · exact .inl rfl
  rw [naiveFileWrite, exec_bind_of (exec_inode hnd)] at h
  dsimp only at h
  rw [htotal, if_neg (by omega)] at h
  have hself : nd.Grown nd := ⟨rfl, rfl, rfl, Int.le_refl _, fun _ _ => rfl⟩
  split at h
  · rename_i hmore
    obtain ⟨ret, u, halloc, h1⟩ := exec_bind_ok.mp h
    obtain ⟨hret, hgrow⟩ := fileWriteAlloc_cases hs.bitmapBlocks halloc
    obtain ⟨e, he, hgrown⟩ := hgrow.grown hnd
    have hcount := (hend hmore).2
    have htaken (b : Nat) (hm : u.isMarked b) : s.isMarked b ∨ b = 0 ∨
        ∃ i : Nat, e.slot i = some (b : Int) ∧ nd.iSize ≤ (naiveBlockSize * i : Nat) := by
      rcases hgrow.taken hnd hfront he hm with hold | hzero | ⟨i, hi, hcount'⟩
      · exact .inl hold
      · exact .inr (.inl hzero)
      · refine .inr (.inr ⟨i, hi, ?_⟩)
        unfold naiveBlockSize at *
        omega
    rcases hret with rfl | rfl
    · rw [if_neg (by decide)] at h1
      exact hdata he hgrown htaken h1
    · rw [if_pos (by decide)] at h1
      cases h1
      refine ⟨e, he, isDir_of_iMode hgrown.iMode, fun i c hi => ?_, htaken, .inl hgrown.iSize⟩
      obtain ⟨hi8, hp, hne⟩ := Inode.slot_eq_some.mp hi
      rw [Inode.slot_eq_some]
      refine ⟨hi8, ?_, hne⟩
      rw [hgrown.pointers i (hfront.lt_count i hi8 (by rw [hp]; exact hne)), hp]
  · exact hdata hnd hself (fun b hm => .inl hm) h

/-- What was hidden stays so, but for the bytes that were written. -/
theorem WriteShows.hidden {stop : Nat} (hshow : WriteShows s t nd e pos stop) (hs : s.Held)
    (hnd : s.inodes id = some nd) (he : t.inodes id = some e) (hfile : nd.isDir = false)
    (hother : ∀ k, k ≠ id → t.inodes k = s.inodes k)
    (h : Unwritten (s.Hidden start) e pos stop b o) : t.Hidden start b o := by
  obtain ⟨⟨hdata, ho, hcase⟩, hout⟩ := h
  refine ⟨hdata, ho, ?_⟩
  -- a byte of the file past its old end is hidden unless it was written
  have hpast {i : Nat} (hb : (b : Int) < 4096) (hi : e.slot i = some (b : Int))
      (hold : nd.iSize ≤ (naiveBlockSize * i + o : Nat)) : ∃ id nd i, t.inodes id = some nd ∧
        nd.isDir = false ∧ nd.slot i = some (b : Int) ∧
        nd.iSize ≤ (naiveBlockSize * i + o : Nat) := by
    refine ⟨id, e, i, he, hshow.isDir.trans hfile, hi, ?_⟩
    rcases hshow.size with hsame | ⟨hstop, hpos⟩
    · rw [hsame]
      exact hold
    · by_contra hlt
      obtain ⟨hi8, hp, -⟩ := Inode.slot_eq_some.mp hi
      refine hout i hi8 ?_ ⟨by omega, by omega⟩
      rw [hp]
      exact toU64_natCast (by omega)
  rcases hcase with hfree | hzero | ⟨k, f, i, hf, hffile, hslot, hend⟩
  · by_cases hm : t.isMarked b
    · rcases hshow.taken b hm with hold | hzero | ⟨i, hi, hend⟩
      · exact absurd hold hfree
      · exact .inr (.inl hzero)
      · exact .inr (.inr (hpast hm.2.1 hi (by unfold naiveBlockSize at *; omega)))
    · exact .inl hm
  · exact .inr (.inl hzero)
  · by_cases hk : k = id
    · subst hk
      obtain rfl := Option.some.inj (hnd.symm.trans hf)
      have hmarked := hs.owned.marked (k, i) b ((FS.own_of (k := (k, i)) hnd).trans hslot)
      exact .inr (.inr (hpast hmarked.2.1 (hshow.slots i _ hslot) hend))
    · exact .inr (.inr ⟨k, f, i, (hother k hk).trans hf, hffile, hslot, hend⟩)

end Hidden

/-! ## Requests and replies -/

/-- A call of the module: an operation of the VFS, or a read. -/
inductive Request where
  | call (op : Op)
  | read (id len pos : Nat)

/-- What a call gives back. A lookup gives the inode it found, as it is in memory. -/
inductive Reply where
  | code (r : Int)
  | wrote (r : Int) (pos : Nat)
  | found (r : Option (Except Int Nat)) (nd : Option Inode)
  | bytes (r : Int) (pos : Nat) (out : List Byte)

def Request.prog : Request → K Reply
  | .call (.write id data pos) => do
    let (r, pos') ← naiveFileWrite id data pos
    pure (.wrote r pos')
  | .call (.lookup dir name) => do
    let found ← naiveLookup dir name
    match found with
    | some (.ok id) =>
      let nd ← Prog.read (·.inodes id)
      pure (.found found nd)
    | _ => pure (.found found none)
  | .call op => do
    let r ← op.prog
    pure (.code r)
  | .read id len pos => do
    let (r, pos', out) ← naiveFileRead id len pos
    pure (.bytes r pos' out)

/-- The replies to a list of requests; a fault ends them. -/
def serve (s : FS) : List (Request × Answers) → List (Except Fault Reply)
  | [] => []
  | (q, ans) :: rest =>
    match q.prog.exec ans s with
    | .ok (r, t) => .ok r :: serve t rest
    | .error x => [.error x]

/-- Every request meets `P` in the state it is served in. -/
def Serves (P : FS → Request → Answers → Prop) (s : FS) : List (Request × Answers) → Prop
  | [] => True
  | (q, ans) :: rest => P s q ans ∧ ∀ r t, q.prog.exec ans s = .ok (r, t) → Serves P t rest

/-- Directory operations are called on directories and writes on files; a write ends within the
largest file. -/
def Request.Typed (s : FS) : Request → Prop
  | .call (.create dir _ _) | .call (.mkdir dir _ _) | .call (.unlink dir _)
  | .call (.rmdir dir _) | .call (.lookup dir _) => ∀ d, s.inodes dir = some d → d.isDir = true
  | .call (.write id data pos) => pos + data.length ≤ naiveMaxFileSize ∧
    ∀ nd, s.inodes id = some nd → nd.isDir = false
  | .read .. => True

/-- A write leaves no gap; a lookup loads an inode that is not in the data area and has blocks of
its own. -/
def Request.Contained (start : Int) (s : FS) : Request → Prop
  | .call (.write id data pos) => ∀ nd, s.inodes id = some nd → nd.NoGap pos data.length
  | .call (.lookup dir name) => (Op.lookup dir name).LoadsOwn s ∧ ∀ ino, s.LooksUp dir name ino →
    ¬ DataBlock start (toU64 (inodeTableBlock (s.block naiveSuperBlockBlock) ino))
  | _ => True

/-- `s'` is `s` but for the bytes of data blocks that are not marked, and for what the device holds
under the buffers. -/
structure FS.SameButFree (s s' : FS) : Prop where
  rest : s' = s.withData s'.cache s'.disk
  free : ∀ b o, s'.cache b o ≠ s.cache b o →
    DataBlock s.dataStart b ∧ ¬ s.isMarked b ∧ o < naiveBlockSize

section Replies

variable {ans : Answers} {start : Int} {s s' t : FS} {op : Op} {q : Request}

/-- What two runs share after a request. -/
def StillAlike (start : Int) (r : Reply) (t : FS) (r' : Reply) (t' : FS) : Prop :=
  r' = r ∧ t.Held ∧ t.Alike (t.Hidden start) t'

theorem FilesStay.alike {t' : FS} (hstay : FilesStay s t)
    (h : t.Alike (Unfilled (s.Hidden start) s t) t') : t.Alike (t.Hidden start) t' :=
  h.mono (fun _ _ ho => hstay.hidden ho) fun _ _ ho => ho.within

/-- An operation on a directory that runs alike but for the blocks it takes. -/
theorem twin_code (hs : s.Held) (hread : Readable ans) (hload : op.LoadsOwn s)
    (htwin : Twin ans op.prog s op.prog s' fun r t r' t' => Same (Unfilled (s.Hidden start) s t)
      r t r' t')
    (hstay : ∀ r t, Step s op ans r t → FilesStay s t) :
    Twin ans (op.prog >>= fun r => pure (Reply.code r)) s
      (op.prog >>= fun r => pure (Reply.code r)) s' (StillAlike start) := by
  refine htwin.bind fun r t r' t' hstep hq => ?_
  obtain ⟨rfl, ht⟩ := hq
  exact Twin.pure ⟨rfl, Step.held hs (hread.attachReadable s op) hload hstep,
    (hstay _ _ hstep).alike ht⟩

/-- The same for one that takes no block. -/
theorem twin_same {α : Type} {p : K α} (htwin : Twin ans p s p s' (Same (s.Hidden start)))
    (hmarks : ∀ a t, p.exec ans s = .ok (a, t) → ∀ c, t.isMarked c → s.isMarked c) :
    Twin ans p s p s' fun r t r' t' => Same (Unfilled (s.Hidden start) s t) r t r' t' :=
  htwin.mono fun r t _ _ hp hq => ⟨hq.1, hq.2.unfilled fun b => hmarks r t hp b⟩

/-- Every request gets the same reply from states that differ in hidden bytes only. -/
theorem Request.twin (hs : s.Held) (h : s.Alike (s.Hidden start) s') (hread : Readable ans)
    (htyped : q.Typed s) (hcont : q.Contained start s) :
    Twin ans q.prog s q.prog s' (StillAlike start) := by
  have hclear : ∀ k d, s.inodes k = some d → d.isDir = true → d.ClearOf (s.Hidden start) :=
    fun k d hd hdir => hs.clearOf hd hdir
  cases q with
  | read id len pos =>
      refine (twin_naiveFileRead h fun nd hnd => hs.showsNone hnd).bind fun r t r' t' _ hq => ?_
      obtain ⟨rfl, rfl, rfl⟩ := hq
      exact Twin.pure ⟨rfl, hs, h⟩
  | call op =>
  cases op with
  | create dir name perm =>
      refine twin_code hs hread trivial (twin_naiveCreate hs.toReady hread h fun d hd =>
        hclear dir d hd (htyped d hd)) fun r t hstep => ?_
      obtain ⟨d, hd, hc⟩ := naiveCreate_cases hs.toReady hstep
      exact hc.stay hs.toReady hd (htyped d hd)
  | mkdir dir name mode =>
      refine twin_code hs hread trivial (twin_naiveMkdir hs.toReady hread h fun d hd =>
        hclear dir d hd (htyped d hd)) fun r t hstep => ?_
      obtain ⟨d, hd, hm⟩ := naiveMkdir_cases hs.toReady hstep
      exact hm.stay hs.toReady hd (htyped d hd)
  | unlink dir name =>
      have hstay (r : Int) (t : FS) (hstep : Step s (.unlink dir name) ans r t) :=
        (vfsUnlink_cases hs.toReady hstep).stay hs
      exact twin_code hs hread trivial (twin_same (twin_vfsUnlink h fun d hd =>
        hclear dir d hd (htyped d hd)) fun r t hstep => (hstay r t hstep).2)
        fun r t hstep => (hstay r t hstep).1
  | rmdir dir name =>
      have hstay (r : Int) (t : FS) (hstep : Step s (.rmdir dir name) ans r t) :=
        (vfsRmdir_cases hs.toReady hstep).stay htyped
      exact twin_code hs hread trivial (twin_same (twin_vfsRmdir h hclear htyped)
        fun r t hstep => (hstay r t hstep).2) fun r t hstep => (hstay r t hstep).1
  | lookup dir name =>
      -- a lookup may load an inode: its blocks must be as hidden as they were
      have htwin : Twin ans (naiveLookup dir name) s (naiveLookup dir name) s'
          (Same (s.Hidden start)) := by
        refine twin_naiveLookup h (fun d hd => hclear dir d hd (htyped d hd)) ?_
        intro d i j hd hslot hj hname hnone o ho
        exact hcont.2 _ ⟨hnone, d, i, j, hd, hslot, hj, hname, rfl⟩ ho.1
      refine (twin_same htwin fun a t hp => (naiveLookup_stay hs.toReady hp).2).bind
        fun r t r' t' hp hq => ?_
      obtain ⟨rfl, ht⟩ := hq
      have hstep : Step s (.lookup dir name) ans 0 t := by
        show (naiveLookup dir name >>= fun _ => pure 0).exec ans s = _
        rw [exec_bind_of hp]
        rfl
      have hheld := Step.held hs (hread.attachReadable s _) hcont.1 hstep
      have halike := (naiveLookup_stay hs.toReady hp).1.alike ht
      rcases r' with _ | ⟨x | id⟩
      · exact Twin.pure ⟨rfl, hheld, halike⟩
      · exact Twin.pure ⟨rfl, hheld, halike⟩
      · refine .bind_ok (exec_read _) (exec_read _) ?_
        rw [halike.inodes]
        exact Twin.pure ⟨rfl, hheld, halike⟩
  | write id data pos =>
      refine (twin_naiveFileWrite hs.bitmapBlocks h htyped.1).bind fun r t r' t' hp hq => ?_
      obtain ⟨rfl, ht⟩ := hq
      have hstep : Step s (.write id data pos) ans r'.1 t := by
        show (naiveFileWrite id data pos >>= fun q => pure q.1).exec ans s = _
        rw [exec_bind_of hp]
        rfl
      have hload : (Op.write id data pos).LoadsOwn s := trivial
      have hheld := Step.held hs (hread.attachReadable s _) hload hstep
      obtain ⟨nd, hnd⟩ := exec_inode_bind_ok hp
      obtain ⟨nd', hnd', hshow⟩ := naiveFileWrite_shows hs hnd (hcont nd hnd) htyped.1 hp
      refine Twin.pure ⟨rfl, hheld, (ht nd' hnd').mono (fun b o ho => ?_) fun _ _ ho => ho.within⟩
      exact hshow.hidden hs hnd hnd' (htyped.2 nd hnd)
        (fun k hk => (naiveFileWrite_cases hs.toReady hp).inodes hk) ho

/-- The replies to a whole list of requests. -/
theorem serve_alike {l : List (Request × Answers)} (hs : s.Held) (h : s.Alike (s.Hidden start) s')
    (hl : Serves (fun u q ans => Readable ans ∧ q.Typed u ∧ q.Contained start u) s l) :
    serve s' l = serve s l := by
  induction l generalizing s s' with
  | nil => rfl
  | cons x l ih =>
      obtain ⟨q, ans⟩ := x
      obtain ⟨⟨hread, htyped, hcont⟩, hrest⟩ := hl
      rw [serve, serve]
      rcases Request.twin hs h hread htyped hcont with
        ⟨x, hx, hx'⟩ | ⟨r, t, r', t', ht, ht', rfl, hheld, halike⟩
      · rw [hx, hx']
      · rw [ht, ht']
        dsimp only
        rw [ih hheld halike (hrest r' t ht)]

theorem held_mounted {disk : Nat → Bytes} (h : Mounted disk s) : s.Held := by
  refine ⟨h.ready, ?_, fun id nd hnd => ?_⟩
  · obtain ⟨-, ts, rfl⟩ := mounted_eq h
    exact owned_mounted disk ts
  · obtain ⟨-, ts, rfl⟩ := mounted_eq h
    obtain ⟨-, rfl⟩ := inodes_mounted hnd
    exact ⟨Int.le_refl 0, fun i _ hp => absurd rfl hp⟩

theorem Reach.held {disk : Nat → Bytes} {s0 : FS} (h0 : Mounted disk s0)
    (h : Reach (fun s op ans _ => AttachReadable s ans op ∧ op.LoadsOwn s) s0 s) : s.Held :=
  h.invariant (held_mounted h0) fun _ _ _ _ _ ht hP hstep => hstep.held ht hP.1 hP.2

theorem FS.SameButFree.alike (h : s.SameButFree s') : s.Alike (s.Hidden s.dataStart) s' := by
  refine ⟨h.rest, fun b o ho => ?_, fun _ _ ho => ho.within⟩
  by_contra hne
  obtain ⟨hdata, hfree, hbyte⟩ := h.free b o hne
  exact ho ⟨hdata, hbyte, .inl hfree⟩

end Replies

/-! ## The property -/

/-- States that differ in the bytes of free data blocks only give the same replies to every list
of requests in which writes leave no gap and lookups load inodes with blocks of their own. -/
theorem replies_ignore_free_blocks {disk : Nat → Bytes} {s0 s s' : FS}
    {l : List (Request × Answers)} (h0 : Mounted disk s0)
    (h : Reach (fun s op ans _ => AttachReadable s ans op ∧ op.LoadsOwn s) s0 s)
    (hsame : s.SameButFree s')
    (hl : Serves (fun u q ans => Readable ans ∧ q.Typed u ∧ q.Contained s.dataStart u) s l) :
    serve s' l = serve s l :=
  serve_alike (h.held h0) hsame.alike hl

/-! ### Two devices -/

/-- The device of `sampleDisk` with old bytes in block 133, which is free. -/
def staleDisk : Nat → Bytes :=
  Function.update (sampleDisk 128 1000 4 132) 133 fun o => if o < naiveBlockSize then 7 else 0

theorem staleDisk_mounted (ts : Timespec) : Mounted staleDisk (FS.mounted staleDisk ts) := by
  obtain ⟨hmagic, -⟩ := mounted_eq (sampleDisk_mounted 128 1000 4 132 ts)
  refine mounted_of_magic ?_ ts
  rwa [staleDisk, Function.update_of_ne (by decide)]

theorem staleDisk_sameButFree (ts : Timespec) :
    (FS.mounted (sampleDisk 128 1000 4 132) ts).SameButFree (FS.mounted staleDisk ts) := by
  have hstart : (FS.mounted (sampleDisk 128 1000 4 132) ts).dataStart = 132 :=
    show toInt32 (SuperBlock.dataBlockNo (sampleDisk 128 1000 4 132 1)) = 132 by decide +kernel
  have hfree : (FS.mounted (sampleDisk 128 1000 4 132) ts).marked 133 = false :=
    show (sampleDisk 128 1000 4 132 2).bit 133 = false by decide +kernel
  refine ⟨rfl, fun b o hne => ?_⟩
  have hne' : staleDisk b o ≠ sampleDisk 128 1000 4 132 b o := hne
  have hb : b = 133 := by
    by_contra hb
    rw [staleDisk, Function.update_of_ne hb] at hne'
    exact hne' rfl
  subst hb
  refine ⟨⟨by omega, by decide⟩, ?_, ?_⟩
  · rintro ⟨-, -, hm⟩
    have hm' : (FS.mounted (sampleDisk 128 1000 4 132) ts).marked 133 = true := hm
    rw [hfree] at hm'
    cases hm'
  · by_contra ho
    rw [staleDisk, Function.update_self, if_neg ho] at hne'
    exact hne' rfl

instance (nd : Inode) (pos len : Nat) : Decidable (nd.NoGap pos len) :=
  inferInstanceAs (Decidable (_ ∧ (_ → _)))

/-- A request that is typed as it should be, as a test. -/
def Request.typedIf (s : FS) : Request → Bool
  | .call (.create dir _ _) | .call (.unlink dir _) => (s.inodes dir).all (·.isDir)
  | .call (.write id data pos) => decide (pos + data.length ≤ naiveMaxFileSize) &&
    (s.inodes id).all fun nd => !nd.isDir
  | .read .. => true
  | _ => false

theorem Request.typed_of_typedIf {s : FS} {q : Request} (h : q.typedIf s = true) : q.Typed s := by
  cases q with
  | read => trivial
  | call op =>
  cases op with
  | create | unlink => exact fun d hd => by simpa [typedIf, hd] using h
  | write id data pos =>
      simp only [typedIf, Bool.and_eq_true, decide_eq_true_eq] at h
      exact ⟨h.1, fun nd hnd => by simpa [hnd] using h.2⟩
  | mkdir | rmdir | lookup => cases h

/-- A write leaves no gap, and there is no lookup. -/
def Request.noGapIf (s : FS) : Request → Bool
  | .call (.write id data pos) => (s.inodes id).all fun nd => decide (nd.NoGap pos data.length)
  | .call (.lookup ..) => false
  | _ => true

theorem Request.contained_of_noGapIf {s : FS} {q : Request} {start : Int}
    (h : q.noGapIf s = true) : q.Contained start s := by
  cases q with
  | read => trivial
  | call op =>
  cases op with
  | write id data pos => exact fun nd hnd => by simpa [noGapIf, hnd] using h
  | lookup => cases h
  | create | mkdir | unlink | rmdir => trivial

/-- Every request passes a test in the state it is served in. -/
def servesIf (ok : FS → Request → Bool) (s : FS) : List (Request × Answers) → Bool
  | [] => true
  | (q, ans) :: rest => ok s q &&
    match q.prog.exec ans s with
    | .ok (_, t) => servesIf ok t rest
    | .error _ => true

theorem Serves.of_servesIf {P : FS → Request → Answers → Prop} {ok : FS → Request → Bool} {s : FS}
    {l : List (Request × Answers)} (hP : ∀ s x, x ∈ l → ok s x.1 = true → P s x.1 x.2)
    (h : servesIf ok s l = true) : Serves P s l := by
  induction l generalizing s with
  | nil => trivial
  | cons x l ih =>
      obtain ⟨q, ans⟩ := x
      rw [servesIf, Bool.and_eq_true] at h
      refine ⟨hP s (q, ans) (by simp) h.1, fun r t ht =>
        ih (fun s x hx => hP s x (by simp [hx])) ?_⟩
      have hrest := h.2
      rw [ht] at hrest
      exact hrest

/-- The bytes of the last reply. -/
def lastBytes (l : List (Except Fault Reply)) : List Byte :=
  match l.getLast? with
  | some (.ok (.bytes _ _ out)) => out
  | _ => []

/-- A file is written and removed, another one takes its block and is extended from its end. -/
def reuseRequests : List (Request × Answers) :=
  [(.call (.create 0 (.letters 1 Nat.one_pos Name.one_le_max) 0o644), Answers.good default 0 0),
   (.call (.write 1 [1#8, 2#8, 3#8] 0), Answers.good default 0 0),
   (.call (.unlink 0 (.letters 1 Nat.one_pos Name.one_le_max)), Answers.good default 0 0),
   (.call (.create 0 (.letters 1 Nat.one_pos Name.one_le_max) 0o644), Answers.good default 0 0),
   (.call (.write 2 [4#8] 0), Answers.good default 0 0),
   (.call (.write 2 [5#8] 1), Answers.good default 0 0),
   (.read 2 8 0, Answers.good default 0 0)]

theorem reuse_shows_no_old_byte :
    serve (FS.mounted staleDisk default) reuseRequests
        = serve (FS.mounted (sampleDisk 128 1000 4 132) default) reuseRequests ∧
      lastBytes (serve (FS.mounted staleDisk default) reuseRequests) = [4#8, 5#8] := by
  have hcheck : servesIf (fun s q => q.typedIf s && q.noGapIf s)
      (FS.mounted (sampleDisk 128 1000 4 132) default) reuseRequests = true := by decide +kernel
  have hall : ∀ x ∈ reuseRequests, x.2 = Answers.good default 0 0 := by
    intro x hx
    simp only [reuseRequests, List.mem_cons, List.not_mem_nil, or_false] at hx
    rcases hx with rfl | rfl | rfl | rfl | rfl | rfl | rfl <;> rfl
  refine ⟨replies_ignore_free_blocks (sampleDisk_mounted 128 1000 4 132 default) .refl
    (staleDisk_sameButFree default) (.of_servesIf (fun s x hx hok => ?_) hcheck), by decide +kernel⟩
  rw [Bool.and_eq_true] at hok
  rw [hall x hx]
  exact ⟨fun _ _ _ => rfl, Request.typed_of_typedIf hok.1, Request.contained_of_noGapIf hok.2⟩

/-- A file is created, one byte is stored at byte 1, and two are read. -/
def gapRequests : List (Request × Answers) :=
  [(.call (.create 0 (.letters 1 Nat.one_pos Name.one_le_max) 0o644), Answers.good default 0 0),
   (.call (.write 1 [9#8] 1), Answers.good default 0 0),
   (.read 1 2 0, Answers.good default 0 0)]

/-- A write past the end of a file shows what its new block held before. -/
theorem gap_shows_old_byte : ¬ ∀ (disk disk' : Nat → Bytes) (s0 s s0' s' : FS)
    (l : List (Request × Answers)), Mounted disk s0 →
    Reach (fun s op ans _ => AttachReadable s ans op ∧ op.LoadsOwn s) s0 s → Mounted disk' s0' →
    Reach (fun s op ans _ => AttachReadable s ans op ∧ op.LoadsOwn s) s0' s' →
    s.SameButFree s' →
    Serves (fun u q ans => (∃ ts uid gid, ans = Answers.good ts uid gid) ∧ q.Typed u) s l →
    serve s' l = serve s l := by
  intro hall
  have hcheck : servesIf (fun s q => q.typedIf s)
      (FS.mounted (sampleDisk 128 1000 4 132) default) gapRequests = true := by decide +kernel
  have hgood : ∀ x ∈ gapRequests, x.2 = Answers.good default 0 0 := by
    intro x hx
    simp only [gapRequests, List.mem_cons, List.not_mem_nil, or_false] at hx
    rcases hx with rfl | rfl | rfl <;> rfl
  have hsame := hall _ _ _ _ _ _ gapRequests (sampleDisk_mounted 128 1000 4 132 default) .refl
    (staleDisk_mounted default) .refl (staleDisk_sameButFree default)
    (.of_servesIf (fun s x hx hok => ⟨⟨default, 0, 0, hgood x hx⟩, Request.typed_of_typedIf hok⟩)
      hcheck)
  have hzero : lastBytes (serve (FS.mounted (sampleDisk 128 1000 4 132) default) gapRequests)
      = [0#8, 9#8] := by decide +kernel
  have hseven : lastBytes (serve (FS.mounted staleDisk default) gapRequests) = [7#8, 9#8] := by
    decide +kernel
  rw [hsame, hzero] at hseven
  cases hseven

end NaiveFS
