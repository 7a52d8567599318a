import NaiveFS.Accounts
import NaiveFS.Contents
import NaiveFS.Lib.NameTree

/-!
# What a check of the file system finds

In a session that starts with only the root's number marked, whose calls succeed
and keep the VFS's rules, the state is always that of a sound file system: the
names form a tree over the inodes in memory, the inode bitmap has their numbers,
and the block bitmap has the blocks they hold besides those of the mount.
-/

namespace NaiveFS

open Bytes

/-! ## The tree of a state -/

/-- `.` or `..`. -/
def IsDot (n : List Byte) : Prop := n = dotBytes ∨ n = dotdotBytes

instance (n : List Byte) : Decidable (IsDot n) := inferInstanceAs (Decidable (_ ∨ _))

namespace FS

/-- The record in cell `p.2` of the directory at `p.1`, unless it is `.` or `..`. -/
def entryAt (s : FS) (p : Nat × Nat) : Option (List Byte × Nat) :=
  (s.inodes p.1).bind fun d =>
    if d.isDir = true ∧ p.2 < 24 then (s.recordAt d p.2).filter fun x => ¬ IsDot x.1 else none

/-- The names, numbers and dentries of a state. -/
def tree (s : FS) : NameTree Nat (List Byte) Nat where
  number := s.number
  entry := s.entryAt
  dentry := fun dir n id => ∃ name : Name, name.bytes = n ∧ s.dcache dir name = some id
  marked := s.numberMarked

end FS

section Entries

variable {ans : Answers} {s t u m : FS} {id dir k c : Nat} {d d' e nd nd' : Inode} {name : Name}
  {r : Int} {n : List Byte} {v : Nat}

theorem FS.entryAt_of (hd : s.inodes dir = some d) : s.entryAt (dir, k) =
    if d.isDir = true ∧ k < 24 then (s.recordAt d k).filter fun x => ¬ IsDot x.1 else none := by
  unfold FS.entryAt
  rw [hd]
  rfl

theorem FS.entryAt_eq_some : s.entryAt (dir, k) = some (n, v) ↔ ∃ d, s.inodes dir = some d ∧
    d.isDir = true ∧ k < 24 ∧ s.recordAt d k = some (n, v) ∧ ¬ IsDot n := by
  unfold FS.entryAt
  rw [Option.bind_eq_some_iff]
  constructor
  · rintro ⟨d, hd, hentry⟩
    split at hentry
    · rename_i hcell
      obtain ⟨hrecord, hdot⟩ := Option.filter_eq_some_iff.mp hentry
      exact ⟨d, hd, hcell.1, hcell.2, hrecord, by simpa using hdot⟩
    · cases hentry
  · rintro ⟨d, hd, hdir, hk, hrecord, hdot⟩
    refine ⟨d, hd, ?_⟩
    rw [if_pos ⟨hdir, hk⟩]
    exact Option.filter_eq_some_iff.mpr ⟨hrecord, by simpa using hdot⟩

theorem FS.entryAt_none (hd : s.inodes dir = none) (k : Nat) : s.entryAt (dir, k) = none := by
  unfold FS.entryAt
  rw [hd]
  rfl

/-- A directory with the same records has the same entries. -/
theorem FS.entryAt_congr (hd : s.inodes dir = some d) (hd' : t.inodes dir = some d')
    (hmode : d'.iMode = d.iMode) (hrecord : k < 24 → t.recordAt d' k = s.recordAt d k) :
    t.entryAt (dir, k) = s.entryAt (dir, k) := by
  rw [FS.entryAt_of hd, FS.entryAt_of hd', isDir_of_iMode hmode]
  by_cases hk : k < 24
  · rw [hrecord hk]
  · simp [hk]

theorem Untouched.entryAt (h : Untouched s t nd) (hd : s.inodes dir = some nd)
    (hd' : t.inodes dir = some nd) (k : Nat) : t.entryAt (dir, k) = s.entryAt (dir, k) :=
  FS.entryAt_congr hd hd' rfl fun hk => h.recordAt hk

/-- What is not a directory has no entries. -/
theorem FS.entryAt_file (hd : s.inodes dir = some d) (hfile : d.isDir = false) (k : Nat) :
    s.entryAt (dir, k) = none := by
  rw [FS.entryAt_of hd, if_neg fun h => by rw [hfile] at h; cases h.1]

/-- A directory whose records are `.` and `..` has no entries. -/
theorem FS.entryAt_dots (hd : s.inodes dir = some d)
    (hdots : ∀ k n v, k < 24 → s.recordAt d k = some (n, v) → IsDot n) (k : Nat) :
    s.entryAt (dir, k) = none := by
  rcases hentry : s.entryAt (dir, k) with _ | ⟨n, v⟩
  · rfl
  · obtain ⟨d', hd', _, hk, hrecord, hdot⟩ := FS.entryAt_eq_some.mp hentry
    obtain rfl := Option.some.inj (hd.symm.trans hd')
    exact absurd (hdots k n v hk hrecord) hdot

/-! ## `naive_create` and `naive_mkdir` add a node -/

/-- `m` is the state in which the entry is added: `s` with the new inode `e`,
its number marked, and nothing that the other inodes hold changed. -/
structure NodeMade (s m : FS) (e : Inode) (ino : Nat) : Prop where
  inodes : m.inodes = (s.withNew e).inodes
  bitmap : m.sbi.inodeBitmap = s.sbi.inodeBitmap.setBit (ino - 1)
  dcache : m.dcache = s.dcache
  untouched : ∀ k nd, s.inodes k = some nd → Untouched s m nd
  iIno : e.iIno = ino

/-- `t` is `u` with the new name's dentry, and links of the parent counted. -/
structure Relinked (u t : FS) (dir : Nat) (name : Name) (id : Nat) : Prop where
  cache : t.cache = u.cache
  bitmap : t.sbi.inodeBitmap = u.sbi.inodeBitmap
  inodes : ∀ k, k ≠ dir → t.inodes k = u.inodes k
  parent : ∀ d, u.inodes dir = some d → ∃ d', t.inodes dir = some d' ∧ d'.iIno = d.iIno ∧
    d'.iMode = d.iMode ∧ d'.blockPointers = d.blockPointers
  dcache : ∀ x n y, t.dcache x n = some y → (x = dir ∧ n = name ∧ y = id) ∨ u.dcache x n = some y

theorem NodeMade.inodes_old (made : NodeMade s m e v) (hs : s.Ready) (hnd : s.inodes k = some nd) :
    m.inodes k = some nd := by
  rw [made.inodes]
  exact hs.inodes_withNew hnd

section Made

variable {ino : Nat} (made : NodeMade s m e ino) (hs : s.Ready) (hd : s.inodes dir = some d)
  (entry : AddEntry ans m dir d name ino r u) (relink : Relinked u t dir name s.nextInode)
include made hs hd entry relink

theorem NodeMade.inodes_new : t.inodes s.nextInode = some e := by
  have hnext : dir ≠ s.nextInode := hs.ne_next hd
  rw [relink.inodes _ (Ne.symm hnext),
    (entry.frame (made.inodes_old hs hd)).2.2.2 _ (Ne.symm hnext),
    made.inodes, FS.inodes_withNew_self]

theorem NodeMade.inodes_ne {x : Nat} (hxdir : x ≠ dir) (hxnext : x ≠ s.nextInode) :
    t.inodes x = s.inodes x := by
  rw [relink.inodes x hxdir, (entry.frame (made.inodes_old hs hd)).2.2.2 x hxdir, made.inodes,
    FS.inodes_withNew_ne hxnext]

/-- The inodes there were, the parent apart, have their bytes. -/
theorem NodeMade.untouched_ne (howned : m.OwnedOnce) {x : Nat} {nd : Inode} (hxdir : x ≠ dir)
    (hnd : s.inodes x = some nd) : Untouched s t nd :=
  ((made.untouched x nd hnd).trans (entry.untouched howned (made.inodes_old hs hnd)
    (made.inodes_old hs hd) hxdir)).trans (.of_cache relink.cache)

end Made

/-- Adding the entry for the new inode adds it to the tree. -/
theorem NodeMade.added {ino : Nat} (made : NodeMade s m e ino) (hs : s.Ready) (howned : m.OwnedOnce)
    (hd : s.inodes dir = some d) (hdir : d.isDir = true)
    (entry : AddEntry ans m dir d name ino r u)
    (hd' : u.inodes dir = some d') (hino : d'.iIno = d.iIno) (hmode : d'.iMode = d.iMode)
    (cell : CellFilled m d u d' c (entryOf name ino)) (relink : Relinked u t dir name s.nextInode)
    (hdots : ∀ k n v, k < 24 → u.recordAt e k = some (n, v) → IsDot n) (free : s.NextIno ino)
    (hdot : ¬ IsDot name.bytes) (hshort : name.bytes.length ≤ 127)
    (habsent : ∀ k v, k < 24 → s.recordAt d k ≠ some (name.bytes, v)) :
    NameTree.Added s.tree t.tree dir c name.bytes s.nextInode ino := by
  have hpos := free.pos
  have hle := free.bitmap
  have hnew := made.inodes_new hs hd entry relink
  obtain ⟨d'', hd'', hino', hmode', hptr'⟩ := relink.parent d' hd'
  have hrecord (e : Inode) (k : Nat) : t.recordAt e k = u.recordAt e k :=
    recordAt_of_cache relink.cache e k
  have hparent (k : Nat) : t.recordAt d'' k = u.recordAt d' k := by
    rw [hrecord]
    unfold FS.recordAt FS.slotBlock
    rw [hptr']
  have hentry : entryOf name ino = some (name.bytes, ino) := by
    have hino : toU32 (ino : Int) = ino := toU32_natCast (by omega)
    unfold entryOf
    rw [hino, if_pos (by omega), List.take_of_length_le hshort]
  have hclear : ¬ s.numberMarked ino := by
    rintro ⟨_, hmark⟩
    rw [free.clear] at hmark
    cases hmark
  have hunborn : s.number s.nextInode = none := by
    rw [FS.number, hs.fresh _ (Nat.le_refl _)]
    rfl
  -- one goal for each thing an added record must leave or change
  refine ⟨hclear, hunborn, ?_, ?_, ?_, ?_, ?_, ?_, ?_, ?_⟩
  · -- the cell is free
    show s.entryAt (dir, c) = none
    rw [FS.entryAt_of hd, ← (made.untouched dir d hd).recordAt cell.bound, cell.empty]
    simp
  · intro k w hk
    obtain ⟨d0, hd0, _, hk24, hrec, _⟩ := FS.entryAt_eq_some.mp hk
    obtain rfl := Option.some.inj (hd.symm.trans hd0)
    exact habsent k w hk24 hrec
  · show t.number s.nextInode = some ino
    rw [FS.number_of hnew, made.iIno]
  · intro x hx
    show t.number x = s.number x
    by_cases hxdir : x = dir
    · subst hxdir
      rw [FS.number_of hd'', FS.number_of hd, hino', hino]
    · unfold FS.number
      rw [relink.inodes x hxdir, (entry.frame (made.inodes_old hs hd)).2.2.2 x hxdir, made.inodes,
        FS.inodes_withNew_ne hx]
  · show t.entryAt (dir, c) = some (name.bytes, ino)
    refine FS.entryAt_eq_some.mpr ⟨d'', hd'', ?_, cell.bound, ?_, hdot⟩
    · rwa [isDir_of_iMode (hmode'.trans hmode)]
    · rw [hparent, cell.new, hentry]
  · rintro ⟨x, k⟩ hne
    show t.entryAt (x, k) = s.entryAt (x, k)
    -- the directory's own cells, the new inode's (`.` and `..` at most), those of other inodes
    by_cases hxdir : x = dir
    · subst hxdir
      refine FS.entryAt_congr hd hd'' (hmode'.trans hmode) fun hk => ?_
      rw [hparent, cell.other k hk fun heq => hne (by rw [heq]),
        (made.untouched x d hd).recordAt hk]
    · by_cases hxnext : x = s.nextInode
      · subst hxnext
        rw [FS.entryAt_none (hs.fresh _ (Nat.le_refl _))]
        refine FS.entryAt_dots hnew (fun k n v hk hrec => ?_) k
        rw [hrecord] at hrec
        exact hdots k n v hk hrec
      · rcases hnd : s.inodes x with _ | nd
        · have hnone : t.inodes x = none :=
            (made.inodes_ne hs hd entry relink hxdir hxnext).trans hnd
          rw [FS.entryAt_none hnone, FS.entryAt_none hnd]
        · have hunt : Untouched s t nd :=
            made.untouched_ne hs hd entry relink howned hxdir hnd
          exact hunt.entryAt hnd
            ((made.inodes_ne hs hd entry relink hxdir hxnext).trans hnd) k
  · rintro x n y ⟨name', rfl, hcached⟩
    rcases relink.dcache x name' y hcached with ⟨rfl, rfl, rfl⟩ | hold
    · exact .inl ⟨rfl, rfl, rfl⟩
    · refine .inr ⟨name', rfl, ?_⟩
      rwa [entry.dcache, made.dcache] at hold
  · intro w
    have hbm : t.sbi.inodeBitmap = s.sbi.inodeBitmap.setBit (ino - 1) := by
      rw [relink.bitmap, entry.inodeBitmap, made.bitmap]
    exact numberMarked_mark hpos hbm

/-! ## `naive_unlink` and `naive_rmdir` remove a node -/

/-- The name of a record that `naive_rmdir` does not count. -/
theorem isDot_of_not_other {b : Bytes} {j : Nat} (h : isOther b j = false)
    (hino : DirRecord.iIno b j ≠ 0) : IsDot (DirRecord.name b j) := by
  have hcmp : strcmp (DirRecord.filename b j) dotBytes = 0 ∨
      strcmp (DirRecord.filename b j) dotdotBytes = 0 := by
    unfold isOther at h
    simp only [hino, ne_eq, not_false_eq_true, decide_true, Bool.true_and, Bool.and_eq_false_iff,
      decide_eq_false_iff_not, not_not] at h
    exact h
  rw [← DirRecord.filename_field]
  rcases hcmp with hdot | hdotdot
  · have hfield := (strcmp_eq_zero (by decide)).mp hdot
    have hlen := congrArg List.length hfield
    refine .inl ((field_extend ?_ (by decide)).trans hfield)
    rw [hlen]
    decide
  · have hfield := (strcmp_eq_zero (by decide)).mp hdotdot
    have hlen := congrArg List.length hfield
    refine .inr ((field_extend ?_ (by decide)).trans hfield)
    rw [hlen]
    decide

/-- A directory that `naive_rmdir` takes for empty has no entries. -/
theorem FindsNone.entryAt_none (hshape : nd.Prefix (· ≠ 0)) (hnd : s.inodes id = some nd)
    (h : FindsNone ans s nd .rmdirScan isOther) (k : Nat) : s.entryAt (id, k) = none := by
  refine FS.entryAt_dots hnd (fun k n v hk hrecord => ?_) k
  unfold FS.recordAt at hrecord
  split at hrecord
  · rename_i hused
    obtain ⟨rfl, _⟩ := Prod.mk.inj (Option.some.inj hrecord)
    have hslot : nd.Slot (k / 3) := ⟨hshape.lt_count (by omega) hused.1, by omega, hused.1⟩
    have hcount := hslot.count
    exact isDot_of_not_other ((h (k / 3) (by omega) hslot).2 (k % 3) (by omega)) hused.2
  · cases hrecord

theorem removed_dcache (dir : Nat) (name : Name) (id : Nat) (nd : Inode) :
    (s.removed dir name id nd).dcache = (s.setDentry dir name none).dcache := by
  obtain ⟨bm, im, hframe⟩ := s.released_frame nd
  show ((s.released nd).setDentry dir name none).dcache = _
  rw [hframe]
  rfl

/-- `m` is `s` with a record of the parent `d` cleared, and perhaps a link of it
not counted any more. -/
structure Cleared (s m : FS) (dir : Nat) (d : Inode) (i j : Nat) : Prop where
  cache : m.cache = (s.clearRecord d i j).cache
  sbi : m.sbi = s.sbi
  dcache : m.dcache = s.dcache
  inodes : ∀ k, k ≠ dir → m.inodes k = s.inodes k
  parent : ∃ d', m.inodes dir = some d' ∧ d'.iIno = d.iIno ∧ d'.iMode = d.iMode ∧
    d'.blockPointers = d.blockPointers

/-- Removing the inode after its record removes it from the tree. -/
theorem Cleared.removed {i j : Nat} (h : s.tree.Coherent naiveRootInodeNo) (howned : s.OwnedOnce)
    (hcleared : Cleared s m dir d i j) (hd : s.inodes dir = some d)
    (hdentry : s.dcache dir name = some id) (hnd : s.inodes id = some nd)
    (hempty : ∀ k, s.entryAt (id, k) = none) (hshort : name.bytes.length ≤ 127)
    (hle : nd.iIno ≤ 4096) {site : Site} (stop : StopsAt ans s d site (isNamed name) i j) :
    NameTree.Removed s.tree (m.removed dir name id nd).tree dir
      (3 * i + j) name.bytes id nd.iIno := by
  have hi := stop.slot.bound
  have hj := stop.bound
  have hp := stop.slot.attached
  have hnumber : s.number id = some nd.iIno := FS.number_of hnd
  have hpos : 1 ≤ nd.iIno := (h.numbers.marked id nd.iIno hnumber).1
  -- the entry that the dentry stands for is the one the scan found
  have hentry : s.entryAt (dir, 3 * i + j) = some (name.bytes, nd.iIno) := by
    obtain ⟨k, v, hk, hv⟩ := h.reached dir name.bytes id ⟨name, rfl, hdentry⟩
    obtain rfl : nd.iIno = v := Option.some.inj (hnumber.symm.trans hv)
    obtain ⟨d0, hd0, hdir, _, _, hdot⟩ := FS.entryAt_eq_some.mp hk
    obtain rfl := Option.some.inj (hd.symm.trans hd0)
    have hrecord := stop.recordAt_named
    rw [Name.key_of_short hshort] at hrecord
    have hcell := FS.entryAt_eq_some.mpr ⟨d, hd, hdir, by omega, hrecord, hdot⟩
    rw [h.unique dir (3 * i + j) k name.bytes _ nd.iIno hcell hk]
    exact hk
  have hne : dir ≠ id := by
    rintro rfl
    rw [hempty] at hentry
    cases hentry
  obtain ⟨d', hd', hino', hmode', hptr'⟩ := hcleared.parent
  have hcache : (m.removed dir name id nd).cache = (s.clearRecord d i j).cache :=
    (removed_cache m dir name id nd).trans hcleared.cache
  have hparent (k : Nat) : (m.removed dir name id nd).recordAt d' k
      = (s.clearRecord d i j).recordAt d k := by
    rw [recordAt_of_cache hcache]
    unfold FS.recordAt FS.slotBlock
    rw [hptr']
  have hdir' : (m.removed dir name id nd).inodes dir = some d' := (inodes_removed_ne hne).trans hd'
  obtain ⟨hnone, hkeep⟩ := howned.cell_cleared hd hi hp hj
  refine ⟨hnumber, hentry, number_removed_self dir name id nd, ?_, ?_, ?_, ?_, ?_⟩
  · intro x hx
    show (m.removed dir name id nd).number x = s.number x
    rw [number_removed_ne hx]
    by_cases hxdir : x = dir
    · subst hxdir
      rw [FS.number_of hd', FS.number_of hd, hino']
    · unfold FS.number
      rw [hcleared.inodes x hxdir]
  · show (m.removed dir name id nd).entryAt (dir, 3 * i + j) = none
    rw [FS.entryAt_of hdir', hparent, hnone]
    simp
  · rintro ⟨x, k⟩ hcell
    show (m.removed dir name id nd).entryAt (x, k) = s.entryAt (x, k)
    by_cases hxid : x = id
    · subst hxid
      have hgone : (m.removed dir name x nd).inodes x = none := FS.inodes_dropInode_self
      rw [hempty, FS.entryAt_none hgone]
    by_cases hxdir : x = dir
    · subst hxdir
      refine FS.entryAt_congr hd hdir' hmode' fun hk => ?_
      rw [hparent, hkeep k hk fun heq => hcell (by rw [heq])]
    · have hsame : (m.removed dir name id nd).inodes x = s.inodes x :=
        (inodes_removed_ne hxid).trans (hcleared.inodes x hxdir)
      rcases hx : s.inodes x with _ | e
      · rw [FS.entryAt_none hx, FS.entryAt_none (hsame.trans hx)]
      · have hunt : Untouched s (s.clearRecord d i j) e := howned.untouched hx hd hxdir hi hp _
        exact (hunt.trans (.of_cache hcache)).entryAt hx (hsame.trans hx) k
  · rintro x n y ⟨name', rfl, hcached⟩
    have hcached' : (m.setDentry dir name none).dcache x name' = some y := by
      rwa [removed_dcache] at hcached
    rw [FS.dcache_setDentry] at hcached'
    split at hcached'
    · cases hcached'
    · rename_i hother
      refine ⟨⟨name', rfl, by rwa [hcleared.dcache] at hcached'⟩, fun heq => hother ⟨heq.1, ?_⟩⟩
      exact Name.ext' heq.2
  · intro w
    refine (numberMarked_removed hpos hle dir name id).trans (and_congr_left fun _ => ?_)
    exact numberMarked_congr (by rw [hcleared.sbi]) w

end Entries

/-! ## Sound states -/

/-- What the callers keep to: names are made only where they are not yet, below
128 characters and not `.` or `..`, in directories that have room; `unlink` is for
files, and so is `write`. `naive_rmdir` itself sees that it has a directory. -/
def Op.Lawful (s : FS) : Op → Prop
  | .create dir name _ | .mkdir dir name _ =>
      ¬ IsDot name.bytes ∧ name.bytes.length ≤ 127 ∧ ∀ d, s.inodes dir = some d →
        d.isDir = true ∧ s.Room d ∧ ∀ k v, k < 24 → s.recordAt d k ≠ some (name.bytes, v)
  | .unlink dir name => name.bytes.length ≤ 127 ∧
      ∀ id nd, s.dcache dir name = some id → s.inodes id = some nd → nd.isDir = false
  | .rmdir _ name => name.bytes.length ≤ 127
  | .write id _ _ => ∀ nd, s.inodes id = some nd → nd.isDir = false
  | .lookup .. => False

theorem Op.Lawful.cached {s : FS} {op : Op} (h : op.Lawful s) : op.cached := by
  cases op with
  | lookup => exact h.elim
  | create | mkdir | unlink | rmdir | write => trivial

instance (s : FS) (d : Inode) : Decidable (s.Room d) :=
  inferInstanceAs (Decidable ((∃ k, k < d.records ∧ s.recordAt d k = none) ∨ d.blockCount < 8))

/-- No record of the directory has the name. -/
def FS.lacks (s : FS) (d : Inode) (n : List Byte) : Bool :=
  (List.range 24).all fun k => (s.recordAt d k).all fun x => x.1 ≠ n

theorem FS.lacks_iff {s : FS} {d : Inode} {n : List Byte} :
    s.lacks d n = true ↔ ∀ k v, k < 24 → s.recordAt d k ≠ some (n, v) := by
  unfold FS.lacks
  rw [List.all_eq_true]
  constructor
  · intro h k v hk hrecord
    have := h k (List.mem_range.mpr hk)
    rw [hrecord] at this
    simp at this
  · intro h k hk
    rw [Option.all_eq_true]
    rintro ⟨m, v⟩ hrecord
    have hne : m ≠ n := by
      rintro rfl
      exact h k v (List.mem_range.mp hk) hrecord
    simpa using hne

instance (s : FS) (op : Op) : Decidable (op.Lawful s) :=
  match op with
  | .create dir name _ | .mkdir dir name _ =>
      decidable_of_iff (¬ IsDot name.bytes ∧ name.bytes.length ≤ 127 ∧ (s.inodes dir).all
        (fun d => decide (d.isDir = true ∧ s.Room d ∧ s.lacks d name.bytes = true)) = true)
        (by simp [Op.Lawful, Option.all_eq_true, FS.lacks_iff])
  | .unlink dir name =>
      decidable_of_iff (name.bytes.length ≤ 127 ∧ (s.dcache dir name).all
        (fun id => (s.inodes id).all fun nd => nd.isDir = false) = true)
        (by simp only [Op.Lawful, Option.all_eq_true, decide_eq_true_eq]; grind)
  | .rmdir _ name => inferInstanceAs (Decidable (name.bytes.length ≤ 127))
  | .write id _ _ =>
      decidable_of_iff ((s.inodes id).all (fun nd => nd.isDir = false) = true)
        (by simp [Op.Lawful, Option.all_eq_true])
  | .lookup .. => .isFalse id

/-- The invariant: the block maps, both bitmaps and the names. -/
structure FS.Sound (disk : Nat → Bytes) (s : FS) : Prop where
  ready : s.Ready
  mapped : s.Mapped (· = naiveSuperBlockBlock) disk
  blocks : s.Accounted disk
  names : s.tree.Ok naiveRootInodeNo
  small : ∀ id v, s.number id = some v → v ≤ 4096

section Sound

variable {disk : Nat → Bytes} {ans : Answers} {s t : FS} {id dir : Nat} {d nd : Inode}
  {name : Name} {r : Int}

theorem FS.Sound.shape (hg : Disk.Guarded (· = naiveSuperBlockBlock) disk) (h : s.Sound disk)
    (hnd : s.inodes id = some nd) : nd.Prefix (· ≠ 0) :=
  (h.mapped.node id nd hnd).mono fun _ hp => hp.ne_zero hg

/-- Block 0 is never given out. -/
theorem FS.Mapped.not_nextFree_zero {M : Nat → Prop} (hg : Disk.Guarded M disk)
    (h : s.Mapped M disk) : ¬ s.NextFree 0 :=
  fun free => (h.freeData hg free).ne_zero hg rfl

theorem FS.Sound.owned (h : s.Sound disk) : s.OwnedOnce := h.blocks.toExclusive

theorem FS.Room.of_untouched {m : FS} (h : s.Room d) (hshape : d.Prefix (· ≠ 0))
    (hunt : Untouched s m d) : m.Room d := by
  rcases h with ⟨k, hk, hnone⟩ | hcount
  · have hle := hshape.count_le
    refine .inl ⟨k, hk, ?_⟩
    rw [hunt.recordAt (by unfold Inode.records at hk; omega), hnone]
  · exact .inr hcount

/-! ### Each operation -/

theorem fileMade_made {mode ino : Nat} :
    NodeMade s (s.fileMade ans d mode ino) (Inode.newFile ans d mode ino) ino :=
  ⟨rfl, rfl, rfl, fun _ _ _ => .of_cache rfl, newFile_iIno ans d mode ino⟩

theorem dirMade_made {mode ino b : Nat} (h : s.OwnedOnce) (free : s.NextFree b) :
    NodeMade s (s.dirMade ans d mode ino b) (Inode.newDir ans d mode ino b) ino :=
  ⟨rfl, rfl, rfl, fun _ _ hnd => h.untouched_dirMade hnd free, newDir_iIno ans d mode ino b⟩

/-- The numbers stay below the end of the bitmap. -/
theorem small_added {c : Nat} {v : Nat} {n : List Byte} {b : Nat}
    (h : ∀ id v, s.number id = some v → v ≤ 4096) (hv : v ≤ 4096)
    (hadd : NameTree.Added s.tree t.tree dir c n b v) :
    ∀ id v, t.number id = some v → v ≤ 4096 := by
  intro x w hw
  rcases (hadd.number_iff x).mp hw with hold | ⟨_, rfl⟩
  · exact h x w hold
  · exact hv

theorem small_removed {c : Nat} {v : Nat} {n : List Byte} {b : Nat}
    (h : ∀ id v, s.number id = some v → v ≤ 4096)
    (hrem : NameTree.Removed s.tree t.tree dir c n b v) :
    ∀ id v, t.number id = some v → v ≤ 4096 := by
  intro x w hw
  by_cases hx : x = b
  · subst hx
    have := hrem.number_self.symm.trans hw
    cases this
  · exact h x w ((hrem.number_ne x hx).symm.trans hw)

theorem FS.Accounted.fileMade {mode ino : Nat} (h : s.Accounted disk) (hs : s.Ready) :
    (s.fileMade ans d mode ino).Accounted disk := by
  refine h.congr (fun ⟨k, i⟩ => ?_) fun _ => Iff.rfl
  by_cases hk : k = s.nextInode
  · subst hk
    have hnew : (s.fileMade ans d mode ino).inodes s.nextInode
        = some (Inode.newFile ans d mode ino) := FS.inodes_withNew_self
    rw [FS.own_of (k := (s.nextInode, i)) hnew, newFile_slot, FS.own,
      hs.fresh _ (Nat.le_refl _)]
    rfl
  · have hold : (s.fileMade ans d mode ino).inodes k = s.inodes k := FS.inodes_withNew_ne hk
    unfold FS.own
    rw [hold]

theorem FS.Accounted.dirMade {mode ino b : Nat} (h : s.Accounted disk) (hs : s.Ready)
    (free : s.NextFree b) (hb : (b : Int) ≠ 0) : (s.dirMade ans d mode ino b).Accounted disk := by
  refine h.attach (j := 0) s.nextInode free fun i c => ?_
  have hnone : s.own (s.nextInode, i) = none := by
    rw [FS.own, hs.fresh _ (Nat.le_refl _)]
    rfl
  rw [hnone]
  constructor
  · exact fun hi => .inr (newDir_slot hi)
  · rintro (hi | ⟨rfl, rfl⟩)
    · cases hi
    · exact Inode.slot_eq_some.mpr ⟨by omega, newDir_pointer ans d mode ino b, hb⟩

/-- Where the new entry of a created file is, and that it is one more in the tree. -/
theorem AddEntry.created {mode ino : Nat} (hg : Disk.Guarded (· = naiveSuperBlockBlock) disk)
    (hs : s.Ready) (howned : s.OwnedOnce) (hmapped : s.Mapped (· = naiveSuperBlockBlock) disk)
    (hd : s.inodes dir = some d) (hdir : d.isDir = true) (hroom : s.Room d)
    (hdot : ¬ IsDot name.bytes) (hshort : name.bytes.length ≤ 127)
    (habsent : ∀ k v, k < 24 → s.recordAt d k ≠ some (name.bytes, v)) (free : s.NextIno ino)
    (entry : AddEntry ans (s.fileMade ans d mode ino) dir d name ino 0 t) :
    ∃ d' c, t.inodes dir = some d' ∧ d'.iMode = d.iMode ∧
      Relinked t (t.setDentry dir name (some s.nextInode)) dir name s.nextInode ∧
      NameTree.Added s.tree (t.setDentry dir name (some s.nextInode)).tree dir c name.bytes
        s.nextInode ino := by
  have hshape : d.Prefix (· ≠ 0) := (hmapped.node dir d hd).mono fun _ hp => hp.ne_zero hg
  have made : NodeMade s (s.fileMade ans d mode ino) (Inode.newFile ans d mode ino) ino :=
    fileMade_made
  have hmade : (s.fileMade ans d mode ino).OwnedOnce := fileMade_owned howned
  have hmd : (s.fileMade ans d mode ino).inodes dir = some d := hs.inodes_fileMade hd
  obtain ⟨d', c, hd', hino, hmode, hcell⟩ := entry.cell hmade hmd hshape
    (hroom.of_untouched hshape (made.untouched dir d hd)) (hmapped.fileMade.not_nextFree_zero hg)
    (Int.le_refl 0)
  have relink : Relinked t (t.setDentry dir name (some s.nextInode)) dir name s.nextInode := by
    refine ⟨rfl, rfl, fun _ _ => rfl, fun d' hd' => ⟨d', hd', rfl, rfl, rfl⟩, fun x n y hy => ?_⟩
    rw [FS.dcache_setDentry] at hy
    split at hy
    · rename_i heq
      exact .inl ⟨heq.1, heq.2, (Option.some.inj hy).symm⟩
    · exact .inr hy
  refine ⟨d', c, hd', hmode, relink, ?_⟩
  refine made.added hs hmade hd hdir entry hd' hino hmode hcell relink (fun k n v _ hk => ?_) free
    hdot hshort habsent
  obtain ⟨_, hptr, _⟩ := initOwner_fields { iNlink := 1, iIno := ino } d
    (ans .currentFsuid) (ans .currentFsgid) mode
  have hnone : t.recordAt (Inode.newFile ans d mode ino) k = none :=
    if_neg fun hp => hp.1 (congrFun hptr _)
  rw [hnone] at hk
  cases hk

/-- The same of a new directory. -/
theorem AddEntry.madeDir {mode ino b : Nat} (hg : Disk.Guarded (· = naiveSuperBlockBlock) disk)
    (hs : s.Ready) (howned : s.OwnedOnce) (hmapped : s.Mapped (· = naiveSuperBlockBlock) disk)
    (hd : s.inodes dir = some d) (hdir : d.isDir = true) (hroom : s.Room d)
    (hdot : ¬ IsDot name.bytes) (hshort : name.bytes.length ≤ 127)
    (habsent : ∀ k v, k < 24 → s.recordAt d k ≠ some (name.bytes, v)) (free : s.NextIno ino)
    (block : s.NextFree b) (entry : AddEntry ans (s.dirMade ans d mode ino b) dir d name ino 0 t) :
    ∃ d' c, t.inodes dir = some d' ∧ d'.iMode = d.iMode ∧
      Relinked t ((t.mapInode dir Inode.addLink).setDentry dir name (some s.nextInode)) dir name
        s.nextInode ∧
      NameTree.Added s.tree
        ((t.mapInode dir Inode.addLink).setDentry dir name (some s.nextInode)).tree dir c
        name.bytes s.nextInode ino := by
  have hshape : d.Prefix (· ≠ 0) := (hmapped.node dir d hd).mono fun _ hp => hp.ne_zero hg
  have made : NodeMade s (s.dirMade ans d mode ino b) (Inode.newDir ans d mode ino b) ino :=
    dirMade_made howned block
  have hmade : (s.dirMade ans d mode ino b).OwnedOnce := dirMade_owned howned block
  have hmd : (s.dirMade ans d mode ino b).inodes dir = some d := hs.inodes_dirMade hd
  obtain ⟨d', c, hd', hino, hmode, hcell⟩ := entry.cell hmade hmd hshape
    (hroom.of_untouched hshape (made.untouched dir d hd))
    ((hmapped.dirMade hg block).not_nextFree_zero hg) (Int.le_refl 0)
  have relink : Relinked t ((t.mapInode dir Inode.addLink).setDentry dir name
      (some s.nextInode)) dir name s.nextInode := by
    refine ⟨mapInode_cache _ _ _, congrArg SbInfo.inodeBitmap (FS.mapInode_sbi _ _ _),
      fun k hk => FS.inodes_mapInode_ne hk, fun e he => ⟨Inode.addLink e, ?_, rfl, rfl, rfl⟩,
      fun x n y hy => ?_⟩
    · show (t.mapInode dir Inode.addLink).inodes dir = _
      rw [FS.mapInode_of he, FS.inodes_setInode_self]
    · rw [FS.dcache_setDentry] at hy
      split at hy
      · rename_i heq
        exact .inl ⟨heq.1, heq.2, (Option.some.inj hy).symm⟩
      · rw [mapInode_dcache] at hy
        exact .inr hy
  refine ⟨d', c, hd', hmode, relink, ?_⟩
  exact made.added hs hmade hd hdir entry hd' hino hmode hcell relink
    (fun k n v _ hk => (newDir_record (fun hb => entry.newDir_block hs howned hd block hb)
      hk).imp And.right And.right) free hdot hshort habsent

theorem Create.sound {mode : Nat} (hg : Disk.Guarded (· = naiveSuperBlockBlock) disk)
    (h : s.Sound disk) (hd : s.inodes dir = some d) (hdir : d.isDir = true) (hroom : s.Room d)
    (hdot : ¬ IsDot name.bytes) (hshort : name.bytes.length ≤ 127)
    (habsent : ∀ k v, k < 24 → s.recordAt d k ≠ some (name.bytes, v))
    (hc : Create ans s dir d name mode r t) (hr : 0 ≤ r) : t.Sound disk := by
  have ht := hc.ready h.ready hd
  have hmap := hc.mapped hg h.ready h.mapped hd
  have hshape := h.shape hg hd
  cases hc with
  | noInode | noMemory => exact absurd hr (by decide)
  | notLinked _ _ _ fail => omega
  | @linked ino u free mem entry =>
      obtain ⟨_, _, -, -, -, hadd⟩ := entry.created hg h.ready h.owned h.mapped hd hdir hroom hdot
        hshort habsent free
      have hblocks : u.Accounted disk :=
        (h.blocks.fileMade h.ready).entry (h.ready.inodes_fileMade hd) hshape
          (hroom.of_untouched hshape (fileMade_made.untouched dir d hd))
          (h.mapped.fileMade.not_nextFree_zero hg) entry hr
      exact ⟨ht, hmap, hblocks, h.names.added hadd, small_added h.small free.bitmap hadd⟩

theorem Mkdir.sound {mode : Nat} (hg : Disk.Guarded (· = naiveSuperBlockBlock) disk)
    (h : s.Sound disk) (hd : s.inodes dir = some d) (hdir : d.isDir = true) (hroom : s.Room d)
    (hdot : ¬ IsDot name.bytes) (hshort : name.bytes.length ≤ 127)
    (habsent : ∀ k v, k < 24 → s.recordAt d k ≠ some (name.bytes, v))
    (hm : Mkdir ans s dir d name mode r t) (hr : 0 ≤ r) : t.Sound disk := by
  have ht := hm.ready h.ready hd
  have hmap := hm.mapped hg h.ready h.mapped hd
  have hshape := h.shape hg hd
  cases hm with
  | noInode | noMemory | noBlock | blockUnreadable => exact absurd hr (by decide)
  | notLinked _ _ _ _ _ fail => omega
  | @linked ino b u free mem block read entry =>
      have hb : (b : Int) ≠ 0 := (h.mapped.freeData hg block).ne_zero hg
      obtain ⟨_, _, -, -, -, hadd⟩ := entry.madeDir hg h.ready h.owned h.mapped hd hdir hroom hdot
        hshort habsent free block
      have hblocks : u.Accounted disk :=
        (h.blocks.dirMade h.ready block hb).entry (h.ready.inodes_dirMade hd) hshape
          (hroom.of_untouched hshape (h.owned.untouched_dirMade hd block))
          ((h.mapped.dirMade hg block).not_nextFree_zero hg) entry hr
      refine ⟨ht, hmap, ?_, h.names.added hadd, small_added h.small free.bitmap hadd⟩
      have hlinked : (u.mapInode dir Inode.addLink).Accounted disk := by
        refine hblocks.congr (fun k => FS.own_mapInode fun _ _ => rfl) fun c => ?_
        unfold FS.isMarked FS.marked
        rw [FS.mapInode_sbi]
      exact hlinked

theorem Unlink.sound (hg : Disk.Guarded (· = naiveSuperBlockBlock) disk) (h : s.Sound disk)
    (hshort : name.bytes.length ≤ 127)
    (hfile : ∀ id nd, s.dcache dir name = some id → s.inodes id = some nd → nd.isDir = false)
    (hu : Unlink ans s dir name r t) (hr : 0 ≤ r) : t.Sound disk := by
  have ht := hu.ready h.ready
  have hmap := hu.mapped hg h.mapped
  cases hu with
  | noDentry => exact absurd hr (by decide)
  | notRemoved _ _ _ fail => omega
  | @removed d nd id i j dentry parent target node stop =>
      have hcleared : Cleared s (s.clearRecord d i j) dir d i j :=
        ⟨rfl, rfl, rfl, fun _ _ => rfl, d, parent, rfl, rfl, rfl⟩
      have hrem := hcleared.removed h.names.coherent h.owned parent dentry target
        (fun k => FS.entryAt_file target (hfile id nd dentry target) k) hshort
        (h.small id _ (FS.number_of target)) stop
      have hblocks : (s.clearRecord d i j).Accounted disk := h.blocks
      exact ⟨ht, hmap, hblocks.removed (fun i => FS.own_of target) (h.shape hg target) dir name,
        h.names.removed hrem, small_removed h.small hrem⟩

theorem Rmdir.sound (hg : Disk.Guarded (· = naiveSuperBlockBlock) disk) (h : s.Sound disk)
    (hshort : name.bytes.length ≤ 127) (hu : Rmdir ans s dir name r t) (hr : 0 ≤ r) :
    t.Sound disk := by
  have ht := hu.ready h.ready
  have hmap := hu.mapped hg h.mapped
  cases hu with
  | noDentry | notDir | unreadable | notEmpty => exact absurd hr (by decide)
  | notRemoved _ _ _ fail => omega
  | @removed d nd id i j dentry parent target node isDir empty stop =>
      have hslots : ∀ nd i, (Inode.dropLink nd).slot i = nd.slot i := fun _ _ => rfl
      have hparent : ((s.clearRecord d i j).mapInode dir Inode.dropLink).inodes dir
          = some (Inode.dropLink d) := by
        rw [FS.mapInode_of (s := s.clearRecord d i j) parent, FS.inodes_setInode_self]
      have hcleared : Cleared s ((s.clearRecord d i j).mapInode dir Inode.dropLink) dir d i j :=
        ⟨mapInode_cache _ _ _, FS.mapInode_sbi _ _ _, mapInode_dcache _ _ _,
          fun k hk => FS.inodes_mapInode_ne hk, _, hparent, rfl, rfl, rfl⟩
      have hrem := hcleared.removed h.names.coherent h.owned parent dentry target
        (fun k => empty.entryAt_none (h.shape hg target) target k) hshort
        (h.small id _ (FS.number_of target)) stop
      have hblocks : ((s.clearRecord d i j).mapInode dir Inode.dropLink).Accounted disk := by
        refine Ownership.Exact.congr h.blocks
          (fun k => FS.own_mapInode (s := s.clearRecord d i j) hslots) fun c => ?_
        unfold FS.isMarked FS.marked
        rw [FS.mapInode_sbi]
        rfl
      refine ⟨ht, hmap, hblocks.removed (fun k => ?_) (h.shape hg target) dir name,
        h.names.removed hrem, small_removed h.small hrem⟩
      rw [FS.own_mapInode hslots]
      exact FS.own_of target

/-- Adding blocks to a file concerns no name and no number. -/
theorem Extend.names (h : Extend id s t) :
    t.sbi.inodeBitmap = s.sbi.inodeBitmap ∧ t.dcache = s.dcache := by
  induction h with
  | refl => exact ⟨rfl, rfl⟩
  | step _ _ _ _ _ ih => exact ih

/-- A file that keeps its number and stays a file concerns no name. -/
theorem file_changed {nd' : Inode} (hnd : s.inodes id = some nd) (hnd' : t.inodes id = some nd')
    (hfile : nd.isDir = false) (hino : nd'.iIno = nd.iIno) (hmode : nd'.iMode = nd.iMode)
    (hother : ∀ k, k ≠ id → t.inodes k = s.inodes k)
    (huntouched : ∀ k e, s.inodes k = some e → k ≠ id → Untouched s t e)
    (hdcache : t.dcache = s.dcache) (hbm : t.sbi.inodeBitmap = s.sbi.inodeBitmap) :
    NameTree.Same s.tree t.tree := by
  refine ⟨fun k => ?_, ?_, ?_, numberMarked_congr hbm⟩
  · show t.number k = s.number k
    by_cases hk : k = id
    · subst hk
      rw [FS.number_of hnd', FS.number_of hnd, hino]
    · unfold FS.number
      rw [hother k hk]
  · rintro ⟨x, k⟩
    show t.entryAt (x, k) = s.entryAt (x, k)
    by_cases hx : x = id
    · subst hx
      rw [FS.entryAt_file hnd hfile, FS.entryAt_file hnd']
      rwa [isDir_of_iMode hmode]
    · rcases hxnd : s.inodes x with _ | e
      · rw [FS.entryAt_none hxnd, FS.entryAt_none ((hother x hx).trans hxnd)]
      · exact (huntouched x e hxnd hx).entryAt hxnd ((hother x hx).trans hxnd) k
  · rintro x n y ⟨name, rfl, hcached⟩
    have hcached' : t.dcache x name = some y := hcached
    rw [hdcache] at hcached'
    exact ⟨name, rfl, hcached'⟩

theorem Write.sound (hg : Disk.Guarded (· = naiveSuperBlockBlock) disk) (h : s.Sound disk)
    (hnd : s.inodes id = some nd) (hfile : nd.isDir = false) (hw : Write s id r t) (hr : 0 ≤ r) :
    t.Sound disk := by
  have ht := hw.ready h.ready
  have hmap := hw.mapped hg h.mapped
  have hother := fun k (hk : k ≠ id) => hw.inodes hk
  have huntouched := fun k e (he : s.inodes k = some e) (hk : k ≠ id) => hw.untouched h.owned he hk
  cases hw with
  | tooBig | noSpace => exact absurd hr (by decide)
  | @written u v nd1 nd' _ grow node data same =>
      obtain ⟨e, he, hgrown⟩ := grow.grown hnd
      obtain rfl := Option.some.inj (node.symm.trans he)
      obtain ⟨hbm, hdcache⟩ := grow.names
      have hself : (v.setInode id nd').inodes id = some nd' := FS.inodes_setInode_self
      have hnames : NameTree.Same s.tree (v.setInode id nd').tree :=
        file_changed hnd hself hfile (same.iIno.trans hgrown.iIno) (same.iMode.trans hgrown.iMode)
          hother huntouched (data.dcache.trans hdcache)
          ((congrArg SbInfo.inodeBitmap data.sbi).trans hbm)
      have hnumber := hnames.number
      have hblocks : u.Accounted disk := by
        refine grow.accounted h.blocks (fun w hw => (hw.mapped hg h.mapped).not_nextFree_zero hg) ?_
        intro w e hw he
        exact ((hw.mapped hg h.mapped).node id e he).mono fun _ hp => hp.ne_zero hg
      refine ⟨ht, hmap, ?_, h.names.same hnames,
        fun k w hw => h.small k w ((hnumber k).symm.trans hw)⟩
      refine hblocks.congr (fun ⟨k, i⟩ => ?_) fun c => ?_
      · by_cases hk : k = id
        · subst hk
          rw [FS.own_setInode_self, FS.own_of (s := u) (k := (k, i)) node]
          unfold Inode.slot
          rw [same.blockPointers]
        · rw [FS.own_setInode_ne hk]
          unfold FS.own
          rw [data.inodes]
      · show v.isMarked c ↔ u.isMarked c
        unfold FS.isMarked FS.marked
        rw [data.sbi]

theorem Step.sound {op : Op} (hg : Disk.Guarded (· = naiveSuperBlockBlock) disk) (h : s.Sound disk)
    (hop : op.Lawful s) (hr : 0 ≤ r) (hstep : Step s op ans r t) : t.Sound disk := by
  cases op with
  | create dir name perm =>
      obtain ⟨d, hd, hcases⟩ := naiveCreate_cases h.ready hstep
      obtain ⟨hdot, hshort, hparent⟩ := hop
      obtain ⟨hdir, hroom, habsent⟩ := hparent d hd
      exact hcases.sound hg h hd hdir hroom hdot hshort habsent hr
  | mkdir dir name mode =>
      obtain ⟨d, hd, hcases⟩ := naiveMkdir_cases h.ready hstep
      obtain ⟨hdot, hshort, hparent⟩ := hop
      obtain ⟨hdir, hroom, habsent⟩ := hparent d hd
      exact hcases.sound hg h hd hdir hroom hdot hshort habsent hr
  | unlink dir name => exact (vfsUnlink_cases h.ready hstep).sound hg h hop.1 hop.2 hr
  | rmdir dir name => exact (vfsRmdir_cases h.ready hstep).sound hg h hop hr
  | write id data pos =>
      obtain ⟨q, u, hwrite, hend⟩ := Prog.exec_bind_ok.mp hstep
      cases hend
      obtain ⟨nd, v, hnode, _⟩ := Prog.exec_bind_ok.mp hwrite
      obtain ⟨hnd, _⟩ := exec_inode_ok hnode
      exact (naiveFileWrite_cases h.ready hwrite).sound hg h hnd (hop nd hnd) hr
  | lookup => exact hop.elim

end Sound

/-! ## What a check finds -/

/-- What a check of the file system compares: the inode bitmap with the inodes,
the inodes with the records other than `.` and `..` of the directories, and the
block bitmap with the device's and the slots. -/
structure FsckClean (disk : Nat → Bytes) (s : FS) : Prop where
  numbers : ∀ ino, 1 ≤ ino →
    (s.inoMarked ino = true ↔ ∃ id nd, s.inodes id = some nd ∧ nd.iIno = ino)
  distinct : ∀ id id' nd nd', s.inodes id = some nd → s.inodes id' = some nd' →
    nd.iIno = nd'.iIno → id = id'
  named : ∀ id nd, s.inodes id = some nd → nd.iIno ≠ naiveRootInodeNo →
    ∃! p : Nat × Nat, ∃ n, s.entryAt p = some (n, nd.iIno)
  entries : ∀ p n v, s.entryAt p = some (n, v) → ∃ id nd, s.inodes id = some nd ∧ nd.iIno = v
  blocks : ∀ b : Nat, b < 4096 →
    (s.marked b = true ↔ (disk 2).bit b = true ∨ ∃! k : Nat × Nat, s.own k = some (b : Int))

section Check

variable {disk : Nat → Bytes} {s t : FS}

theorem FS.Sound.clean (h : s.Sound disk) : FsckClean disk s := by
  refine ⟨fun ino hino => ?_, fun id id' nd nd' hnd hnd' heq => ?_, fun id nd hnd hne => ?_,
    fun p n v hp => ?_, fun b hb => ?_⟩
  · constructor
    · intro hmark
      obtain ⟨id, hid⟩ := (h.names.numbers.accounted ino ⟨hino, hmark⟩).resolve_left fun hf => hf
      obtain ⟨nd, hnd⟩ := FS.number_eq_some.mp hid
      exact ⟨id, nd, hnd⟩
    · rintro ⟨id, nd, hnd, rfl⟩
      exact (h.names.numbers.marked id nd.iIno (FS.number_of hnd)).2
  · refine h.names.numbers.inj id id' nd.iIno (FS.number_of hnd) ?_
    rw [heq]
    exact FS.number_of hnd'
  · obtain ⟨p, hp, honly⟩ := h.names.named_once (FS.number_of hnd) hne
    obtain ⟨n, hentry⟩ := NameTree.target_eq_some.mp hp
    refine ⟨p, ⟨n, hentry⟩, ?_⟩
    rintro q ⟨m, hq⟩
    exact honly q (NameTree.target_eq_some.mpr ⟨m, hq⟩)
  · obtain ⟨id, hid⟩ := h.names.node_of_entry (NameTree.target_eq_some.mpr ⟨n, hp⟩)
    obtain ⟨nd, hnd⟩ := FS.number_eq_some.mp hid
    exact ⟨id, nd, hnd⟩
  · have hused := h.blocks.used_iff (b : Int)
    have hmarked : s.isMarked (b : Int) ↔ s.marked b = true := by
      unfold FS.isMarked
      rw [Int.toNat_natCast]
      exact ⟨fun hm => hm.2.2, fun hm => ⟨by omega, by omega, hm⟩⟩
    have hbase : Disk.Marked disk (b : Int) ↔ (disk 2).bit b = true := by
      unfold Disk.Marked
      rw [Int.toNat_natCast]
      exact ⟨fun hm => hm.2.2, fun hm => ⟨by omega, by omega, hm⟩⟩
    rw [hmarked, hbase] at hused
    exact hused

/-- A mount of a device whose inode bitmap has the root's number only. -/
theorem sound_mounted (hino : ∀ i, (disk 3).bit i = true ↔ i = 0) (ts : Timespec) :
    (FS.mounted disk ts).Sound disk := by
  have hready : (FS.mounted disk ts).Ready := by
    refine ⟨rfl, fun id hid => ?_⟩
    have hid' : 1 ≤ id := hid
    simp [FS.mounted, show id ≠ 0 by omega]
  have hnumber : ∀ id v, (FS.mounted disk ts).number id = some v → id = 0 ∧ v = 1 := by
    intro id v hv
    obtain ⟨nd, hnd, rfl⟩ := FS.number_eq_some.mp hv
    obtain ⟨rfl, rfl⟩ := inodes_mounted hnd
    exact ⟨rfl, rfl⟩
  have hmarked : ∀ v, (FS.mounted disk ts).numberMarked v ↔ v = 1 := by
    intro v
    have hbit : (FS.mounted disk ts).inoMarked v = (disk 3).bit (v - 1) := rfl
    unfold FS.numberMarked
    rw [hbit, hino]
    omega
  have hentry : ∀ p, (FS.mounted disk ts).entryAt p = none := by
    rintro ⟨dir, k⟩
    rcases hnd : (FS.mounted disk ts).inodes dir with _ | nd
    · exact FS.entryAt_none hnd k
    · obtain ⟨rfl, rfl⟩ := inodes_mounted hnd
      refine FS.entryAt_dots hnd (fun k n v _ hk => ?_) k
      have hnone : (FS.mounted disk ts).recordAt (Inode.root ts) k = none :=
        if_neg fun hp => hp.1 rfl
      rw [hnone] at hk
      cases hk
  have htarget : ∀ p v, (FS.mounted disk ts).tree.target p ≠ some v := by
    intro p v hp
    obtain ⟨n, hn⟩ := NameTree.target_eq_some.mp hp
    cases (hentry p).symm.trans hn
  refine ⟨hready, mapped_mounted disk ts, ?_, ⟨?_, ?_, ?_, ?_⟩, fun id v hv => ?_⟩
  · refine ⟨owned_mounted disk ts, fun b hb => hb, fun k b hk => ?_, fun b hb => .inl hb⟩
    rw [own_mounted] at hk
    cases hk
  · refine ⟨⟨fun id v hv => (hmarked v).mpr (hnumber id v hv).2, fun id id' v hv hv' => ?_⟩,
      fun _ hf => hf.elim, fun _ _ _ hf => hf, fun v hv => .inr ⟨0, ?_⟩⟩
    · rw [(hnumber id v hv).1, (hnumber id' v hv').1]
    · rw [(hmarked v).mp hv]
      rfl
  · exact ⟨⟨fun p v hp => absurd hp (htarget p v), fun p q v hp => absurd hp (htarget p v)⟩,
      fun v hv => (hmarked v).mpr hv, fun p v hp => absurd hp (htarget p v),
      fun v hv => .inl ((hmarked v).mp hv)⟩
  · intro a k l n v w hk
    cases (hentry (a, k)).symm.trans hk
  · rintro a n b ⟨name, _, hcached⟩
    cases hcached
  · rw [(hnumber id v hv).2]
    decide

/-- On a device whose data area leaves out the boot block and has not the
superblock as a free block, and whose inode bitmap has the root's number only, a
check finds nothing after any run of calls that succeed and are lawful. -/
theorem fsck_finds_nothing {s0 : FS} (h0 : Mounted disk s0)
    (hg : Disk.Guarded (· = naiveSuperBlockBlock) disk)
    (hino : ∀ i, (disk 3).bit i = true ↔ i = 0)
    (h : Reach (fun s op _ r => op.Lawful s ∧ 0 ≤ r) s0 s) : FsckClean disk s := by
  obtain ⟨_, ts, rfl⟩ := mounted_eq h0
  have hsound : s.Sound disk := by
    refine h.invariant (sound_mounted hino ts) fun t op ans r u ht hP hstep => ?_
    exact hstep.sound hg ht hP.1 hP.2
  exact hsound.clean

end Check

/-- A file in the root, a directory, a file in it, two blocks of data; then both
names in the root go again, the directory's after its file's. -/
def fsckRun : List (Op × Answers) :=
  [(.create 0 (.letters 1 Nat.one_pos Name.one_le_max) 0o644, Answers.good default 0 0),
    (.mkdir 0 (.letters 2 Nat.two_pos Name.two_le_max) 0o755, Answers.good default 0 0),
    (.create 2 (.letters 1 Nat.one_pos Name.one_le_max) 0o644, Answers.good default 0 0),
    (.write 1 (List.replicate 600 0x61#8) 0, Answers.good default 0 0),
    (.unlink 0 (.letters 1 Nat.one_pos Name.one_le_max), Answers.good default 0 0),
    (.unlink 2 (.letters 1 Nat.one_pos Name.one_le_max), Answers.good default 0 0),
    (.rmdir 0 (.letters 2 Nat.two_pos Name.two_le_max), Answers.good default 0 0),
    (.create 0 (.letters 3 (by decide) (by decide)) 0o644, Answers.good default 0 0)]

/-- Bit 0 of the inode bitmap is the only one set. -/
theorem sampleDisk_bit (i : Nat) : (sampleDisk 128 1000 4 132 3).bit i = true ↔ i = 0 := by
  have hblock : sampleDisk 128 1000 4 132 3 = zeros.setBit 0 := rfl
  rw [hblock, bit_setBit]
  simp [bit, zeros]

theorem fsck_finds_nothing_sample : ∃ s, runOpsIf (fun s op r => decide (op.Lawful s ∧ 0 ≤ r))
    (FS.mounted (sampleDisk 128 1000 4 132) default) fsckRun = some s ∧
    FsckClean (sampleDisk 128 1000 4 132) s := by
  obtain ⟨s, hs⟩ := Option.isSome_iff_exists.mp (show (runOpsIf
    (fun s op r => decide (op.Lawful s ∧ 0 ≤ r)) (FS.mounted (sampleDisk 128 1000 4 132) default)
    fsckRun).isSome = true by decide +kernel)
  refine ⟨s, hs, fsck_finds_nothing (sampleDisk_mounted 128 1000 4 132 default) guarded_sampleDisk
    sampleDisk_bit ?_⟩
  exact Reach.of_runOpsIf (fun u x r _ hok => of_decide_eq_true hok) .refl hs

/-- Block 0 marked without being held is found. -/
theorem not_clean_of_zero {disk : Nat → Bytes} {s : FS} (hmark : s.marked 0 = true)
    (hfree : (disk 2).bit 0 = false) : ¬ FsckClean disk s := by
  intro h
  rcases (h.blocks 0 (by decide)).mp hmark with hdisk | ⟨k, hk, _⟩
  · rw [hfree] at hdisk
    cases hdisk
  · obtain ⟨nd, _, hslot⟩ := FS.own_eq_some.mp hk
    exact (Inode.slot_eq_some.mp hslot).2.2 rfl

/-- A device whose data starts at block 0, with the superblock marked. -/
def zeroStartDisk : Nat → Bytes := fun b =>
  if b = 2 then zeros.setBit 1 else sampleDisk 128 1000 4 0 b

/-- Both conditions on the device are needed. Where data starts at block 1 and the
superblock is free, `create` with a name of eight letters leaves 0 in
`data_block_no`, and the file is given block 0. Where data starts at block 0, the
root is given it. Either way no slot shows it. -/
theorem fsck_finds_block_zero :
    (¬ ∀ (disk : Nat → Bytes) (s0 s : FS), Mounted disk s0 → 0 < Disk.dataStart disk →
      (∀ i, (disk 3).bit i = true ↔ i = 0) →
      Reach (fun s op ans r => op.Lawful s ∧ Readable ans ∧ 0 ≤ r) s0 s → FsckClean disk s) ∧
    ¬ ∀ (disk : Nat → Bytes) (s0 s : FS), Mounted disk s0 →
      Disk.Reserved (· = naiveSuperBlockBlock) disk → (∀ i, (disk 3).bit i = true ↔ i = 0) →
      Reach (fun s op ans r => op.Lawful s ∧ Readable ans ∧ 0 ≤ r) s0 s → FsckClean disk s := by
  have hreach {disk : Nat → Bytes} {ops : List (Op × Answers)} {s : FS}
      (hops : ∀ x, x ∈ ops → x.2 = Answers.good default 0 0)
      (hs : runOpsIf (fun s op r => decide (op.Lawful s ∧ 0 ≤ r)) (FS.mounted disk default) ops
        = some s) :
      Reach (fun s op ans r => op.Lawful s ∧ Readable ans ∧ 0 ≤ r) (FS.mounted disk default) s := by
    refine Reach.of_runOpsIf (fun u x r hx hok => ?_) .refl hs
    obtain ⟨hlawful, hr⟩ := of_decide_eq_true hok
    refine ⟨hlawful, ?_, hr⟩
    rw [hops x hx]
    exact fun _ _ _ => rfl
  constructor
  · intro hall
    obtain ⟨s, hs, hmark⟩ := (Option.any_eq_true _ _).mp (show (runOpsIf
      (fun s op r => decide (op.Lawful s ∧ 0 ≤ r)) (FS.mounted (sampleDisk 128 1000 4 1) default)
      [(.create 0 (.letters 8 (by decide) (by decide)) 0o644, Answers.good default 0 0),
        (.write 1 [0x62#8] 0, Answers.good default 0 0)]).any (fun s => s.marked 0) = true by
          decide +kernel)
    refine not_clean_of_zero hmark rfl (hall _ _ s (sampleDisk_mounted 128 1000 4 1 default)
      (by decide +kernel) sampleDisk_bit (hreach ?_ hs))
    intro x hx
    simp only [List.mem_cons, List.not_mem_nil, or_false] at hx
    rcases hx with rfl | rfl <;> rfl
  · intro hall
    obtain ⟨s, hs, hmark⟩ := (Option.any_eq_true _ _).mp (show (runOpsIf
      (fun s op r => decide (op.Lawful s ∧ 0 ≤ r)) (FS.mounted zeroStartDisk default)
      [(.create 0 (.letters 1 (by decide) (by decide)) 0o644, Answers.good default 0 0)]).any
      (fun s => s.marked 0) = true by decide +kernel)
    have hmount : Mounted zeroStartDisk (FS.mounted zeroStartDisk default) :=
      mounted_of_magic (by decide +kernel) default
    refine not_clean_of_zero hmark rfl (hall _ _ s hmount ?_ sampleDisk_bit (hreach ?_ hs))
    · rintro c rfl _ _
      decide +kernel
    · intro x hx
      simp only [List.mem_cons, List.not_mem_nil, or_false] at hx
      subst hx
      rfl

end NaiveFS
