import NaiveFS.Refine
import NaiveFS.Reload
import NaiveFS.Returns

/-!
# System calls on paths

A process names files by their paths, which the VFS walks with its dentries and `naive_lookup`;
between the calls the kernel evicts inodes of files. All a process sees is a tree: every system
call returns, with what the tree has there.
-/

namespace NaiveFS

open Bytes Prog

/-! ## The code -/

abbrev EEXIST : Int := 17
abbrev EISDIR : Int := 21

/-- Look up one name after the other, each in a directory. -/
def walkPath : Nat → List Name → K (Except Int Nat)
  | dir, [] => pure (.ok dir)
  | dir, name :: path => do
    let nd ← inode dir
    if nd.isDir then
      match ← vfsLookup dir name with
      | some (.ok id) => walkPath id path
      | some (.error e) => pure (.error e)
      | none => pure (.error (-ENOENT))
    else pure (.error (-ENOTDIR))

/-- What a path from the root leads to, unless it is `wrong`. -/
def placeAt (path : List Name) (wrong : Bool → Option Int) : K (Except Int Nat) := do
  match ← walkPath (← Prog.read (·.sRoot)) path with
  | .ok id =>
    let nd ← inode id
    match wrong nd.isDir with
    | none => pure (.ok id)
    | some e => pure (.error e)
  | .error e => pure (.error e)

def noDirectory (isDir : Bool) : Option Int := if isDir then none else some (-ENOTDIR)

def noFile (isDir : Bool) : Option Int := if isDir then some (-EISDIR) else none

def dirAt (path : List Name) : K (Except Int Nat) := placeAt path noDirectory

def fileAt (path : List Name) : K (Except Int Nat) := placeAt path noFile

/-- Look a name up and go on with its inode, or without. -/
def withName (dir : Nat) (name : Name) (found : Nat → K Int) (absent : K Int) : K Int := do
  match ← vfsLookup dir name with
  | some (.ok id) => found id
  | some (.error e) => pure e
  | none => absent

/-- The system calls; `create` is an `open` that makes the file. -/
inductive Syscall where
  | create (path : List Name) (name : Name) (perm : Nat)
  | mkdir (path : List Name) (name : Name) (mode : Nat)
  | unlink (path : List Name) (name : Name)
  | rmdir (path : List Name) (name : Name)
  | write (path : List Name) (data : List Byte) (pos : Nat)
  | read (path : List Name) (len pos : Nat)
  deriving DecidableEq

namespace Syscall

/-- The inode a system call works on. -/
def locate : Syscall → K (Except Int Nat)
  | .create path .. | .mkdir path .. | .unlink path _ | .rmdir path _ => dirAt path
  | .write path .. | .read path .. => fileAt path

/-- What is done there: the return value, and the bytes read. -/
def run : Syscall → Nat → K (Int × List Byte)
  | .create _ name perm, dir => do
    let r ← withName dir name (fun _ => pure (-EEXIST)) (Op.create dir name perm).prog
    pure (r, [])
  | .mkdir _ name mode, dir => do
    let r ← withName dir name (fun _ => pure (-EEXIST)) (Op.mkdir dir name mode).prog
    pure (r, [])
  | .unlink _ name, dir => do
    let r ← withName dir name (fun id => do
      let nd ← inode id
      if nd.isDir then pure (-EISDIR) else (Op.unlink dir name).prog) (pure (-ENOENT))
    pure (r, [])
  | .rmdir _ name, dir => do
    let r ← withName dir name (fun _ => (Op.rmdir dir name).prog) (pure (-ENOENT))
    pure (r, [])
  | .write _ data pos, id => do
    let r ← (Op.write id data pos).prog
    pure (r, [])
  | .read _ len pos, id => do
    let (r, _, bytes) ← naiveFileRead id len pos
    pure (r, bytes)

def prog (q : Syscall) : K (Int × List Byte) := do
  match ← q.locate with
  | .ok id => q.run id
  | .error e => pure (e, [])

/-- All the names of a path. -/
def names : Syscall → List Name
  | .create path name _ | .mkdir path name _ | .unlink path name | .rmdir path name =>
      path ++ [name]
  | .write path .. | .read path .. => path

end Syscall

/-! ## The tree -/

namespace Tree

def isDir (T : Tree) (id : Nat) : Bool :=
  match T.node id with
  | some .dir => true
  | _ => false

def walk (T : Tree) : Nat → List Name → Except Int Nat
  | dir, [] => .ok dir
  | dir, name :: path =>
    if T.isDir dir then
      match T.child dir name.bytes with
      | some id => T.walk id path
      | none => .error (-ENOENT)
    else .error (-ENOTDIR)

def placeAt (T : Tree) (path : List Name) (wrong : Bool → Option Int) : Except Int Nat :=
  match T.walk 0 path with
  | .ok id =>
    match wrong (T.isDir id) with
    | none => .ok id
    | some e => .error e
  | .error e => .error e

def locate (T : Tree) : Syscall → Except Int Nat
  | .create path .. | .mkdir path .. | .unlink path _ | .rmdir path _ =>
      T.placeAt path noDirectory
  | .write path .. | .read path .. => T.placeAt path noFile

/-- What a system call does at the place it is called on. -/
inductive Runs (T : Tree) : Syscall → Nat → Int × List Byte → Tree → Prop where
  | create {path : List Name} {name : Name} {perm dir : Nat} {r : Int} {T' : Tree}
      (new : T.child dir name.bytes = none) (does : T.Does (.call (.create dir name perm) r) T') :
      T.Runs (.create path name perm) dir (r, []) T'
  | createExists {path : List Name} {name : Name} {perm dir id : Nat}
      (old : T.child dir name.bytes = some id) :
      T.Runs (.create path name perm) dir (-EEXIST, []) T
  | mkdir {path : List Name} {name : Name} {mode dir : Nat} {r : Int} {T' : Tree}
      (new : T.child dir name.bytes = none) (does : T.Does (.call (.mkdir dir name mode) r) T') :
      T.Runs (.mkdir path name mode) dir (r, []) T'
  | mkdirExists {path : List Name} {name : Name} {mode dir id : Nat}
      (old : T.child dir name.bytes = some id) :
      T.Runs (.mkdir path name mode) dir (-EEXIST, []) T
  | unlink {path : List Name} {name : Name} {dir : Nat} {r : Int} {T' : Tree}
      (does : T.Does (.call (.unlink dir name) r) T') :
      T.Runs (.unlink path name) dir (r, []) T'
  | unlinkDir {path : List Name} {name : Name} {dir id : Nat}
      (child : T.child dir name.bytes = some id) (isDir : T.isDir id = true) :
      T.Runs (.unlink path name) dir (-EISDIR, []) T
  | rmdir {path : List Name} {name : Name} {dir : Nat} {r : Int} {T' : Tree}
      (does : T.Does (.call (.rmdir dir name) r) T') :
      T.Runs (.rmdir path name) dir (r, []) T'
  | write {path : List Name} {data : List Byte} {pos id : Nat} {r : Int} {T' : Tree}
      (does : T.Does (.call (.write id data pos) r) T') :
      T.Runs (.write path data pos) id (r, []) T'
  | read {path : List Name} {len pos id : Nat} {bytes : List Byte}
      (does : T.Does (.read id len pos bytes) T) :
      T.Runs (.read path len pos) id (bytes.length, bytes) T

end Tree

/-- A system call with what it returns, the eviction of an inode, or the writing of a buffer. -/
inductive PathEvent where
  | call (q : Syscall) (r : Int × List Byte)
  | evict
  | flush
  deriving DecidableEq

/-- What an event does to the tree: only a system call does anything. -/
inductive Tree.Follows (T : Tree) : PathEvent → Tree → Prop where
  | lost {q : Syscall} {e : Int} (lost : T.locate q = .error e) : T.Follows (.call q (e, [])) T
  | call {q : Syscall} {id : Nat} {r : Int × List Byte} {T' : Tree} (found : T.locate q = .ok id)
      (runs : T.Runs q id r T') : T.Follows (.call q r) T'
  | evict : T.Follows .evict T
  | flush : T.Follows .flush T

/-! ## Sessions -/

/-- A name that fits into a record and is not `.` or `..`. -/
structure Name.Plain (name : Name) : Prop where
  dot : ¬ IsDot name.bytes
  short : name.bytes.length ≤ 127

/-- No read fails, there is memory for the inodes that are loaded, and what is read reaches the
user. Allocations and copies from the user may fail. -/
structure Answers.Prompt (ans : Answers) : Prop extends ans.Reliable where
  copy : ∀ i, ans (.copyToUser i) = (0 : Nat)

/-- The names are plain, a directory that is given a name has room, and what is written ends
below the largest file offset. -/
structure Syscall.Fits (ans : Answers) (s : FS) (q : Syscall) : Prop where
  plain : ∀ name, name ∈ q.names → name.Plain
  room : ∀ path name x, q = .create path name x ∨ q = .mkdir path name x →
    ∀ dir t d, (dirAt path).exec ans s = .ok (.ok dir, t) → t.inodes dir = some d → t.Room d
  range : ∀ path data pos, q = .write path data pos → pos + data.length < 2 ^ 63

/-- The file `nd` is in memory at `id` and loses nothing when it is evicted: its fields are of
their C types, and its record says what it is unless it is marked dirty. -/
structure FS.Evictable (s : FS) (id : Nat) (nd : Inode) : Prop where
  node : s.inodes id = some nd
  file : nd.isDir = false
  mode : nd.iMode < 2 ^ 16
  uid : nd.iUid < 2 ^ 32
  gid : nd.iGid < 2 ^ 32
  nlink : nd.iNlink < 2 ^ 32
  stored : nd.iDirty = false → ∃ nd', s.decoded nd.iIno = .ok nd' ∧ nd.Like nd'

/-- The kernel writes a dirty buffer to the device. -/
def FS.flush (s : FS) (b : Nat) : FS :=
  if s.bDirty b then
    { s with
      disk := Function.update s.disk b (s.cache b)
      bDirty := Function.update s.bDirty b false }
  else s

/-- An event of the code. -/
inductive FS.Serves (s : FS) : PathEvent → FS → Prop where
  | call {q : Syscall} {ans : Answers} {r : Int × List Byte} {t : FS} (prompt : ans.Prompt)
      (fits : q.Fits ans s) (exec : q.prog.exec ans s = .ok (r, t)) : s.Serves (.call q r) t
  | evict {id : Nat} {nd : Inode} {ans : Answers} {t : FS} (reliable : ans.Reliable)
      (evictable : s.Evictable id nd) (exec : (evictInode id).exec ans s = .ok ((), t)) :
      s.Serves .evict t
  | flush {b : Nat} : s.Serves .flush (s.flush b)

/-- A device with the magic number, one block for each bitmap, its metadata marked where it
reaches into the data area, and the root's number alone in the inode bitmap. -/
structure Disk.Good (disk : Nat → Bytes) : Prop where
  magic : SuperBlock.magic (disk 1) = naiveMagic
  laid : Laid disk
  reserved : Disk.Reserved (Disk.Metadata disk) disk
  one : OneBitmapBlock (disk naiveSuperBlockBlock)
  numbers : ∀ i, (disk 3).bit i = true ↔ i = 0

theorem Disk.Good.guarded {disk : Nat → Bytes} (h : Disk.Good disk) :
    Disk.Guarded (· = naiveSuperBlockBlock) disk := by
  have hdata := h.laid.data
  refine ⟨Int.lt_of_lt_of_le (by decide) hdata, rfl, fun b hb => h.reserved b ?_⟩
  rw [hb]
  exact .inl (by decide)

/-! ## The run behind a session -/

/-- A run in which every inode stays in memory tracks the tree, and the session is beside it. The
device still has its superblock and its bitmaps. -/
structure Both.Behind (disk : Nat → Bytes) (T : Tree) (c : Both) : Prop where
  inv : c.Inv disk
  tracks : c.kept.Tracks disk T
  steady : c.kept.Steady disk
  root : c.place 0 = some 0
  home : c.evicted.Rooted
  above : c.kept.Above disk
  device : ∀ b, 1 ≤ b → b < 4 → c.evicted.disk b = disk b

/-- The session has at `r` what the tree has at `x`. -/
inductive Both.Located (T : Tree) (c : Both) : Except Int Nat → Except Int Nat → Prop where
  | found {id id' : Nat} {nd : Inode} (place : c.place id = some id')
      (node : c.kept.inodes id = some nd) : Both.Located T c (.ok id') (.ok id)
  | lost {e : Int} : Both.Located T c (.error e) (.error e)

/-- How a lookup of the session ends. -/
inductive Both.Looked (disk : Nat → Bytes) (T : Tree) (c : Both) (dir dir' : Nat) (name : Name) :
    Option (Except Int Nat) → FS → Prop where
  | absent (new : T.child dir name.bytes = none) : Looked disk T c dir dir' name none c.evicted
  | found {id id' : Nat} {c' : Both} (child : T.child dir name.bytes = some id)
      (behind : c'.Behind disk T) (kept : c'.kept = c.kept) (place : c'.place id = some id')
      (stays : c'.place dir = some dir') :
      Looked disk T c dir dir' name (some (.ok id')) c'.evicted

section Lookup

variable {disk : Nat → Bytes} {ans : Answers} {s : FS} {T : Tree} {c : Both}
  {dir dir' id id' : Nat} {d d' nd nd' : Inode} {name : Name}

theorem FS.Shows.isDir_eq (h : s.Shows T) (hnd : s.inodes id = some nd) :
    T.isDir id = nd.isDir := by
  unfold Tree.isDir
  rw [h.node_of hnd, FS.view]
  split <;> simp_all

/-- A scan that finds nothing reads every block. -/
theorem exec_scanRecords_none {α : Type} {site : Site} {test : Bytes → Nat → Bool}
    {miss : Option α} {hit : Int → Bytes → Nat → K α} (hcount : d.blockCount ≤ 8)
    (h : FindsNone ans s d site test) :
    (scanRecords d site test miss hit).exec ans s = .ok (none, s) := by
  have hloop : ∀ n k, k + n = d.blockCount.toNat →
      (forBlocks d (scanBlock site test miss hit) n k).exec ans s = .ok (none, s) := by
    intro n
    induction n with
    | zero =>
        intro k _
        rfl
    | succ n ih =>
        intro k hn
        have hpointer : (pointer d k).exec ans s = .ok (d.blockPointers k, s) := by
          unfold pointer naiveBlockPerFile
          rw [if_neg (by omega)]
          rfl
        rw [forBlocks, exec_bind_of hpointer, exec_ite]
        split
        · exact ih (k + 1) (by omega)
        · rename_i hnz
          obtain ⟨hread, hno⟩ := h k (by omega) ⟨by omega, by omega, hnz⟩
          rw [exec_bind_of (exec_scanBlock_miss hread hno)]
          exact ih (k + 1) (by omega)
  exact hloop _ 0 (Nat.zero_add _)

/-- Where every block can be read, a scan stops at a record or finds none. -/
theorem stops_or_findsNone (hread : Readable ans) (hcount : d.blockCount ≤ 8) (site : Site)
    (test : Bytes → Nat → Bool) :
    (∃ i j, StopsAt ans s d site test i j) ∨ FindsNone ans s d site test := by
  -- the scan is run with a body that only returns
  have hscan : ∃ q u, (scanRecords d site test none fun _ _ _ => (Pure.pure () : K Unit)).exec ans s
      = .ok (q, u) := exists_scanRecords hcount fun _ _ _ s => ⟨(), s, rfl⟩
  obtain ⟨q, u, hscan⟩ := hscan
  rcases scanRecords_cases (.inr fun m _ => hread site m _) hscan with
    ⟨m, hfail, -⟩ | ⟨i, j, -, hstop, -⟩ | ⟨hnone, -⟩
  · have hunread := hfail.unread
    rw [hread] at hunread
    cases hunread
  · exact .inl ⟨i, j, hstop⟩
  · exact .inr hnone

theorem StopsAt.finds {i j : Nat} (h : StopsAt ans s d .lookup (isNamed name) i j) :
    Finds ans s d name i j :=
  ⟨fun m hm hslot _ => (h.passed m hm hslot).2, h.slot, h.read, h.bound, h.hit, h.first⟩

/-- A record that the scan stops at is an entry of the tree. -/
theorem Finds.entryAt {i j : Nat} (h : Finds ans s d name i j) (hd : s.inodes dir = some d)
    (hdir : d.isDir = true) (hname : name.Plain) : s.entryAt (dir, 3 * i + j) =
      some (name.bytes, DirRecord.iIno (s.slotBlock d i) j) := by
  have hi := h.slot.bound
  have hj := h.record
  obtain ⟨hused, hkey⟩ := (DirRecord.isNamed_iff name.noNul).mp h.hit
  have hrec := recordAt_eq (s := s) h.slot.attached hj
  rw [if_pos hused, hkey.trans (Name.key_of_short hname.short)] at hrec
  exact FS.entryAt_eq_some.mpr ⟨d, hd, hdir, by omega, hrec, hname.dot⟩

theorem FS.Tracks.exists_node (h : s.Tracks disk T) (hchild : T.child dir name.bytes = some id) :
    ∃ nd, s.inodes id = some nd := by
  obtain ⟨x, hx⟩ := T.childNode _ _ _ hchild
  rw [h.node] at hx
  obtain ⟨nd, hnd, -⟩ := Option.map_eq_some_iff.mp hx
  exact ⟨nd, hnd⟩

/-- The record of a name in the tree, where the scan of `naive_lookup` stops. -/
theorem FS.Tracks.finds (hg : Disk.Guarded (· = naiveSuperBlockBlock) disk) (h : s.Tracks disk T)
    (hread : Readable ans) (hd : s.inodes dir = some d) (hname : name.Plain)
    (hchild : T.child dir name.bytes = some id) : ∃ i j, Finds ans s d name i j ∧
      s.number id = some (DirRecord.iIno (s.slotBlock d i) j) := by
  have hdir : d.isDir = true := by
    rw [← h.isDir_eq hd, Tree.isDir, T.parentDir _ _ _ hchild]
  obtain ⟨i, j, hstop⟩ := (stops_or_findsNone hread (h.filed.shape hg hd).count_le .lookup
    (isNamed name)).resolve_right (h.not_absent hg hd hchild hname.short)
  refine ⟨i, j, hstop.finds, ?_⟩
  have hentry := hstop.finds.entryAt hd hdir hname
  obtain ⟨k, hk⟩ := h.names.node_of_entry hentry
  obtain rfl := Option.some.inj (hchild.symm.trans ((h.child dir _ k).mpr ⟨_, _, hentry, hk⟩))
  exact hk

/-- A name the tree does not have has no record. -/
theorem FS.Tracks.not_finds (h : s.Tracks disk T) (hd : s.inodes dir = some d)
    (hdir : d.isDir = true) (hname : name.Plain) (hchild : T.child dir name.bytes = none)
    {i j : Nat} : ¬ Finds ans s d name i j := by
  intro hfinds
  obtain ⟨id, hid⟩ := h.child_of_entry (hfinds.entryAt hd hdir hname)
  cases hchild.symm.trans hid

/-- A name of the tree is found among the dentries, and another one nowhere. -/
theorem FS.Tracks.exec_vfsLookup (hg : Disk.Guarded (· = naiveSuperBlockBlock) disk)
    (h : s.Tracks disk T) (hread : Readable ans) (hd : s.inodes dir = some d)
    (hdir : d.isDir = true) (hname : name.Plain) :
    (vfsLookup dir name).exec ans s = .ok ((T.child dir name.bytes).map .ok, s) := by
  rw [vfsLookup, exec_read_bind, h.dentry]
  cases hchild : T.child dir name.bytes with
  | some id => rfl
  | none =>
      obtain ⟨i, j, hstop⟩ | hnone := stops_or_findsNone (s := s) hread
        (h.filed.shape hg hd).count_le .lookup (isNamed name)
      · exact absurd hstop.finds (h.not_finds hd hdir hname hchild)
      · rw [naiveLookup, exec_bind_of (exec_inode hd),
          exec_bind_of (exec_scanRecords_none (h.filed.shape hg hd).count_le hnone)]
        rfl

/-- A lookup of a name that the tree explains leaves the session beside the run behind it. -/
theorem Both.Behind.find {q q' : Option (Except Int Nat)} {t t' : FS} (h : c.Behind disk T)
    (hplace : c.place dir = some dir') (hfound : c.Found disk dir dir' name q t q' t')
    (hq : q = (T.child dir name.bytes).map .ok) :
    (c.moved t t' ((c.kept.dcache dir name).getD c.kept.nextInode)
      (t'.inodes c.evicted.nextInode)).Behind disk T := by
  have hinv := hfound.inv h.inv hplace
  cases hfound with
  | dentry | absent =>
      rw [moved_same rfl]
      exact h
  | @reloaded id nd nd' dentry out node decode like =>
      have hstays : ((c.aside disk).give id c.kept.nextInode).place 0 = some 0 := by
        refine (Aside.place_give_ne ?_).trans h.root
        rintro rfl
        cases h.root.symm.trans out
      rw [moved_new disk c.kept.nextInode rfl, dentry] at hinv ⊢
      have hhome : ((c.evicted.withNew nd').setDentry dir' name
          (some c.evicted.nextInode)).Rooted :=
        (h.home.withNew nd').setDentry (by simpa using Nat.pos_iff_ne_zero.mp h.home.pos)
      exact ⟨hinv, h.tracks, h.steady, hstays, hhome, h.above, h.device⟩
  | loaded bare =>
      rw [h.tracks.dentry] at bare
      rw [bare] at hq
      cases hq

/-- What a lookup of the session ends with is what the tree has. -/
theorem Both.Behind.looked {q q' : Option (Except Int Nat)} {t t' : FS} (h : c.Behind disk T)
    (hplace : c.place dir = some dir') (hfound : c.Found disk dir dir' name q t q' t')
    (hq : q = (T.child dir name.bytes).map .ok) :
    c.Looked disk T dir dir' name q' t' := by
  have hbehind := h.find hplace hfound hq
  cases hfound with
  | @dentry id id' dentry place =>
      rw [h.tracks.dentry] at dentry
      exact .found dentry h rfl place hplace
  | absent => exact .absent (Option.map_eq_none_iff.mp hq.symm)
  | @reloaded id nd nd' dentry out node decode like =>
      rw [moved_new disk c.kept.nextInode rfl, dentry] at hbehind
      rw [h.tracks.dentry] at dentry
      have hstays : ((c.aside disk).give id c.kept.nextInode).place dir = some dir' := by
        refine (Aside.place_give_ne ?_).trans hplace
        rintro rfl
        cases hplace.symm.trans out
      exact .found dentry hbehind rfl (Aside.place_give_self (n := c.kept.nextInode)) hstays
  | loaded bare =>
      rw [h.tracks.dentry] at bare
      rw [bare] at hq
      cases hq

/-- A name the tree has has its record where the scan stops, and another one has none. -/
theorem Both.Behind.lossless (hg : Disk.Guarded (· = naiveSuperBlockBlock) disk)
    (h : c.Behind disk T) (hread : Readable ans) (hname : name.Plain)
    (hd : c.kept.inodes dir = some d) (hdir : d.isDir = true) :
    Act.Lossless disk c ans (.find dir name) := by
  refine ⟨fun id hid _ => ?_, fun hbare e i j he hfinds => ?_⟩
  · rw [h.tracks.dentry] at hid
    obtain ⟨i, j, hfinds, hnumber⟩ := h.tracks.finds hg hread hd hname hid
    exact ⟨d, i, j, hd, hfinds, hnumber⟩
  · rw [h.tracks.dentry] at hbare
    obtain rfl := Option.some.inj (hd.symm.trans he)
    exact absurd hfinds (h.tracks.not_finds hd hdir hname hbare)

/-- A name is looked up in both runs. -/
theorem Both.Behind.finds (hg : Disk.Guarded (· = naiveSuperBlockBlock) disk)
    (h : c.Behind disk T) (hans : ans.Reliable) (hname : name.Plain)
    (hplace : c.place dir = some dir') (hd : c.kept.inodes dir = some d) (hdir : d.isDir = true) :
    (vfsLookup dir name).exec ans c.kept = .ok ((T.child dir name.bytes).map .ok, c.kept) ∧
    ∃ q' t', (vfsLookup dir' name).exec ans c.evicted = .ok (q', t') ∧
      c.Found disk dir dir' name ((T.child dir name.bytes).map .ok) c.kept q' t' := by
  have hkept := h.tracks.exec_vfsLookup hg hans.reads hd hdir hname
  exact ⟨hkept, h.inv.follows_find hans (h.lossless hg hans.reads hname hd hdir) hplace _ _ hkept⟩

/-- The session looks a name up. -/
theorem Both.Behind.lookup (hg : Disk.Guarded (· = naiveSuperBlockBlock) disk)
    (h : c.Behind disk T) (hans : ans.Reliable) (hname : name.Plain)
    (hplace : c.place dir = some dir') (hd : c.kept.inodes dir = some d) (hdir : d.isDir = true) :
    (vfsLookup dir' name).Total ans c.evicted (c.Looked disk T dir dir' name) := by
  obtain ⟨-, q, t, hexec, hfound⟩ := h.finds hg hans hname hplace hd hdir
  exact .of_exec hexec (h.looked hplace hfound rfl)

/-- The session walks a path. -/
theorem Both.Behind.walk (hg : Disk.Guarded (· = naiveSuperBlockBlock) disk) {path : List Name}
    (h : c.Behind disk T) (hans : ans.Reliable) (hpath : ∀ name, name ∈ path → name.Plain)
    (hplace : c.place id = some id') (hnd : c.kept.inodes id = some nd) :
    (walkPath id' path).Total ans c.evicted fun r t => ∃ c' : Both, c'.evicted = t ∧
      c'.kept = c.kept ∧ c'.Behind disk T ∧ c'.Located T r (T.walk id path) := by
  induction path generalizing c id id' nd with
  | nil => exact .pure ⟨c, rfl, rfl, h, .found hplace hnd⟩
  | cons name path ih =>
      obtain ⟨nd', hnd', hlike⟩ := h.inv.beside.toSameInodes.node hplace hnd
      have hisDir := h.tracks.toShows.isDir_eq hnd
      refine .bind_of (exec_inode hnd') ?_
      rw [hlike.isDir]
      cases hdir : nd.isDir with
      | false =>
          refine .pure ⟨c, rfl, rfl, h, ?_⟩
          rw [Tree.walk, hisDir, hdir]
          exact .lost
      | true =>
          rw [if_pos rfl, Tree.walk, hisDir, hdir, if_pos rfl]
          refine .bind (h.lookup hg hans (hpath name (by simp)) hplace hnd hdir) fun q t hq => ?_
          cases hq with
          | absent new =>
              rw [new]
              exact .pure ⟨c, rfl, rfl, h, .lost⟩
          | @found k k' c' child behind kept place stays =>
              obtain ⟨e, he⟩ := behind.tracks.exists_node child
              rw [child]
              refine (ih behind (fun n hn => hpath n (by simp [hn])) place he).mono ?_
              rintro r u ⟨c'', hu, hkept, hbehind, hlocated⟩
              exact ⟨c'', hu, hkept.trans kept, hbehind, hlocated⟩

end Lookup

end NaiveFS
