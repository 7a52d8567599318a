import NaiveFS.Emptiness
import NaiveFS.Eviction
import NaiveFS.Lib.Hierarchy
import NaiveFS.Lib.Simulation

/-!
# The tree a session works on

A `Tree` says what the inodes in memory are to a user: files with their bytes and directories,
under their names. Calls that keep the callers' rules and whose blocks can be read do to the tree
what `Tree.Does` says, with its results; this holds of successful calls and of failing ones.
-/

namespace NaiveFS

open Bytes

/-! ## Trees and what happens to them -/

/-- Inodes by their addresses, the root's being 0; the names and the files are bytes. -/
abbrev Tree := Hierarchy Nat (List Byte) (List Byte) 0

/-- What is called, with what it returns: an operation, `naive_file_read`, or a lookup. -/
inductive TreeEvent where
  | call (op : Op) (r : Int)
  | read (id len pos : Nat) (bytes : List Byte)
  | find (dir : Nat) (name : Name) (found : Option (Except Int Nat))

/-- `new` is `old` but for the `n` bytes from `pos` on, and may be longer by them. -/
structure WithinRange (old : List Byte) (pos n : Nat) (new : List Byte) : Prop where
  longer : old.length ≤ new.length
  bounded : new.length ≤ max old.length (pos + n)
  outside : ∀ k, k < old.length → k < pos ∨ pos + n ≤ k → new[k]? = old[k]?

/-- `new` is `old` with `data` at `pos`. What is between the end of `old` and `pos` is left open. -/
structure Overlaid (old : List Byte) (pos : Nat) (data new : List Byte) : Prop extends
    WithinRange old pos data.length new where
  reaches : pos + data.length ≤ new.length
  data : ∀ k, k < data.length → new[pos + k]? = data[k]?

/-- What an event does to the tree. -/
inductive Tree.Does (T : Tree) : TreeEvent → Tree → Prop where
  | create {dir perm id : Nat} {name : Name} (parent : T.node dir = some .dir)
      (new : T.child dir name.bytes = none) (free : T.node id = none) :
      T.Does (.call (.create dir name perm) 0)
        (T.insert dir name.bytes id (.file []) parent new free)
  | createFails {dir perm : Nat} {name : Name} {r : Int} (fail : r = -ENOSPC ∨ r = -ENOMEM) :
      T.Does (.call (.create dir name perm) r) T
  | mkdir {dir mode id : Nat} {name : Name} (parent : T.node dir = some .dir)
      (new : T.child dir name.bytes = none) (free : T.node id = none) :
      T.Does (.call (.mkdir dir name mode) 0) (T.insert dir name.bytes id .dir parent new free)
  | mkdirFails {dir mode : Nat} {name : Name} {r : Int} (fail : r = -ENOSPC ∨ r = -ENOMEM) :
      T.Does (.call (.mkdir dir name mode) r) T
  | unlink {dir id : Nat} {name : Name} {c : List Byte}
      (child : T.child dir name.bytes = some id) (file : T.node id = some (.file c)) :
      T.Does (.call (.unlink dir name) 0)
        (T.remove dir name.bytes id child (T.child_of_file file))
  | unlinkAbsent {dir : Nat} {name : Name} (absent : T.child dir name.bytes = none) :
      T.Does (.call (.unlink dir name) (-ENOENT)) T
  | rmdir {dir id : Nat} {name : Name} (child : T.child dir name.bytes = some id)
      (isDir : T.node id = some .dir) (empty : ∀ m, T.child id m = none) :
      T.Does (.call (.rmdir dir name) 0) (T.remove dir name.bytes id child empty)
  | rmdirAbsent {dir : Nat} {name : Name} (absent : T.child dir name.bytes = none) :
      T.Does (.call (.rmdir dir name) (-ENOENT)) T
  | rmdirFile {dir id : Nat} {name : Name} {c : List Byte}
      (child : T.child dir name.bytes = some id) (file : T.node id = some (.file c)) :
      T.Does (.call (.rmdir dir name) (-ENOTDIR)) T
  | rmdirFull {dir id id' : Nat} {name : Name} {m : List Byte}
      (child : T.child dir name.bytes = some id) (full : T.child id m = some id') :
      T.Does (.call (.rmdir dir name) (-ENOTEMPTY)) T
  | write {id pos : Nat} {data c c' : List Byte} (file : T.node id = some (.file c))
      (fits : pos + data.length ≤ naiveMaxFileSize) (stored : Overlaid c pos data c') :
      T.Does (.call (.write id data pos) data.length) (T.store id c c' file)
  | writeTooBig {id pos : Nat} {data : List Byte}
      (big : naiveMaxFileSize < pos + data.length) :
      T.Does (.call (.write id data pos) (-EFBIG)) T
  | writeNoSpace {id pos : Nat} {data : List Byte} :
      T.Does (.call (.write id data pos) (-ENOSPC)) T
  | writeFaults {id pos : Nat} {data c c' : List Byte} (file : T.node id = some (.file c))
      (stored : WithinRange c pos data.length c') :
      T.Does (.call (.write id data pos) (-EFAULT)) (T.store id c c' file)
  | read {id len pos : Nat} {c : List Byte} (file : T.node id = some (.file c)) :
      T.Does (.read id len pos ((c.drop pos).take len)) T
  | find {dir : Nat} {name : Name} :
      T.Does (.find dir name ((T.child dir name.bytes).map .ok)) T

/-! ## The same events in the code -/

/-- An event of the code: the callers' rules are kept, the blocks can be read, and what is read
from a file reaches the user. Names are looked up in directories. -/
inductive FS.Does (s : FS) : TreeEvent → FS → Prop where
  | call {op : Op} {ans : Answers} {r : Int} {t : FS} (lawful : op.Lawful s)
      (checked : op.Checked s) (reads : Readable ans) (exec : Step s op ans r t) :
      s.Does (.call op r) t
  | read {id len pos pos' : Nat} {ans : Answers} {r : Int} {bytes : List Byte} {t : FS}
      (file : ∀ nd, s.inodes id = some nd → nd.isDir = false) (reads : ReadsOk ans)
      (exec : (naiveFileRead id len pos).exec ans s = .ok ((r, pos', bytes), t)) :
      s.Does (.read id len pos bytes) t
  | find {dir : Nat} {name : Name} {ans : Answers} {found : Option (Except Int Nat)} {t : FS}
      (isDir : ∀ d, s.inodes dir = some d → d.isDir = true) (dot : ¬ IsDot name.bytes)
      (short : name.bytes.length ≤ 127) (reads : Readable ans)
      (exec : (vfsLookup dir name).exec ans s = .ok (found, t)) :
      s.Does (.find dir name found) t

/-- What a user sees of an inode. -/
def FS.view (s : FS) (nd : Inode) : Node (List Byte) :=
  if nd.isDir = true then .dir else .file (s.fileBytes nd)

/-- The tree is that of the inodes, the records and the dentries. -/
structure FS.Shows (s : FS) (T : Tree) : Prop where
  node : ∀ id, T.node id = (s.inodes id).map s.view
  child : ∀ dir n id, T.child dir n = some id ↔ s.tree.Leads dir n id
  dentry : ∀ dir name, s.dcache dir name = T.child dir name.bytes

/-- The invariant: the state shows the tree, and its names lead where they should. -/
structure FS.Tracks (disk : Nat → Bytes) (s : FS) (T : Tree) : Prop extends s.Shows T where
  valid : ∀ dir n id, T.child dir n = some id → ∃ name : Name, name.bytes = n
  filed : s.Filed disk
  names : s.tree.Coherent naiveRootInodeNo
  small : ∀ id v, s.number id = some v → v ≤ 4096

section Tracks

variable {disk : Nat → Bytes} {ans : Answers} {s t u m : FS} {T T' : Tree} {id dir c : Nat}
  {d d' e nd nd' : Inode} {name : Name} {r : Int} {n : List Byte} {v : Nat}

theorem FS.Filed.shape (hg : Disk.Guarded (· = naiveSuperBlockBlock) disk) (h : s.Filed disk)
    (hnd : s.inodes id = some nd) : nd.Prefix (· ≠ 0) :=
  (h.mapped.node id nd hnd).mono fun _ hp => hp.ne_zero hg

theorem FS.view_dir (hdir : nd.isDir = true) : s.view nd = .dir := if_pos hdir

theorem FS.view_file (hfile : nd.isDir = false) : s.view nd = .file (s.fileBytes nd) :=
  if_neg (by rw [hfile]; decide)

/-- What is not touched looks the same. -/
theorem FS.Filed.view_untouched (hg : Disk.Guarded (· = naiveSuperBlockBlock) disk)
    (h : s.Filed disk) (hnd : s.inodes id = some nd) (hunt : Untouched s t nd) :
    t.view nd = s.view nd := by
  cases hfile : nd.isDir with
  | true => rw [FS.view_dir hfile, FS.view_dir hfile]
  | false =>
      rw [FS.view_file hfile, FS.view_file hfile,
        hunt.fileBytes (h.shape hg hnd) (h.sized id nd hnd hfile)]

theorem FS.Shows.node_of (h : s.Shows T) (hnd : s.inodes id = some nd) :
    T.node id = some (s.view nd) := by
  rw [h.node, hnd]
  rfl

theorem FS.Shows.node_dir (h : s.Shows T) (hnd : s.inodes id = some nd) (hdir : nd.isDir = true) :
    T.node id = some .dir := by
  rw [h.node_of hnd, FS.view_dir hdir]

theorem FS.Shows.node_file (h : s.Shows T) (hnd : s.inodes id = some nd)
    (hfile : nd.isDir = false) : T.node id = some (.file (s.fileBytes nd)) := by
  rw [h.node_of hnd, FS.view_file hfile]

theorem FS.Shows.node_none (h : s.Shows T) (hnd : s.inodes id = none) : T.node id = none := by
  rw [h.node, hnd]
  rfl

/-- The node of an inode that stays and is not touched. -/
theorem FS.Tracks.node_untouched (hg : Disk.Guarded (· = naiveSuperBlockBlock) disk)
    (h : s.Tracks disk T) (hsame : t.inodes id = s.inodes id)
    (hunt : ∀ nd, s.inodes id = some nd → Untouched s t nd) :
    T.node id = (t.inodes id).map t.view := by
  rw [hsame]
  cases hnd : s.inodes id with
  | none => exact h.node_none hnd
  | some nd =>
      rw [h.node_of hnd, ← h.filed.view_untouched hg hnd (hunt nd hnd)]
      rfl

/-- An entry's child is the one with its number. -/
theorem FS.Tracks.child_of_entry (h : s.Tracks disk T) {k : Nat}
    (hentry : s.entryAt (dir, k) = some (n, v)) : ∃ id, T.child dir n = some id := by
  obtain ⟨id, hid⟩ := h.names.node_of_entry hentry
  exact ⟨id, (h.child dir n id).mpr ⟨k, v, hentry, hid⟩⟩

/-! ### Nothing visible changes -/

theorem FS.Tracks.kept (hg : Disk.Guarded (· = naiveSuperBlockBlock) disk) (h : s.Tracks disk T)
    (ht : t.Filed disk) (hinodes : t.inodes = s.inodes) (hdcache : t.dcache = s.dcache)
    (hunt : ∀ id nd, s.inodes id = some nd → Untouched s t nd)
    (hmark : ∀ v, s.numberMarked v → t.numberMarked v) : t.Tracks disk T := by
  have hnumber (id : Nat) : t.number id = s.number id := by
    unfold FS.number
    rw [hinodes]
  have hkept : NameTree.Kept s.tree t.tree := by
    refine ⟨hnumber, ?_, ?_, hmark⟩
    · rintro ⟨x, k⟩
      show t.entryAt (x, k) = s.entryAt (x, k)
      cases hx : s.inodes x with
      | none => rw [FS.entryAt_none hx, FS.entryAt_none (by rw [hinodes, hx])]
      | some e => exact (hunt x e hx).entryAt hx (by rw [hinodes, hx]) k
    · rintro x n y ⟨name, rfl, hcached⟩
      exact ⟨name, rfl, by rw [← hdcache]; exact hcached⟩
  refine ⟨⟨fun id => ?_, fun dir n id => ?_, fun dir name => ?_⟩, h.valid, ht,
    h.names.kept hkept, fun id v hv => h.small id v ((hnumber id).symm.trans hv)⟩
  · exact h.node_untouched hg (by rw [hinodes]) (hunt id)
  · rw [hkept.leads_iff]
    exact h.child dir n id
  · rw [hdcache]
    exact h.dentry dir name

/-! ### `naive_create` and `naive_mkdir` -/

/-- Bits outside the file type do not make a directory. -/
theorem sIsdir_or {x f : Nat} (hx : x &&& sIfmt = 0) : sIsdir (f ||| x) = sIsdir f := by
  unfold sIsdir
  rw [Nat.and_or_distrib_right, hx, Nat.or_zero]

theorem and_sIfmt {x k : Nat} (hk : k &&& sIfmt = 0) : (x &&& k) &&& sIfmt = 0 := by
  rw [Nat.and_assoc, hk, Nat.and_zero]

theorem initOwner_isDir (nd d : Inode) (uid gid mode : Nat) :
    (nd.initOwner d uid gid mode).isDir = sIsdir mode := by
  unfold Inode.initOwner Inode.isDir
  split
  · rfl
  · show sIsdir (if sIsdir mode then mode ||| sIsgid else mode) = sIsdir mode
    split
    · exact sIsdir_or (by decide)
    · rfl

theorem newFile_isDir (ans : Answers) (d : Inode) (perm ino : Nat) :
    (Inode.newFile ans d (sIfreg ||| (perm &&& 0o7777)) ino).isDir = false := by
  refine (initOwner_isDir _ d _ _ _).trans ?_
  rw [sIsdir_or (and_sIfmt (by decide))]
  decide

theorem newDir_isDir (ans : Answers) (d : Inode) (mode ino b : Nat) :
    (Inode.newDir ans d mode ino b).isDir = true := by
  refine (initOwner_isDir _ d _ _ _).trans ?_
  rw [sIsdir_or (and_sIfmt (by decide))]
  decide

/-- Where blocks can be read, adding an entry fails for lack of a block only. -/
theorem AddEntry.fails {ino : Int} (hread : Readable ans) (h : AddEntry ans s dir d name ino r t)
    (hr : r < 0) : r = -ENOSPC ∧ t = s := by
  cases h with
  | filled | grown => omega
  | noSpace => exact ⟨rfl, rfl⟩
  | unreadable fail =>
      have hunread := fail.unread
      rw [hread] at hunread
      cases hunread
  | newUnreadable full free unread =>
      rw [hread] at unread
      cases unread

/-- The new inode and its entry in the tree. -/
theorem NodeMade.tracks {ino : Nat} {x : Node (List Byte)}
    (hg : Disk.Guarded (· = naiveSuperBlockBlock) disk) (h : s.Tracks disk T)
    (made : NodeMade s m e ino) (howned : m.OwnedOnce) (hd : s.inodes dir = some d)
    (hdir : d.isDir = true) (entry : AddEntry ans m dir d name ino r u)
    (hd' : u.inodes dir = some d') (hmode : d'.iMode = d.iMode)
    (relink : Relinked u t dir name s.nextInode)
    (hadd : NameTree.Added s.tree t.tree dir c name.bytes s.nextInode ino) (hle : ino ≤ 4096)
    (habsent : ∀ k v, k < 24 → s.recordAt d k ≠ some (name.bytes, v))
    (hdcache : t.dcache = (s.setDentry dir name (some s.nextInode)).dcache)
    (ht : t.Filed disk) (hx : t.view e = x) :
    ∃ (parent : T.node dir = some .dir) (new : T.child dir name.bytes = none)
      (free : T.node s.nextInode = none),
      t.Tracks disk (T.insert dir name.bytes s.nextInode x parent new free) := by
  have hready := h.filed.ready
  have hnew : T.child dir name.bytes = none := by
    cases hchild : T.child dir name.bytes with
    | none => rfl
    | some id =>
        obtain ⟨k, v, hentry, -⟩ := (h.child dir _ id).mp hchild
        obtain ⟨d0, hd0, -, hk, hrec, -⟩ := FS.entryAt_eq_some.mp hentry
        obtain rfl := Option.some.inj (hd.symm.trans hd0)
        exact absurd hrec (habsent k v hk)
  refine ⟨h.node_dir hd hdir, hnew, h.node_none (hready.fresh _ (Nat.le_refl _)),
    ⟨⟨fun id => ?_, fun x n y => ?_, fun x n => ?_⟩, fun x n y hy => ?_, ht,
      h.names.added hadd, small_added h.small hle hadd⟩⟩
  · show Function.update T.node s.nextInode (some x) id = _
    by_cases hnext : id = s.nextInode
    · rw [hnext, Function.update_self, made.inodes_new hready hd entry relink, ← hx]
      rfl
    · rw [Function.update_of_ne hnext]
      by_cases hid : id = dir
      · subst hid
        obtain ⟨d'', hd'', -, hmode', -⟩ := relink.parent d' hd'
        have hdir'' : d''.isDir = true := by rwa [isDir_of_iMode (hmode'.trans hmode)]
        rw [h.node_dir hd hdir, hd'']
        exact congrArg some (FS.view_dir hdir'').symm
      · exact h.node_untouched hg (made.inodes_ne hready hd entry relink hid hnext)
          fun nd hnd => made.untouched_ne hready hd entry relink howned hid hnd
  · rw [hadd.leads_iff h.names, ← h.child]
    show (if x = dir ∧ n = name.bytes then some s.nextInode else T.child x n) = some y ↔ _
    split
    · rename_i heq
      rw [heq.1, heq.2, hnew]
      simp only [Option.some.injEq, reduceCtorEq, true_and, false_or]
      exact eq_comm
    · rename_i hne
      simp only [← and_assoc, hne, false_and, or_false]
  · rw [hdcache, FS.dcache_setDentry, h.dentry x n]
    show _ = if x = dir ∧ n.bytes = name.bytes then some s.nextInode else T.child x n.bytes
    have hname : n = name ↔ n.bytes = name.bytes := ⟨congrArg _, Name.ext'⟩
    simp only [hname]
  · have hy' : (if x = dir ∧ n = name.bytes then some s.nextInode else T.child x n) = some y := hy
    split at hy'
    · rename_i heq
      exact ⟨name, heq.2.symm⟩
    · exact h.valid x n y hy'

/-- A number more in the bitmap, and an inode that is dropped at once. -/
theorem FS.Ready.inodes_dropNew (hs : s.Ready) (hm : m.inodes = (s.withNew e).inodes) :
    (m.dropInode s.nextInode).inodes = s.inodes := by
  funext k
  by_cases hk : k = s.nextInode
  · rw [hk, FS.inodes_dropInode_self, hs.fresh _ (Nat.le_refl _)]
  · rw [FS.inodes_dropInode_ne hk, hm, FS.inodes_withNew_ne hk]

theorem numberMarked_of_mark {ino : Nat} (hpos : 1 ≤ ino)
    (h : t.sbi.inodeBitmap = s.sbi.inodeBitmap.setBit (ino - 1)) (hv : s.numberMarked v) :
    t.numberMarked v := (numberMarked_mark hpos h).mpr (.inl hv)

theorem Create.tracks {perm : Nat} (hg : Disk.Guarded (· = naiveSuperBlockBlock) disk)
    (h : s.Tracks disk T) (hd : s.inodes dir = some d) (hdir : d.isDir = true) (hroom : s.Room d)
    (hdot : ¬ IsDot name.bytes) (hshort : name.bytes.length ≤ 127)
    (habsent : ∀ k v, k < 24 → s.recordAt d k ≠ some (name.bytes, v)) (hread : Readable ans)
    (hc : Create ans s dir d name (sIfreg ||| (perm &&& 0o7777)) r t) (ht : t.Filed disk) :
    ∃ T', T.Does (.call (.create dir name perm) r) T' ∧ t.Tracks disk T' := by
  have hready := h.filed.ready
  cases hc with
  | noInode => exact ⟨T, .createFails (.inl rfl), h⟩
  | noMemory => exact ⟨T, .createFails (.inr rfl), h⟩
  | @notLinked ino _ u free mem entry fail =>
      obtain ⟨rfl, rfl⟩ := entry.fails hread fail
      exact ⟨T, .createFails (.inl rfl), h.kept hg ht (hready.inodes_dropNew rfl) rfl
        (fun _ _ _ => .of_cache rfl) fun v => numberMarked_of_mark free.pos rfl⟩
  | @linked ino u free mem entry =>
      obtain ⟨d', c, hd', hmode, hrelink, hadd⟩ := entry.created hg hready h.filed.owned
        h.filed.mapped hd hdir hroom hdot hshort habsent free
      have hdcache : (u.setDentry dir name (some s.nextInode)).dcache
          = (s.setDentry dir name (some s.nextInode)).dcache := by
        have hu : u.dcache = s.dcache := entry.dcache
        rw [FS.setDentry, FS.setDentry, hu]
      have hview : (u.setDentry dir name (some s.nextInode)).view
          (Inode.newFile ans d (sIfreg ||| (perm &&& 0o7777)) ino) = .file [] :=
        FS.view_file (newFile_isDir ans d perm ino)
      obtain ⟨parent, new, unused, htracks⟩ := fileMade_made.tracks hg h
        (fileMade_owned h.filed.owned) hd hdir entry hd' hmode hrelink hadd free.bitmap habsent
        hdcache ht hview
      exact ⟨_, .create parent new unused, htracks⟩

theorem Mkdir.tracks {mode : Nat} (hg : Disk.Guarded (· = naiveSuperBlockBlock) disk)
    (h : s.Tracks disk T) (hd : s.inodes dir = some d) (hdir : d.isDir = true) (hroom : s.Room d)
    (hdot : ¬ IsDot name.bytes) (hshort : name.bytes.length ≤ 127)
    (habsent : ∀ k v, k < 24 → s.recordAt d k ≠ some (name.bytes, v)) (hread : Readable ans)
    (hm : Mkdir ans s dir d name mode r t) (ht : t.Filed disk) :
    ∃ T', T.Does (.call (.mkdir dir name mode) r) T' ∧ t.Tracks disk T' := by
  have hready := h.filed.ready
  have howned := h.filed.owned
  cases hm with
  | noInode => exact ⟨T, .mkdirFails (.inl rfl), h⟩
  | noMemory => exact ⟨T, .mkdirFails (.inr rfl), h⟩
  | noBlock =>
      exact ⟨T, .mkdirFails (.inl rfl), h.kept hg ht rfl rfl (fun _ _ _ => .of_cache rfl)
        fun v hv => hv⟩
  | blockUnreadable _ _ _ unread =>
      rw [hread] at unread
      cases unread
  | @notLinked ino b _ u free mem block read entry fail =>
      obtain ⟨rfl, rfl⟩ := entry.fails hread fail
      have hunt (id : Nat) (nd : Inode) (hnd : s.inodes id = some nd) :
          Untouched s (s.dirMade ans d mode ino b) nd := howned.untouched_dirMade hnd block
      exact ⟨T, .mkdirFails (.inl rfl), h.kept hg ht (hready.inodes_dropNew rfl) rfl
        (fun id nd hnd => (hunt id nd hnd).trans (.of_cache rfl))
        fun v => numberMarked_of_mark free.pos rfl⟩
  | @linked ino b u free mem block read entry =>
      obtain ⟨d', c, hd', hmode, hrelink, hadd⟩ := entry.madeDir hg hready howned
        h.filed.mapped hd hdir hroom hdot hshort habsent free block
      have hdcache : ((u.mapInode dir Inode.addLink).setDentry dir name (some s.nextInode)).dcache
          = (s.setDentry dir name (some s.nextInode)).dcache := by
        have hu : (u.mapInode dir Inode.addLink).dcache = s.dcache :=
          (mapInode_dcache u dir _).trans entry.dcache
        rw [FS.setDentry, FS.setDentry, hu]
      obtain ⟨parent, new, unused, htracks⟩ := (dirMade_made howned block).tracks hg h
        (dirMade_owned howned block) hd hdir entry hd' hmode hrelink hadd free.bitmap habsent
        hdcache ht (FS.view_dir (newDir_isDir ans d mode ino b))
      exact ⟨_, .mkdir parent new unused, htracks⟩

/-! ### `naive_unlink` and `naive_rmdir` -/

/-- The inode and its entry go from the tree. -/
theorem Cleared.tracks {i j : Nat} {site : Site}
    (hg : Disk.Guarded (· = naiveSuperBlockBlock) disk) (h : s.Tracks disk T)
    (hcleared : Cleared s m dir d i j) (hd : s.inodes dir = some d)
    (hdentry : s.dcache dir name = some id) (hnd : s.inodes id = some nd)
    (hempty : ∀ k, s.entryAt (id, k) = none) (hshort : name.bytes.length ≤ 127)
    (stop : StopsAt ans s d site (isNamed name) i j)
    (ht : (m.removed dir name id nd).Filed disk) :
    ∃ (child : T.child dir name.bytes = some id) (empty : ∀ n, T.child id n = none),
      (m.removed dir name id nd).Tracks disk (T.remove dir name.bytes id child empty) := by
  have howned := h.filed.owned
  have hle : nd.iIno ≤ 4096 := h.small id _ (FS.number_of hnd)
  have hrem := hcleared.removed h.names howned hd hdentry hnd hempty hshort hle stop
  have hchild : T.child dir name.bytes = some id := by rw [← h.dentry, hdentry]
  -- the inode has no entries, so the tree has nothing below the node that goes
  have hleaf (n : List Byte) : T.child id n = none := by
    cases hn : T.child id n with
    | none => rfl
    | some x =>
        obtain ⟨k, v, hentry, -⟩ := (h.child id n x).mp hn
        cases (hempty k).symm.trans hentry
  have hne : dir ≠ id := by
    rintro rfl
    cases (hleaf name.bytes).symm.trans hchild
  have hdir : d.isDir = true := by
    obtain ⟨k, v, hentry, -⟩ := (h.child dir _ id).mp hchild
    obtain ⟨d0, hd0, hdir, -⟩ := FS.entryAt_eq_some.mp hentry
    obtain rfl := Option.some.inj (hd.symm.trans hd0)
    exact hdir
  obtain ⟨d', hd', -, hmode, -⟩ := hcleared.parent
  refine ⟨hchild, hleaf, ⟨⟨fun x => ?_, fun x n y => ?_, fun x n => ?_⟩, fun x n y hy => ?_, ht,
    h.names.removed hrem, small_removed h.small hrem⟩⟩
  · show Function.update T.node id none x = _
    by_cases hx : x = id
    · have hgone : (m.removed dir name id nd).inodes id = none := FS.inodes_dropInode_self
      rw [hx, Function.update_self, hgone]
      rfl
    · rw [Function.update_of_ne hx]
      by_cases hxdir : x = dir
      · subst hxdir
        have hdir' : d'.isDir = true := by rwa [isDir_of_iMode hmode]
        rw [h.node_dir hd hdir, inodes_removed_ne hx, hd']
        exact congrArg some (FS.view_dir hdir').symm
      · refine h.node_untouched hg ((inodes_removed_ne hx).trans (hcleared.inodes x hxdir))
          fun e he => ?_
        have hclear : Untouched s (s.clearRecord d i j) e :=
          howned.untouched he hd hxdir stop.slot.bound stop.slot.attached _
        exact hclear.trans (.of_cache ((removed_cache m dir name id nd).trans hcleared.cache))
  · rw [hrem.leads_iff h.names, ← h.child]
    show (if x = dir ∧ n = name.bytes then none else T.child x n) = some y ↔ _
    split
    · rename_i heq
      simp [heq]
    · rename_i hother
      simp [hother]
  · rw [removed_dcache, FS.dcache_setDentry, hcleared.dcache, h.dentry x n]
    show _ = if x = dir ∧ n.bytes = name.bytes then none else T.child x n.bytes
    have hname : n = name ↔ n.bytes = name.bytes := ⟨congrArg _, Name.ext'⟩
    simp only [hname]
  · have hy' : (if x = dir ∧ n = name.bytes then none else T.child x n) = some y := hy
    split at hy'
    · cases hy'
    · exact h.valid x n y hy'

/-- The record of a dentry's name is found. -/
theorem FS.Tracks.not_absent {site : Site} (hg : Disk.Guarded (· = naiveSuperBlockBlock) disk)
    (h : s.Tracks disk T) (hd : s.inodes dir = some d) (hchild : T.child dir name.bytes = some id)
    (hshort : name.bytes.length ≤ 127) : ¬ FindsNone ans s d site (isNamed name) := by
  intro hnone
  have hshape := h.filed.shape hg hd
  obtain ⟨k, v, hentry, -⟩ := (h.child dir _ id).mp hchild
  obtain ⟨d0, hd0, -, hk, hrec, -⟩ := FS.entryAt_eq_some.mp hentry
  obtain rfl := Option.some.inj (hd.symm.trans hd0)
  refine absent_of_findsNone ⟨hshape.count_nonneg, fun i hi hp => hshape.lt_count hi hp⟩ hnone k v
    hk ?_
  rw [hrec, Name.key_of_short hshort]

/-- Where blocks can be read, the entry of a dentry is removed. -/
theorem FS.Tracks.removes (hg : Disk.Guarded (· = naiveSuperBlockBlock) disk)
    (h : s.Tracks disk T) (hd : s.inodes dir = some d) (hdentry : s.dcache dir name = some id)
    (hshort : name.bytes.length ≤ 127) (hread : Readable ans)
    (hentry : RemoveEntry ans s d name r t) : ¬ r < 0 := by
  cases hentry with
  | cleared => decide
  | unreadable fail =>
      have hunread := fail.unread
      rw [hread] at hunread
      cases hunread
  | absent none =>
      exact absurd none (h.not_absent hg hd (by rw [← h.dentry, hdentry]) hshort)

theorem Unlink.tracks (hg : Disk.Guarded (· = naiveSuperBlockBlock) disk) (h : s.Tracks disk T)
    (hshort : name.bytes.length ≤ 127)
    (hfile : ∀ id nd, s.dcache dir name = some id → s.inodes id = some nd → nd.isDir = false)
    (hread : Readable ans) (hu : Unlink ans s dir name r t) (ht : t.Filed disk) :
    ∃ T', T.Does (.call (.unlink dir name) r) T' ∧ t.Tracks disk T' := by
  cases hu with
  | noDentry none => exact ⟨T, .unlinkAbsent (by rw [← h.dentry, none]), h⟩
  | notRemoved dentry parent entry fail =>
      exact absurd fail (h.removes hg parent dentry hshort hread entry)
  | @removed d nd id i j dentry parent target node stop =>
      have hcleared : Cleared s (s.clearRecord d i j) dir d i j :=
        ⟨rfl, rfl, rfl, fun _ _ => rfl, d, parent, rfl, rfl, rfl⟩
      have hnd := hfile id nd dentry target
      obtain ⟨child, empty, htracks⟩ := hcleared.tracks hg h parent dentry target
        (fun k => FS.entryAt_file target hnd k) hshort stop ht
      exact ⟨_, .unlink child (h.node_file target hnd), htracks⟩

/-- `naive_rmdir` of a file. -/
theorem vfsRmdir_file (hdentry : s.dcache dir name = some id) (hd : s.inodes dir = some d)
    (hnd : s.inodes id = some nd) (hfile : nd.isDir = false) :
    (vfsRmdir dir name).exec ans s = .ok (-ENOTDIR, s) := by
  have hrmdir : (naiveRmdir dir name id).exec ans s = .ok (-ENOTDIR, s) := by
    rw [naiveRmdir, Prog.exec_bind_of (exec_inode hd), Prog.exec_bind_of (exec_inode hnd), hfile,
      if_pos (by decide)]
    rfl
  rw [vfsRmdir, Prog.exec_read_bind]
  simp only [hdentry]
  rw [Prog.exec_bind_of hrmdir, if_neg (by decide)]
  rfl

theorem Rmdir.tracks (hg : Disk.Guarded (· = naiveSuperBlockBlock) disk) (h : s.Tracks disk T)
    (hshort : name.bytes.length ≤ 127) (hread : Readable ans)
    (hexec : (vfsRmdir dir name).exec ans s = .ok (r, t)) (ht : t.Filed disk) :
    ∃ T', T.Does (.call (.rmdir dir name) r) T' ∧ t.Tracks disk T' := by
  cases vfsRmdir_cases h.filed.ready hexec with
  | noDentry none => exact ⟨T, .rmdirAbsent (by rw [← h.dentry, none]), h⟩
  | notDir dentry target file =>
      exact ⟨T, .rmdirFile (by rw [← h.dentry, dentry]) (h.node_file target file), h⟩
  | unreadable _ _ fail =>
      have hunread := fail.unread
      rw [hread] at hunread
      cases hunread
  | @notEmpty nd id i j dentry target stop =>
      have hchild : T.child dir name.bytes = some id := by rw [← h.dentry, dentry]
      have hdir : nd.isDir = true := by
        by_contra hfile
        obtain ⟨d, hd⟩ : ∃ d, s.inodes dir = some d := by
          obtain ⟨k, v, hentry, -⟩ := (h.child dir _ id).mp hchild
          obtain ⟨d, hd, -⟩ := FS.entryAt_eq_some.mp hentry
          exact ⟨d, hd⟩
        cases hexec.symm.trans (vfsRmdir_file dentry hd target (by simpa using hfile))
      obtain ⟨hused, hdot⟩ := isOther_iff.mp stop.hit
      have hi := stop.slot.bound
      have hj := stop.bound
      have hrec := recordAt_eq (s := s) stop.slot.attached hj
      rw [if_pos hused] at hrec
      obtain ⟨id', hid'⟩ := h.child_of_entry
        (FS.entryAt_eq_some.mpr ⟨nd, target, hdir, by omega, hrec, hdot⟩)
      exact ⟨T, .rmdirFull hchild hid', h⟩
  | notRemoved dentry parent entry fail =>
      exact absurd fail (h.removes hg parent dentry hshort hread entry)
  | @removed d nd id i j dentry parent target node isDir empty stop =>
      have hparent : ((s.clearRecord d i j).mapInode dir Inode.dropLink).inodes dir
          = some (Inode.dropLink d) := by
        rw [FS.mapInode_of (s := s.clearRecord d i j) parent, FS.inodes_setInode_self]
      have hcleared : Cleared s ((s.clearRecord d i j).mapInode dir Inode.dropLink) dir d i j :=
        ⟨mapInode_cache _ _ _, FS.mapInode_sbi _ _ _, mapInode_dcache _ _ _,
          fun k hk => FS.inodes_mapInode_ne hk, _, hparent, rfl, rfl, rfl⟩
      obtain ⟨child, hleaf, htracks⟩ := hcleared.tracks hg h parent dentry target
        (fun k => empty.entryAt_none (h.filed.shape hg target) target k) hshort stop ht
      exact ⟨_, .rmdir child (h.node_dir target isDir) hleaf, htracks⟩

/-! ### `naive_file_write` -/

theorem FS.length_fileBytes (s : FS) (nd : Inode) : (s.fileBytes nd).length = nd.iSize.toNat :=
  length_slice _ _ _

theorem FS.getElem?_fileBytes {k : Nat} (hk : k < nd.iSize.toNat) :
    (s.fileBytes nd)[k]? = some (s.content nd k) := by
  unfold FS.fileBytes
  rw [List.getElem?_eq_getElem (by rw [length_slice]; exact hk), getElem_slice, Nat.zero_add]

/-- The tree with the bytes that the file has now. -/
theorem Write.stored (hg : Disk.Guarded (· = naiveSuperBlockBlock) disk) (h : s.Tracks disk T)
    (hnd : s.inodes id = some nd) (hfile : nd.isDir = false) (hw : Write s id r t)
    (hnd' : t.inodes id = some nd') (hino : nd'.iIno = nd.iIno) (hmode : nd'.iMode = nd.iMode)
    (ht : t.Filed disk) :
    t.Tracks disk (T.store id (s.fileBytes nd) (t.fileBytes nd') (h.node_file hnd hfile)) := by
  have hother := fun k (hk : k ≠ id) => hw.inodes hk
  have huntouched := fun k e (he : s.inodes k = some e) (hk : k ≠ id) =>
    hw.untouched h.filed.owned he hk
  have hkept := (file_changed hnd hnd' hfile hino hmode hother huntouched hw.dcache
    hw.inodeBitmap).kept
  refine ⟨⟨fun x => ?_, fun x n y => ?_, fun x n => ?_⟩, h.valid, ht, h.names.kept hkept,
    fun x v hv => h.small x v ((hkept.number x).symm.trans hv)⟩
  · show Function.update T.node id (some (.file (t.fileBytes nd'))) x = _
    by_cases hx : x = id
    · have hfile' : nd'.isDir = false := by rwa [isDir_of_iMode hmode]
      rw [hx, Function.update_self, hnd']
      exact congrArg some (FS.view_file hfile').symm
    · rw [Function.update_of_ne hx]
      exact h.node_untouched hg (hother x hx) fun e he => huntouched x e he hx
  · rw [hkept.leads_iff]
    exact h.child x n y
  · rw [hw.dcache]
    exact h.dentry x n

/-- Blocks added to a file leave its bytes. -/
theorem Extend.fileBytes {e : Inode} (hsize : nd.Sized) (grow : Extend id s t)
    (hgrown : nd.Grown e) : t.fileBytes e = s.fileBytes nd := by
  have hle := hsize.le_blocks
  unfold FS.fileBytes
  rw [hgrown.iSize]
  refine slice_congr fun k hk => content_of_pointers grow.frame.2.2.1 (hgrown.pointers _ ?_)
  unfold naiveBlockSize at *
  omega

/-- What the data part leaves of the file: the bytes outside the range, and all the data unless
user memory faults. -/
theorem fileWriteData_bytes {pos : Nat} {data : List Byte} {q : Int × Nat}
    (hread : Readable ans) (howned : u.OwnedOnce) (he : u.inodes id = some e)
    (hshape : e.Prefix (· ≠ 0)) (hsize : e.Sized)
    (hend : ((pos + data.length : Nat) : Int) ≤ naiveBlockSize * e.blockCount)
    (h : (fileWriteData id data pos).exec ans u = .ok (q, t)) :
    ∃ nd', t.inodes id = some nd' ∧ e.SameBlocks nd' ∧
      ((q.1 = -EFAULT ∧ WithinRange (u.fileBytes e) pos data.length (t.fileBytes nd')) ∨
        (q.1 = data.length ∧ Overlaid (u.fileBytes e) pos data (t.fileBytes nd'))) := by
  obtain ⟨nd', hnd', hsame, hmax, hsized, hres⟩ :=
    fileWriteData_stored howned he hshape hsize hend h
  obtain ⟨v, hloop, hcache⟩ := fileWriteData_loop he h
  obtain ⟨hret, houtside⟩ := fileWriteLoop_outside howned (fun i b => hread _ i b) he hshape
    (Nat.le_refl _) hend hloop
  obtain ⟨hpos, -⟩ := fileWriteLoop_stored howned he hshape (Nat.le_refl _) hend hloop
  have hlow := hsize.nonneg
  have hle := hsize.le_blocks
  have hcontent (k : Nat) : t.content nd' k = v.content e k :=
    content_of_pointers hcache (congrFun hsame.blockPointers _)
  have hrange : WithinRange (u.fileBytes e) pos data.length (t.fileBytes nd') := by
    refine ⟨?_, ?_, fun k hk hout => ?_⟩
    · rw [FS.length_fileBytes, FS.length_fileBytes, hmax]
      omega
    · rw [FS.length_fileBytes, FS.length_fileBytes, hmax]
      omega
    · rw [FS.length_fileBytes] at hk
      rw [FS.getElem?_fileBytes hk, FS.getElem?_fileBytes (by rw [hmax]; omega), hcontent,
        houtside k (by omega) hout]
  refine ⟨nd', hnd', hsame, ?_⟩
  rcases hret with hfault | hall
  · exact .inl ⟨hfault, hrange⟩
  · obtain ⟨rfl, hstored⟩ := hres.resolve_left (by omega)
    refine .inr ⟨rfl, hrange, ?_, fun k hk => ?_⟩
    · rw [FS.length_fileBytes, hmax]
      omega
    · have hin : pos + k < nd'.iSize.toNat := by
        rw [hmax]
        omega
      rw [FS.getElem?_fileBytes hin,
        content_of_pointers (s := t) rfl (congrFun hsame.blockPointers _),
        hstored _ (by omega), blit_in (by omega) (by omega),
        Nat.add_sub_cancel_left, List.getD_eq_getElem?_getD, List.getElem?_eq_getElem hk]
      rfl

theorem naiveFileWrite_tracks {pos : Nat} {data : List Byte} {q : Int × Nat}
    (hg : Disk.Guarded (· = naiveSuperBlockBlock) disk) (h : s.Tracks disk T)
    (hnd : s.inodes id = some nd) (hfile : nd.isDir = false)
    (hrange : pos + data.length < 2 ^ 63) (hread : Readable ans)
    (hexec : (naiveFileWrite id data pos).exec ans s = .ok (q, t)) (ht : t.Filed disk) :
    ∃ T', T.Does (.call (.write id data pos) q.1) T' ∧ t.Tracks disk T' := by
  have hready := h.filed.ready
  have hmapped := h.filed.mapped
  have hsize := h.filed.sized id nd hnd hfile
  have hw := naiveFileWrite_cases hready hexec
  rcases naiveFileWrite_split hg hready hmapped hnd hsize hrange hexec with
    ⟨hbig, rfl, rfl⟩ | ⟨rfl, hgrow⟩ | ⟨hfits, u, e, hgrow, he, hfull, hdata⟩
  · exact ⟨T, .writeTooBig hbig, h⟩
  · obtain ⟨e, he, hgrown⟩ := hgrow.grown hnd
    have htracks := hw.stored hg h hnd hfile he hgrown.iIno hgrown.iMode ht
    simp only [hgrow.fileBytes hsize hgrown, Hierarchy.store_self] at htracks
    exact ⟨T, .writeNoSpace, htracks⟩
  · obtain ⟨e', he', hgrown⟩ := hgrow.grown hnd
    obtain rfl := Option.some.inj (he.symm.trans he')
    have hshape : e.Prefix (· ≠ 0) :=
      ((hgrow.mapped hg hmapped).node id e he).mono fun _ hp => hp.ne_zero hg
    obtain ⟨nd', hnd', hsame, hbytes⟩ := fileWriteData_bytes hread (hgrow.owned h.filed.owned) he
      hshape (hsize.grown hgrown) hfull hdata
    have htracks := hw.stored hg h hnd hfile hnd' (hsame.iIno.trans hgrown.iIno)
      (hsame.iMode.trans hgrown.iMode) ht
    rw [hgrow.fileBytes hsize hgrown] at hbytes
    rcases hbytes with ⟨hret, hrange⟩ | ⟨hret, hover⟩
    · rw [hret]
      exact ⟨_, .writeFaults (h.node_file hnd hfile) hrange, htracks⟩
    · rw [hret]
      exact ⟨_, .write (h.node_file hnd hfile) hfits hover, htracks⟩

/-! ### Every event -/

/-- A lookup finds what the tree has, and leaves the state. -/
theorem FS.Tracks.find {q : Option (Except Int Nat)} (h : s.Tracks disk T)
    (hdir : ∀ d, s.inodes dir = some d → d.isDir = true) (hdot : ¬ IsDot name.bytes)
    (hshort : name.bytes.length ≤ 127)
    (hexec : (vfsLookup dir name).exec ans s = .ok (q, t)) :
    q = (T.child dir name.bytes).map .ok ∧ t = s := by
  rw [vfsLookup, Prog.exec_read_bind] at hexec
  rw [← h.dentry]
  cases hdentry : s.dcache dir name with
  | some id =>
      simp only [hdentry] at hexec
      cases hexec
      exact ⟨rfl, rfl⟩
  | none =>
      simp only [hdentry] at hexec
      obtain ⟨d, hd⟩ := exec_inode_bind_ok hexec
      rcases exec_naiveLookup hd hexec with
        ⟨-, rfl, rfl⟩ | ⟨i, j, x, u, -, hslot, -, hj, hhit, -⟩
      · exact ⟨rfl, rfl⟩
      · -- a record with the name would be an entry of the tree
        have hi := hslot.bound
        obtain ⟨hused, hname⟩ := (DirRecord.isNamed_iff name.noNul).mp hhit
        have hkey : DirRecord.name (s.slotBlock d i) j = name.bytes :=
          hname.trans (Name.key_of_short hshort)
        have hrec := recordAt_eq (s := s) hslot.attached hj
        rw [if_pos hused, hkey] at hrec
        obtain ⟨id, hid⟩ := h.child_of_entry
          (FS.entryAt_eq_some.mpr ⟨d, hd, hdir d hd, by omega, hrec, hdot⟩)
        cases (h.dentry dir name).symm.trans hdentry |>.symm.trans hid

theorem Step.tracks {op : Op} (hg : Disk.Guarded (· = naiveSuperBlockBlock) disk)
    (h : s.Tracks disk T) (hop : op.Lawful s) (hcheck : op.Checked s) (hread : Readable ans)
    (hstep : Step s op ans r t) : ∃ T', T.Does (.call op r) T' ∧ t.Tracks disk T' := by
  have hready := h.filed.ready
  have hcached : op.cached := by
    cases op with
    | lookup => exact hop.elim
    | create | mkdir | unlink | rmdir | write => trivial
  have ht : t.Filed disk := hstep.filed hg h.filed hcached hcheck hread
  cases op with
  | create dir name perm =>
      obtain ⟨d, hd, hcases⟩ := naiveCreate_cases hready hstep
      obtain ⟨hdot, hshort, hparent⟩ := hop
      obtain ⟨hdir, hroom, habsent⟩ := hparent d hd
      exact hcases.tracks hg h hd hdir hroom hdot hshort habsent hread ht
  | mkdir dir name mode =>
      obtain ⟨d, hd, hcases⟩ := naiveMkdir_cases hready hstep
      obtain ⟨hdot, hshort, hparent⟩ := hop
      obtain ⟨hdir, hroom, habsent⟩ := hparent d hd
      exact hcases.tracks hg h hd hdir hroom hdot hshort habsent hread ht
  | unlink dir name => exact (vfsUnlink_cases hready hstep).tracks hg h hop.1 hop.2 hread ht
  | rmdir dir name => exact Rmdir.tracks hg h hop hread hstep ht
  | write id data pos =>
      obtain ⟨q, u, hwrite, hend⟩ := Prog.exec_bind_ok.mp hstep
      cases hend
      obtain ⟨nd, hnd⟩ := exec_inode_bind_ok hwrite
      exact naiveFileWrite_tracks hg h hnd (hop nd hnd) hcheck.2 hread hwrite ht
  | lookup => exact hop.elim

/-- A mount shows the root alone. -/
theorem tracks_mounted (hino : ∀ i, (disk 3).bit i = true ↔ i = 0) {s0 : FS}
    (h0 : Mounted disk s0) : s0.Tracks disk (Hierarchy.bare 0) := by
  have hfiled := filed_mounted h0
  obtain ⟨_, ts, rfl⟩ := mounted_eq h0
  have hsound : (FS.mounted disk ts).Sound disk := sound_mounted hino ts
  refine ⟨⟨fun id => ?_, fun x n y => ?_, fun _ _ => rfl⟩, fun _ _ _ hn => (nomatch hn), hfiled,
    hsound.names.coherent, hsound.small⟩
  · unfold Hierarchy.bare
    dsimp only
    by_cases hid : id = 0
    · rw [hid, Function.update_self]
      have hroot : (Inode.root ts).isDir = true :=
        show sIsdir (sIfdir ||| 0o755) = true by decide
      exact congrArg some (FS.view_dir hroot).symm
    · rw [Function.update_of_ne hid]
      cases hnd : (FS.mounted disk ts).inodes id with
      | none => rfl
      | some nd => exact absurd (inodes_mounted hnd).1 hid
  · refine iff_of_false (fun h => nomatch h) ?_
    rintro ⟨k, v, hentry, -⟩
    obtain ⟨d, hd, -, -, hrec, -⟩ := FS.entryAt_eq_some.mp hentry
    obtain ⟨-, rfl⟩ := inodes_mounted hd
    have hnone : (FS.mounted disk ts).recordAt (Inode.root ts) k = none := if_neg fun hp => hp.1 rfl
    cases hnone.symm.trans hrec

end Tracks

/-! ## Sessions -/

/-- Follow the dentries from the root. -/
def FS.resolve (s : FS) (path : List Name) : Option Nat := followPath s.dcache path 0

section Sessions

variable {disk : Nat → Bytes} {s s0 : FS} {T : Tree} {es : List TreeEvent}

theorem FS.Shows.resolve (h : s.Shows T) (path : List Name) :
    s.resolve path = T.find (path.map Name.bytes) := by
  unfold FS.resolve Hierarchy.find followPath
  rw [List.foldlM_map]
  exact congrArg (fun f => List.foldlM f 0 path) (funext fun dir => funext (h.dentry dir))

end Sessions

/-! ### A session -/

/-- Run a list of calls that keep the callers' rules, with what they return. -/
def FS.replies (s : FS) : List (Op × Answers) → Option (List Int × FS)
  | [] => some ([], s)
  | (op, ans) :: ops =>
    match op.prog.exec ans s with
    | .ok (r, t) =>
      if op.Lawful s ∧ op.Checked s then (t.replies ops).map fun x => (r :: x.1, x.2) else none
    | .error _ => none

end NaiveFS
