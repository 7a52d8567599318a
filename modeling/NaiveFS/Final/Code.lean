import NaiveFS.State

/-!
# `naivefs-final/naivefs.c`

The last version of the module keeps its directory in memory: one list of
entries and one counter of inode numbers, both global, which every mount clears
and every operation on a root directory reads and changes.
-/

namespace NaiveFS.Final

open Bytes

abbrev EEXIST : Int := 17

/-- `NAIVE_MAX_FILENAME_LEN` of this version. -/
abbrev naiveMaxFilenameLen : Nat := 30

/-! ## The global list -/

/-- `struct naive_file_entry`: the field `name` holds a string and the NULs after it. -/
structure FileEntry where
  name : Bytes
  inodeNo : Int
  isDir : Bool
  padded : name = cstr (name.field 0 (naiveMaxFilenameLen - 1))

/-- The string in the field `name`. -/
def FileEntry.text (e : FileEntry) : List Byte := e.name.field 0 (naiveMaxFilenameLen - 1)

/-- `file_list` and `next_inode_no`. -/
structure Globals where
  fileList : List FileEntry
  nextInodeNo : Int

/-- The names in the list. -/
def Globals.texts (g : Globals) : List (List Byte) := g.fileList.map FileEntry.text

/-- The field after `strncpy(entry->name, s, 29)` and `entry->name[29] = '\0'`. -/
def nameField (s : List Byte) : Bytes :=
  (zeros.strncpy 0 s (naiveMaxFilenameLen - 1)).blit (naiveMaxFilenameLen - 1) [0]

theorem nameField_eq (s : List Byte) : nameField s = cstr (s.take (naiveMaxFilenameLen - 1)) := by
  funext i
  unfold nameField naiveMaxFilenameLen
  have hlen : ([0] : List Byte).length = 1 := rfl
  rcases (by omega : i < 29 ∨ i = 29 ∨ 30 ≤ i) with h | h | h
  · rw [blit_out (by omega), strncpy, if_pos (by omega), Nat.sub_zero]
    simp [cstr, h]
  · subst h
    rw [blit_in (by omega) (by omega)]
    simp [cstr]
  · rw [blit_out (by omega), strncpy, if_neg (by omega)]
    simp [cstr, zeros, show ¬ i < 29 by omega]

/-- The field holds the first 29 bytes of the name. -/
theorem field_nameField (n : Name) :
    (nameField n.bytes).field 0 (naiveMaxFilenameLen - 1)
      = n.bytes.take (naiveMaxFilenameLen - 1) := by
  rw [nameField_eq]
  apply field_cstr
  · intro c hc
    exact n.noNul c (List.mem_of_mem_take hc)
  · simp

/-- The entry `naive_create` fills in. -/
def FileEntry.new (n : Name) (inodeNo : Int) (isDir : Bool) : FileEntry where
  name := nameField n.bytes
  inodeNo := inodeNo
  isDir := isDir
  padded := by rw [field_nameField, nameField_eq]

@[simp] theorem FileEntry.text_new (n : Name) (inodeNo : Int) (isDir : Bool) :
    (FileEntry.new n inodeNo isDir).text = n.bytes.take (naiveMaxFilenameLen - 1) :=
  field_nameField n

/-- `strcmp(entry->name, name) == 0`. -/
def FileEntry.named (n : Name) (e : FileEntry) : Bool := strcmp e.name n.bytes == 0

theorem FileEntry.named_iff {n : Name} {e : FileEntry} : e.named n = true ↔ e.text = n.bytes := by
  have hnul : ∀ c ∈ e.text, c ≠ 0 := fun c hc => ne_zero_of_mem_field hc
  have hname : e.name = cstr e.text := e.padded
  rw [FileEntry.named, beq_iff_eq, hname]
  exact strcmp_cstr hnul n.noNul

theorem FileEntry.length_text (e : FileEntry) : e.text.length ≤ naiveMaxFilenameLen - 1 :=
  length_field_le

theorem FileEntry.ext' {e f : FileEntry} (ht : e.text = f.text) (hi : e.inodeNo = f.inodeNo)
    (hd : e.isDir = f.isDir) : e = f := by
  have hname : e.name = f.name := by
    rw [e.padded, f.padded]
    exact congrArg cstr ht
  cases e
  cases f
  cases hname
  cases hi
  cases hd
  rfl

/-! ## Directory operations -/

/-- An entry handed to `dir_emit`: name, inode number, `DT_DIR` or `DT_REG`. -/
structure DirEntry where
  name : List Byte
  ino : Int
  isDir : Bool
  deriving DecidableEq

/-- Whether `dir_emit` takes an entry after those it took in this call. -/
abbrev Actor := List DirEntry → DirEntry → Bool

/-- The loop over the list, from position `pos` on, with what was emitted before. -/
def emitEntries (actor : Actor) : List FileEntry → Int → List DirEntry → List DirEntry × Int
  | [], pos, out => (out, pos)
  | entry :: rest, pos, out =>
    if pos < 2 then emitEntries actor rest (pos + 1) out
    else
      let d : DirEntry := ⟨entry.text, entry.inodeNo, entry.isDir⟩
      if !actor out d then (out, pos) else emitEntries actor rest (pos + 1) (out ++ [d])

/-- `naive_readdir` on the directory with number `ino`: what it emits and the
position it leaves. It always returns 0. -/
def naiveReaddir (actor : Actor) (ino : Int) (pos : Int) (g : Globals) : List DirEntry × Int :=
  let dot : DirEntry := ⟨[0x2e], ino, true⟩
  let dotdot : DirEntry := ⟨[0x2e, 0x2e], ino, true⟩
  if pos = 0 && !actor [] dot then ([], pos)
  else
    let out := if pos = 0 then [dot] else []
    let pos := if pos = 0 then pos + 1 else pos
    if pos = 1 && !actor out dotdot then (out, pos)
    else
      let out := if pos = 1 then out ++ [dotdot] else out
      let pos := if pos = 1 then pos + 1 else pos
      emitEntries actor g.fileList pos out

/-- What `naive_create` asks the kernel: an inode, memory for the entry, the time. -/
structure CreateCalls where
  newInode : Bool
  kmalloc : Bool
  now : Timespec

/-- The inode attached to the dentry. -/
structure NewInode where
  iIno : Nat
  iMode : Nat
  iNlink : Nat
  time : Timespec

/-- `naive_create`: its result, the inode of the dentry and the globals. -/
def naiveCreate (c : CreateCalls) (dentry : Name) (mode : Nat) (g : Globals) :
    Int × Option NewInode × Globals :=
  if g.fileList.any (FileEntry.named dentry) then (- EEXIST, none, g)
  else if !c.newInode then (- ENOMEM, none, g)
  else
    let ino := g.nextInodeNo
    let g := { g with nextInodeNo := toInt32 (g.nextInodeNo + 1) }
    -- a new inode has one link, a directory gets its second one here
    let inode : NewInode := {
      iIno := toU64 ino, iMode := mode, iNlink := if sIsdir mode then 2 else 1, time := c.now }
    let g :=
      if c.kmalloc then
        { g with fileList := g.fileList ++ [FileEntry.new dentry (toInt32 (toU64 ino))
          (sIsdir mode)] }
      else g
    (0, some inode, g)

/-- `naive_unlink`: the first entry with the name goes. It always returns 0. -/
def naiveUnlink (dentry : Name) (g : Globals) : Globals :=
  { g with fileList := g.fileList.eraseP (FileEntry.named dentry) }

/-- `naive_mkdir`. -/
def naiveMkdir (c : CreateCalls) (dentry : Name) (mode : Nat) (g : Globals) :
    Int × Option NewInode × Globals :=
  naiveCreate c dentry (sIfdir ||| mode) g

/-- `naive_rmdir`. -/
def naiveRmdir (dentry : Name) (g : Globals) : Globals := naiveUnlink dentry g

/-! ## Mounting -/

def naiveReadme : Name where
  bytes := [0x52, 0x45, 0x41, 0x44, 0x4d, 0x45]
  noNul := by decide
  pos := by decide
  le255 := by decide

def naiveExample : Name where
  bytes := [0x65, 0x78, 0x61, 0x6d, 0x70, 0x6c, 0x65]
  noNul := by decide
  pos := by decide
  le255 := by decide

/-- The kernel's answers to `naive_fill_super`: `d_alloc` and the calls of the
two creations come last. -/
structure FillCalls where
  setBlocksize : Bool
  sbBread : Option Bytes
  newInode : Bool
  dMakeRoot : Bool
  now : Timespec
  allocReadme : Bool
  readme : CreateCalls
  allocExample : Bool
  dirExample : CreateCalls

/-- The state the first lines of `naive_fill_super` leave. -/
def cleared : Globals := ⟨[], 100⟩

/-- `naive_fill_super`: its result, the root's inode and the globals. -/
def naiveFillSuper (c : FillCalls) : Int × Option NewInode × Globals :=
  if !c.setBlocksize then (- EINVAL, none, cleared)
  else match c.sbBread with
    | none => (- EIO, none, cleared)
    | some nsb =>
      if SuperBlock.magic nsb ≠ naiveMagic then (- EINVAL, none, cleared)
      else if !c.newInode then (- ENOMEM, none, cleared)
      else if !c.dMakeRoot then (- ENOMEM, none, cleared)
      else
        let root : NewInode := {
          iIno := naiveRootInodeNo, iMode := sIfdir ||| 0o755, iNlink := 2, time := c.now }
        let g :=
          if c.allocReadme then (naiveCreate c.readme naiveReadme (sIfreg ||| 0o644) cleared).2.2
          else cleared
        let g := if c.allocExample then (naiveMkdir c.dirExample naiveExample 0o755 g).2.2 else g
        (0, some root, g)

end NaiveFS.Final
