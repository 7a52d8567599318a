import NaiveFS.Inode

/-!
# Operations as the VFS issues them

Each operation is a call of the module with what the kernel does around it: the
mode the VFS prepares, the inode of the dentry, `d_delete` and the eviction of
the inode after a successful `unlink` or `rmdir`. A run is a list of operations
with the answers their calls get; a step that faults ends every run.

Nobody has a file or directory open when its name is removed, so nothing is used
after that: a file that is still open would stay in memory until its last
descriptor is closed. Runs with such files are those of `Descriptors`.
-/

namespace NaiveFS

inductive Op where
  | create (dir : Nat) (name : Name) (perm : Nat)
  | mkdir (dir : Nat) (name : Name) (mode : Nat)
  | unlink (dir : Nat) (name : Name)
  | rmdir (dir : Nat) (name : Name)
  | write (id : Nat) (data : List Byte) (pos : Nat)
  | lookup (dir : Nat) (name : Name)

/-- `d_delete` of the last name of an inode nobody has open: the dentry goes
and the inode, whose link count is 0, is evicted. -/
def dDelete (dir : Nat) (name : Name) (id : Nat) : K Unit := do
  dDrop dir name
  iput id

/-- `vfs_unlink`: the inode is the dentry's. Nobody has it open, so it is evicted at once. -/
def vfsUnlink (dir : Nat) (name : Name) : K Int := do
  match ← Prog.read fun s => s.dcache dir name with
  | none => pure (-ENOENT)
  | some id =>
    let ret ← naiveUnlink dir name id
    if ret = 0 then
      dDelete dir name id
      pure ret
    else pure ret

/-- `vfs_rmdir` of a directory nobody has open or works in. -/
def vfsRmdir (dir : Nat) (name : Name) : K Int := do
  match ← Prog.read fun s => s.dcache dir name with
  | none => pure (-ENOENT)
  | some id =>
    let ret ← naiveRmdir dir name id
    if ret = 0 then
      dDelete dir name id
      pure ret
    else pure ret

/-- The code of an operation; the result is its return value. -/
def Op.prog : Op → K Int
  | .create dir name perm => naiveCreate dir name (sIfreg ||| (perm &&& 0o7777))
  | .mkdir dir name mode => naiveMkdir dir name mode
  | .unlink dir name => vfsUnlink dir name
  | .rmdir dir name => vfsRmdir dir name
  | .write id data pos => do
    let (ret, _) ← naiveFileWrite id data pos
    pure ret
  | .lookup dir name => do
    let _ ← naiveLookup dir name
    pure 0

/-- The operations of a run in which the inodes stay cached. -/
def Op.cached : Op → Prop
  | .lookup .. => False
  | _ => True

/-- `op`, answered by `ans`, returns `r` and leaves `t`. -/
def Step (s : FS) (op : Op) (ans : Answers) (r : Int) (t : FS) : Prop :=
  op.prog.exec ans s = .ok (r, t)

/-- `Reach P s t`: a run leads from `s` to `t`, each step of which satisfies
`P` (state before, operation, answers, result). -/
inductive Reach (P : FS → Op → Answers → Int → Prop) (s : FS) : FS → Prop where
  | refl : Reach P s s
  | step {t u : FS} {op : Op} {ans : Answers} {r : Int} :
      Reach P s t → P t op ans r → Step t op ans r u → Reach P s u

/-- An invariant of every step is an invariant of every run. -/
theorem Reach.invariant {P : FS → Op → Answers → Int → Prop} {I : FS → Prop} {s t : FS}
    (h : Reach P s t) (h0 : I s)
    (hstep : ∀ t op ans r u, I t → P t op ans r → Step t op ans r u → I u) : I t := by
  induction h with
  | refl => exact h0
  | step _ hP hs ih => exact hstep _ _ _ _ _ ih hP hs

/-- Run a list of operations, each with the answers to its calls. -/
def runOps (s : FS) : List (Op × Answers) → Except Fault FS
  | [] => .ok s
  | (op, ans) :: ops => do
    let (_, t) ← op.prog.exec ans s
    runOps t ops

/-- The operations run through and the state they leave passes the check. -/
def runsTo (s : FS) (ops : List (Op × Answers)) (check : FS → Bool) : Bool :=
  match runOps s ops with
  | .ok t => check t
  | .error _ => false

theorem exists_of_runsTo {s : FS} {ops : List (Op × Answers)} {check : FS → Bool}
    (h : runsTo s ops check = true) : ∃ t, runOps s ops = .ok t ∧ check t = true := by
  unfold runsTo at h
  split at h
  · rename_i t ht
    exact ⟨t, ht, h⟩
  · cases h

/-- The code returns and its result and the state it leaves pass the check. -/
def execTo {α : Type} (s : FS) (p : K α) (ans : Answers) (check : α → FS → Bool) : Bool :=
  match p.exec ans s with
  | .ok (r, t) => check r t
  | .error _ => false

theorem exists_of_execTo {α : Type} {s : FS} {p : K α} {ans : Answers} {check : α → FS → Bool}
    (h : execTo s p ans check = true) : ∃ r t, p.exec ans s = .ok (r, t) ∧ check r t = true := by
  unfold execTo at h
  split at h
  · rename_i r t ht
    exact ⟨r, t, ht, h⟩
  · cases h

/-- A call whose code returns. -/
theorem exec_returns {α β : Type} {p : K α} {ans : Answers} {s : FS} {f : α × FS → Except Fault β}
    {b : β} (h : (p.exec ans s >>= f) = .ok b) :
    ∃ r t, p.exec ans s = .ok (r, t) ∧ f (r, t) = .ok b := by
  cases hexec : p.exec ans s with
  | error x =>
      rw [hexec] at h
      cases h
  | ok q =>
      rw [hexec] at h
      exact ⟨q.1, q.2, rfl, h⟩

/-- A list of operations that runs through is a run. -/
theorem Reach.of_runOps {P : FS → Op → Answers → Int → Prop} {s t u : FS}
    {ops : List (Op × Answers)} (hP : ∀ s x r, x ∈ ops → P s x.1 x.2 r) (hs : Reach P s t)
    (h : runOps t ops = .ok u) : Reach P s u := by
  induction ops generalizing t with
  | nil =>
      cases h
      exact hs
  | cons x ops ih =>
      obtain ⟨op, ans⟩ := x
      rw [runOps] at h
      cases hx : op.prog.exec ans t with
      | error e =>
          rw [hx] at h
          cases h
      | ok p =>
          obtain ⟨r, v⟩ := p
          rw [hx] at h
          refine ih (fun s x r hx => hP s x r (by simp [hx])) (hs.step ?_ hx) h
          exact hP t (op, ans) r (by simp)

/-- Run a list of operations as long as each passes a test of its state and its
result. -/
def runOpsIf (ok : FS → Op → Int → Bool) (s : FS) : List (Op × Answers) → Option FS
  | [] => some s
  | (op, ans) :: ops =>
    match op.prog.exec ans s with
    | .ok (r, t) => if ok s op r then runOpsIf ok t ops else none
    | .error _ => none

theorem Reach.of_runOpsIf {P : FS → Op → Answers → Int → Prop} {ok : FS → Op → Int → Bool}
    {s t u : FS} {ops : List (Op × Answers)}
    (hP : ∀ s x r, x ∈ ops → ok s x.1 r = true → P s x.1 x.2 r) (hs : Reach P s t)
    (h : runOpsIf ok t ops = some u) : Reach P s u := by
  induction ops generalizing t with
  | nil =>
      cases h
      exact hs
  | cons x ops ih =>
      obtain ⟨op, ans⟩ := x
      rw [runOpsIf] at h
      split at h
      · rename_i r v hstep
        split at h
        · rename_i hok
          have hstep' : Reach P s v := hs.step (hP t (op, ans) r (by simp) hok) hstep
          exact ih (fun s x r hx => hP s x r (by simp [hx])) hstep' h
        · cases h
      · cases h

/-- `s` is the state after a mount of the device `disk`. -/
def Mounted (disk : Nat → Bytes) (s : FS) : Prop :=
  ∃ ans, naiveFillSuper.exec ans (FS.ofDisk disk) = .ok (0, s)

/-! ## Unmounting -/

/-- Write every dirty inode below `n` back with `naive_write_inode`. -/
def syncInodes : Nat → K Unit
  | 0 => pure ()
  | n + 1 => do
    syncInodes n
    match ← Prog.read (·.inodes n) with
    | some nd =>
      if nd.iDirty then
        let _ ← naiveWriteInode n
        updInode n fun nd => { nd with iDirty := false }
      else pure ()
    | none => pure ()

/-- Write every dirty buffer to the device. -/
def FS.syncBuffers (s : FS) : FS :=
  { s with
    disk := fun b => if s.bDirty b then s.cache b else s.disk b
    bDirty := fun _ => false }

/-- Unmount: dirty inodes, dirty buffers, `naive_put_super`. -/
def umount : K Unit := do
  let n ← Prog.read (·.nextInode)
  syncInodes n
  Prog.modify FS.syncBuffers
  naivePutSuper

/-- `t` is the state after unmounting `s` without a failure and mounting the
same device again. -/
def Remounted (s t : FS) : Prop :=
  ∃ ts uid gid u, umount.exec (Answers.good ts uid gid) s = .ok ((), u) ∧ Mounted u.disk t

end NaiveFS
