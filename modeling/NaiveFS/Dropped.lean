import NaiveFS.Syscalls

/-!
# Inodes that are dropped and loaded again

The kernel may drop an inode from memory at any time; if `mark_inode_dirty` was called on it since
it was written or loaded, it calls `naive_write_inode` first. Two runs of the same calls are
compared, one in which every inode stays in memory and one in which inodes are dropped. Lookups
find the same as long as an inode that is dropped has its record on the device afterwards. A new
inode is not marked dirty, so one that is dropped before anything is written to it is lost.
-/

namespace NaiveFS

open Bytes Prog

/-! ## What is compared -/

/-- What the VFS does where no block read fails and there is memory for the inodes that are
loaded. A name that is made is new, is neither `.` nor `..` and fits a record, and the directory
has room for it; an inode that is dropped is not the root and has no dentry below it. -/
def Act.Orderly (c : Both) (ans : Answers) (a : Act) : Prop :=
  a.Allowed c ans ∧ ans.Reliable ∧
  match a with
  | .call op => op.Lawful c.kept ∧ op.Checked c.kept
  | .evict _ => True
  | .find dir name => name.Plain ∧ ∃ d, c.kept.inodes dir = some d ∧ d.isDir = true

/-- An inode that is dropped can be loaded again: one that is marked dirty has fields that its
record can hold, and the record of another one says what it is. -/
def Act.Stored (c : Both) : Act → Prop
  | .evict id => ∀ id' nd, c.place id = some id' → c.evicted.inodes id' = some nd →
      if nd.iDirty then nd.Storable else ∃ nd', c.evicted.decoded nd.iIno = .ok nd' ∧ nd.Like nd'
  | _ => True

section Runs

variable {disk : Nat → Bytes} {ans : Answers} {T : Tree} {c c' : Both} {s0 : FS} {a : Act}
  {id id' : Nat}

/-- An inode that can be loaded again is dropped. -/
theorem Both.Behind.drop (hgood : Disk.Good disk) (h : c.Behind disk T)
    (hplace : c.place id = some id') (ha : Act.Orderly c ans (.evict id))
    (hstored : Act.Stored c (.evict id)) (hexec : c.evict ans id id' = .ok c') :
    c'.Behind disk T := by
  obtain ⟨⟨hroot, hleaf, -⟩, hans, -⟩ := ha
  obtain ⟨_, t, hrun, hend⟩ := exec_returns hexec
  cases hend
  obtain ⟨nd, hnd⟩ := exec_inode_bind_ok hrun
  have hne : id ≠ 0 := by rwa [h.inv.rooted.sRoot] at hroot
  have hkeep := hstored id' nd hplace hnd
  -- a dirty inode is written first; both kinds leave memory with their record on the device
  cases hdirty : nd.iDirty with
  | false =>
      rw [hdirty] at hkeep
      obtain ⟨u, hu, hinv⟩ := h.inv.evict_clean hplace hroot hleaf hnd hdirty hkeep
      obtain ⟨-, rfl⟩ := Prod.mk.inj (Except.ok.inj (hrun.symm.trans hu))
      exact h.dropped hplace hne hrun hinv
  | true =>
      rw [hdirty] at hkeep
      obtain ⟨u, hu, hinv⟩ := h.inv.evict_dirty hgood.laid hplace hroot hleaf hans hnd hdirty hkeep
      obtain ⟨-, rfl⟩ := Prod.mk.inj (Except.ok.inj (hrun.symm.trans hu))
      exact h.dropped hplace hne hrun hinv

/-- Every act leaves a tree behind the two runs. -/
theorem Both.Behind.step (hgood : Disk.Good disk) (h : c.Behind disk T)
    (ha : Act.Orderly c ans a) (hstored : Act.Stored c a) (hstep : c.step ans a = .ok c') :
    ∃ T', c'.Behind disk T' := by
  -- in each case nothing happens if the second run does not have the inode in memory
  cases a with
  | call op =>
      obtain ⟨⟨-, hin⟩, hans, hlawful, hchecked⟩ := ha
      rw [Both.step] at hstep
      cases hmoved : op.moved c.place with
      | none =>
          rw [hmoved] at hstep
          cases hstep
          exact ⟨T, h⟩
      | some op' =>
          rw [hmoved] at hstep
          obtain ⟨r, u, hkept, hend⟩ := exec_returns hstep
          obtain ⟨r', u', hevicted, hend⟩ := exec_returns hend
          cases hend
          obtain ⟨T', hbehind, -⟩ :=
            h.called hgood hans.reads hlawful hchecked hmoved hin hkept hevicted
          exact ⟨T', hbehind⟩
  | evict id =>
      rw [Both.step] at hstep
      cases hplace : c.place id with
      | none =>
          rw [hplace] at hstep
          cases hstep
          exact ⟨T, h⟩
      | some id' =>
          rw [hplace] at hstep
          exact ⟨T, h.drop hgood hplace ha hstored hstep⟩
  | find dir name =>
      obtain ⟨-, hans, hname, d, hd, hdir⟩ := ha
      rw [Both.step] at hstep
      cases hplace : c.place dir with
      | none =>
          rw [hplace] at hstep
          cases hstep
          exact ⟨T, h⟩
      | some dir' =>
          rw [hplace] at hstep
          obtain ⟨hkept, q', t', hevicted, hfound⟩ :=
            h.finds hgood.guarded hans hname hplace hd hdir
          obtain ⟨q, u, hkept', hend⟩ := exec_returns hstep
          obtain ⟨r', u', hevicted', hend⟩ := exec_returns hend
          cases hend
          obtain ⟨rfl, rfl⟩ := Prod.mk.inj (Except.ok.inj (hkept.symm.trans hkept'))
          obtain ⟨rfl, rfl⟩ := Prod.mk.inj (Except.ok.inj (hevicted.symm.trans hevicted'))
          exact ⟨T, h.find hplace hfound rfl⟩

/-- Every run leaves a tree behind the two runs. -/
theorem Both.Runs.behind (hgood : Disk.Good disk) (h0 : Mounted disk s0)
    (h : Both.Runs (fun c ans a => Act.Orderly c ans a ∧ Act.Stored c a) (Both.start s0) c) :
    ∃ T, c.Behind disk T := by
  induction h with
  | refl => exact ⟨_, .start hgood h0⟩
  | step _ ha hstep ih =>
      obtain ⟨T, hbehind⟩ := ih
      exact hbehind.step hgood ha.1 ha.2 hstep

/-- The act is orderly and drops only files that can be evicted, computed. -/
def Act.passes (c : Both) : Act → Bool
  | .call op => decide (op.Lawful c.kept ∧ op.Checked c.kept) &&
      op.removes.all fun x => (c.kept.dcache x.1 x.2).all fun id => (c.place id).isSome
  | .evict id => (c.kept.inodes id).any (fun nd => nd.isDir = false) &&
      (c.place id).all c.evicted.evictableIf
  | .find dir name => decide (¬ IsDot name.bytes ∧ name.bytes.length ≤ 127) &&
      (c.kept.inodes dir).any Inode.isDir

/-- Run through acts that pass. -/
def Both.served (c : Both) (ans : Answers) : List Act → Option Both
  | [] => some c
  | a :: rest =>
    match c.step ans a with
    | .ok c' => if a.passes c then c'.served ans rest else none
    | .error _ => none

end Runs

end NaiveFS
