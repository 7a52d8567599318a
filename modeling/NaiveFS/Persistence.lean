import NaiveFS.Eviction
import NaiveFS.Remount

/-!
# What a remount keeps of the namespace

`naive_fill_super` makes a new root without blocks instead of reading inode 1,
so nothing below the root is found after a remount, whatever reached the device.
-/

namespace NaiveFS

open Bytes

/-- Walk a path as the kernel does: a component is a dentry of its directory, or
is looked up by `naive_lookup`. -/
def resolve : Nat → List Name → K (Option Nat)
  | id, [] => pure (some id)
  | id, name :: path => do
    let nd ← inode id
    if !nd.isDir then pure none else
    match ← Prog.read fun s => s.dcache id name with
    | some child => resolve child path
    | none =>
      match ← naiveLookup id name with
      | some (.ok child) => resolve child path
      | _ => pure none

/-- From the root of `s` the path leads to the inode at `id`; `u` is the state
after the walk, in which every call succeeds. -/
def Resolves (s : FS) (path : List Name) (u : FS) (id : Nat) : Prop :=
  (resolve s.sRoot path).exec (Answers.good default 0 0) s = .ok (some id, u)

/-- `S_ISREG(mode)`. -/
def Inode.isReg (nd : Inode) : Prop := nd.iMode &&& sIfmt = sIfreg

/-- Every path leads to an inode in both states or in neither, the inodes have
the same type, and regular files read the same. -/
structure Persistent (s t : FS) : Prop where
  found : ∀ path, (∃ u id, Resolves s path u id) ↔ ∃ u id, Resolves t path u id
  fileType : ∀ path u v id id' nd nd', Resolves s path u id → Resolves t path v id' →
    u.inodes id = some nd → v.inodes id' = some nd' → nd.iMode &&& sIfmt = nd'.iMode &&& sIfmt
  content : ∀ path u v id id' nd, Resolves s path u id → Resolves t path v id' →
    u.inodes id = some nd → nd.isReg → ∀ len pos,
      ((naiveFileRead id len pos).exec (Answers.good default 0 0) u).map (·.1)
        = ((naiveFileRead id' len pos).exec (Answers.good default 0 0) v).map (·.1)

section Persistence

variable {disk : Nat → Bytes} {s0 s t u : FS} {id : Nat} {nd : Inode} {name : Name}
  {path : List Name}

theorem resolves_nil : Resolves s [] u id ↔ u = s ∧ id = s.sRoot := by
  constructor
  · intro h
    cases h
    exact ⟨rfl, rfl⟩
  · rintro ⟨rfl, rfl⟩
    rfl

/-- A name without a dentry that `naive_lookup` does not find leads nowhere. -/
theorem not_resolves (hnd : s.inodes s.sRoot = some nd)
    (hdentry : s.dcache s.sRoot name = none) {t : FS}
    (hlookup : (naiveLookup s.sRoot name).exec (Answers.good default 0 0) s = .ok (none, t)) :
    ¬ Resolves s (name :: path) u id := by
  intro h
  rw [Resolves, resolve, Prog.exec_bind_of (exec_inode hnd), Prog.exec_ite] at h
  split at h
  · cases h
  rw [Prog.exec_read_bind] at h
  simp only [hdentry] at h
  rw [Prog.exec_bind_of hlookup] at h
  cases h

/-- A directory without blocks and without dentries leads nowhere. -/
theorem not_resolves_empty (nd : Inode) (hnd : s.inodes s.sRoot = some nd)
    (hdentry : s.dcache s.sRoot name = none) (hcount : nd.blockCount = 0) :
    ¬ Resolves s (name :: path) u id := by
  have hlookup : (naiveLookup s.sRoot name).exec (Answers.good default 0 0) s = .ok (none, s) := by
    rw [naiveLookup, Prog.exec_bind_of (exec_inode hnd), scanRecords, hcount]
    rfl
  exact not_resolves hnd hdentry hlookup

/-- A directory whose records are all free and that has no dentries leads nowhere. -/
theorem not_resolves_free (hnd : s.inodes s.sRoot = some nd)
    (hdentry : s.dcache s.sRoot name = none) (hcount : nd.blockCount ≤ 8)
    (hfree : ∀ k, k < nd.records → s.recordAt nd k = none) :
    ¬ Resolves s (name :: path) u id := by
  have hscan : s.lookupScan nd name = none :=
    Table.find_eq_none.mpr fun k hk => by rw [hfree k hk, Table.hit_none]
  obtain ⟨q, t, -, hq, hlookup⟩ :=
    (lookupFinds_iff hnd hcount).mpr hscan (Answers.good default 0 0) fun _ _ _ => rfl
  obtain rfl : q = none := by simpa using hq
  exact not_resolves hnd hdentry hlookup

/-- A dentry of the root leads to its inode. -/
theorem resolves_of_dentry (hr : s.Rooted) (hdentry : s.dcache s.sRoot name = some id) :
    Resolves s [name] s id := by
  obtain ⟨nd, hnd, hdir⟩ := hr.root
  rw [← hr.sRoot] at hnd
  rw [Resolves, resolve, Prog.exec_bind_of (exec_inode hnd), hdir, if_neg (by decide),
    Prog.exec_read_bind]
  simp only [hdentry]
  rfl

/-- A path that leads somewhere starts with a name that does. -/
theorem Resolves.head (h : Resolves s (name :: path) u id) : ∃ v c, Resolves s [name] v c := by
  rw [Resolves, resolve] at h
  obtain ⟨nd, s', hnd, h1⟩ := Prog.exec_bind_ok.mp h
  obtain ⟨hnd, rfl⟩ := exec_inode_ok hnd
  rw [Prog.exec_ite] at h1
  split at h1
  · cases h1
  rename_i hdir
  simp only [Resolves, resolve]
  rw [Prog.exec_bind_of (exec_inode hnd), if_neg hdir]
  rw [Prog.exec_read_bind] at h1 ⊢
  cases hdentry : s'.dcache s'.sRoot name with
  | some c => exact ⟨s', c, by simp only; rfl⟩
  | none =>
      simp only [hdentry] at h1 ⊢
      obtain ⟨r, v, hlookup, h2⟩ := Prog.exec_bind_ok.mp h1
      split at h2
      · rename_i c
        exact ⟨v, c, by rw [Prog.exec_bind_of hlookup]; rfl⟩
      · cases h2

theorem Remounted.mounted (hr : Remounted s t) : ∃ disk' ts, t = FS.mounted disk' ts := by
  obtain ⟨_, _, _, u, _, hmount⟩ := hr
  obtain ⟨_, ts, ht⟩ := mounted_eq hmount
  exact ⟨u.disk, ts, ht⟩

/-- The namespace survives a remount exactly when nothing is below the root. -/
theorem persistent_iff (h0 : Mounted disk s0) (h : Reach (fun _ op _ _ => op.cached) s0 s)
    (hr : Remounted s t) : Persistent s t ↔ ∀ name, ¬ ∃ u id, Resolves s [name] u id := by
  obtain ⟨_, hroot, _⟩ := h.session h0 fun _ _ _ _ hop => hop
  obtain ⟨disk', ts, rfl⟩ := hr.mounted
  have hnone : ∀ name path u id, ¬ Resolves (FS.mounted disk' ts) (name :: path) u id :=
    fun name path u id => not_resolves_empty (Inode.root ts) rfl rfl rfl
  constructor
  · rintro hp name hres
    obtain ⟨u, id, hres'⟩ := (hp.found [name]).mp hres
    exact hnone name [] u id hres'
  · intro hempty
    have hpath : ∀ path u id, Resolves s path u id → path = [] := by
      intro path u id hres
      cases path with
      | nil => rfl
      | cons name path => exact absurd hres.head (hempty name)
    obtain ⟨nd, hnd, hdir⟩ := hroot.root
    have hfmt : nd.iMode &&& sIfmt = sIfdir := by simpa [Inode.isDir, sIsdir] using hdir
    refine ⟨fun path => ⟨?_, ?_⟩, fun path u v id id' e e' hu hv he he' => ?_,
      fun path u v id id' e hu hv he hreg => ?_⟩
    · rintro ⟨u, id, hres⟩
      rw [hpath path u id hres]
      exact ⟨_, _, resolves_nil.mpr ⟨rfl, rfl⟩⟩
    · rintro ⟨u, id, hres⟩
      cases path with
      | nil => exact ⟨_, _, resolves_nil.mpr ⟨rfl, rfl⟩⟩
      | cons name path => exact absurd hres (hnone name path u id)
    · obtain rfl := hpath path u id hu
      obtain ⟨rfl, rfl⟩ := resolves_nil.mp hu
      obtain ⟨rfl, rfl⟩ := resolves_nil.mp hv
      rw [hroot.sRoot, hnd] at he
      cases he
      cases he'
      rw [hfmt]
      show sIfdir = (sIfdir ||| 0o755) &&& sIfmt
      decide
    · obtain rfl := hpath path u id hu
      obtain ⟨rfl, rfl⟩ := resolves_nil.mp hu
      rw [hroot.sRoot, hnd] at he
      cases he
      rw [Inode.isReg, hfmt] at hreg
      exact absurd hreg (by decide)

end Persistence

/-- After a directory was made and removed, the same paths resolve before and after a remount. -/
theorem persistent_mkdir_rmdir : ∃ s s' t,
    Step (FS.mounted (sampleDisk 128 1000 4 132) default)
      (.mkdir 0 (.letters 1 (by decide) (by decide)) 0o755) (Answers.good default 0 0) 0 s ∧
    Step s (.rmdir 0 (.letters 1 (by decide) (by decide))) (Answers.good default 0 0) 0 s' ∧
    Remounted s' t ∧ Persistent s' t := by
  obtain ⟨r, s', hexec, hcheck⟩ := exists_of_execTo
    (show execTo (FS.mounted (sampleDisk 128 1000 4 132) default) (do
        let r ← (Op.mkdir 0 (.letters 1 (by decide) (by decide)) 0o755).prog
        let r' ← (Op.rmdir 0 (.letters 1 (by decide) (by decide))).prog
        pure (r, r')) (Answers.good default 0 0)
      (fun r s => decide (r = (0, 0)) && execTo s umount (Answers.good default 0 0)
          (fun _ u => SuperBlock.magic (u.disk 1) == naiveMagic) &&
        decide (s.dcache 0 (.letters 1 (by decide) (by decide)) = none) &&
        (s.inodes 0).any fun nd => decide (nd.blockCount ≤ 8 ∧
          ∀ k : Nat, k < nd.records → s.recordAt nd k = none)) = true by decide +kernel)
  simp only [Bool.and_eq_true, decide_eq_true_eq, Option.any_eq_true] at hcheck
  obtain ⟨⟨⟨rfl, humount⟩, hgone⟩, nd, hnd, hcount, hfree⟩ := hcheck
  obtain ⟨r, s, hmkdir, hexec⟩ := Prog.exec_bind_ok.mp hexec
  obtain ⟨r', u, hrmdir, hend⟩ := Prog.exec_bind_ok.mp hexec
  cases hend
  have hmkdir : Step (FS.mounted (sampleDisk 128 1000 4 132) default)
    (.mkdir 0 (.letters 1 (by decide) (by decide)) 0o755) (Answers.good default 0 0) 0 s := hmkdir
  have hrmdir : Step s (.rmdir 0 (.letters 1 (by decide) (by decide))) (Answers.good default 0 0)
    0 s' := hrmdir
  obtain ⟨t, ht⟩ := exists_remounted humount
  have hmounted := sampleDisk_mounted 128 1000 4 132 default
  have hreach : Reach (fun _ op _ _ => op.cached) (FS.mounted (sampleDisk 128 1000 4 132) default)
      s' := .step (.step .refl (show (Op.mkdir ..).cached from trivial) hmkdir)
        (show (Op.rmdir ..).cached from trivial) hrmdir
  obtain ⟨-, hrooted, -⟩ := hreach.session hmounted fun _ _ _ _ hop => hop
  have hnames : ∀ name, s'.dcache 0 name = none := by
    intro name
    by_cases hname : name = .letters 1 (by decide) (by decide)
    · rw [hname, hgone]
    · have hne : ∀ n, n = .letters 1 (by decide) (by decide) → some (0, n) ≠ some (0, name) :=
        fun n hn heq => hname ((Prod.mk.inj (Option.some.inj heq)).2.symm.trans hn)
      have hready := hmounted.ready
      have hfirst := Step.dentries hready (show (Op.mkdir ..).cached from trivial) hmkdir
      have hsecond := Step.dentries (hmkdir.ready hready)
        (show (Op.rmdir ..).cached from trivial) hrmdir
      rw [hsecond.other (by simp [Op.makes]) (hne _ rfl), hfirst.other (hne _ rfl)
        (by simp [Op.removes])]
      rfl
  refine ⟨s, s', t, hmkdir, hrmdir, ht, (persistent_iff hmounted hreach ht).mpr ?_⟩
  rw [← hrooted.sRoot] at hnd hnames
  rintro name ⟨u, id, hres⟩
  exact not_resolves_free hnd (hnames name) hcount hfree hres

/-- A directory made before the unmount is not found after the mount. -/
theorem made_directory_lost : ¬ ∀ (disk : Nat → Bytes) (s0 s t : FS), Mounted disk s0 →
    Reach (fun _ op ans _ => op.cached ∧ ∀ site i b, ans (.sbBread site i b) = true) s0 s →
    Remounted s t → Persistent s t := by
  intro hall
  obtain ⟨s, hs, hcheck⟩ := exists_of_runsTo
    (show runsTo (FS.mounted (sampleDisk 128 1000 4 132) default)
      [(.mkdir 0 (.letters 1 (by decide) (by decide)) 0o755, Answers.good default 0 0)]
      (fun s => execTo s umount (Answers.good default 0 0)
          (fun _ u => SuperBlock.magic (u.disk 1) == naiveMagic) &&
        s.dcache s.sRoot (.letters 1 (by decide) (by decide)) == some 1) = true by decide +kernel)
  rw [Bool.and_eq_true] at hcheck
  obtain ⟨t, ht⟩ := exists_remounted hcheck.1
  have hreach : Reach (fun _ op ans _ => op.cached ∧ ∀ site i b, ans (.sbBread site i b) = true)
      (FS.mounted (sampleDisk 128 1000 4 132) default) s := by
    refine Reach.of_runOps (fun _ x _ hx => ?_) .refl hs
    rw [List.mem_singleton.mp hx]
    exact ⟨trivial, fun _ _ _ => rfl⟩
  have hp := hall _ _ s t (sampleDisk_mounted 128 1000 4 132 default) hreach ht
  obtain ⟨_, hroot, _⟩ := hreach.session (sampleDisk_mounted 128 1000 4 132 default)
    fun _ _ _ _ hop => hop.1
  have hres := resolves_of_dentry hroot (beq_iff_eq.mp hcheck.2)
  obtain ⟨u, id, hres'⟩ := (hp.found _).mp ⟨_, _, hres⟩
  obtain ⟨disk', ts, rfl⟩ := ht.mounted
  exact not_resolves_empty (Inode.root ts) rfl rfl rfl hres'

end NaiveFS
