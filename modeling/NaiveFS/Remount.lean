import NaiveFS.Session

/-!
# Unmounting and mounting again

`naive_fill_super` copies the bitmaps out of their blocks and nothing writes the
copies back: what a session allocates is free again at the next mount.
-/

namespace NaiveFS

open Bytes

/-! ## Unmounting -/

section Umount

variable {disk : Nat → Bytes} {ans : Answers} {s t u : FS} {id : Nat} {nd : Inode}

/-- The table block of an inode of the session lies behind the bitmaps. -/
theorem FS.Above.inodeTableBlock (hl : Laid disk) (h : s.Above disk)
    (hnd : s.inodes id = some nd) :
    4 ≤ toU64 (inodeTableBlock (s.block naiveSuperBlockBlock) nd.iIno) := by
  have hcache : s.block naiveSuperBlockBlock = disk naiveSuperBlockBlock :=
    h.cache 1 (by decide) (by decide)
  have htable := hl.table
  have hsmall : toInt32 (SuperBlock.inodeTableBlockNo (disk naiveSuperBlockBlock)) < 2 ^ 31 := by
    unfold toInt32
    omega
  have hnumber := (h.node id nd hnd).number
  have hino : 1 ≤ nd.iIno ∧ nd.iIno ≤ 4096 := by
    split at hnumber
    · rw [hnumber]
      decide
    · exact ⟨hnumber.1, hnumber.2.1⟩
  rw [hcache]
  unfold NaiveFS.inodeTableBlock toU64
  omega

/-- Writing back inodes leaves the superblock and the bitmaps. -/
theorem syncInodes_above (hl : Laid disk) (n : Nat) :
    Prog.Keeps ans (FS.Above disk) (syncInodes n) := by
  induction n with
  | zero => exact .pure ()
  | succ n ih =>
      refine ih.bind fun _ => ?_
      intro s x t h hexec
      rw [Prog.exec_read_bind] at hexec
      cases hnd : s.inodes n with
      | none =>
          simp only [hnd] at hexec
          cases hexec
          exact h
      | some nd =>
          simp only [hnd] at hexec
          split at hexec
          · obtain ⟨r, u, hwrite, h1⟩ := Prog.exec_bind_ok.mp hexec
            have hu : u.Above disk := by
              rcases naiveWriteInode_cases hnd hwrite with ⟨_, rfl⟩ | ⟨v, _, _, rfl⟩
              · exact h
              · exact h.writeBlock (.inr (h.inodeTableBlock hl hnd)) v
            obtain ⟨nd', hnd', rfl⟩ := exec_updInode_ok h1
            exact hu.setInode ((hu.node n nd' hnd').congr rfl (hu.node n nd' hnd').pointers)
          · cases hexec
            exact h

theorem umount_disk (hl : Laid disk) (h : s.Above disk) (hexec : umount.exec ans s = .ok ((), u)) :
    ∀ c, 1 ≤ c → c < 4 → u.disk c = disk c := by
  intro c hc hc'
  rw [umount, Prog.exec_read_bind] at hexec
  obtain ⟨x, v, hsync, h1⟩ := Prog.exec_bind_ok.mp hexec
  have hv := syncInodes_above hl _ s x v h hsync
  cases h1
  show (if v.bDirty c then v.cache c else v.disk c) = disk c
  split
  · exact hv.cache c hc hc'
  · rw [hv.device]

/-- The next mount finds the superblock and the bitmaps of this one. -/
theorem Remounted.above (hl : Laid disk) (h : s.Above disk) (hr : Remounted s t) :
    ∃ disk' ts, t = FS.mounted disk' ts ∧ Mounted disk' t ∧
      ∀ c, 1 ≤ c → c < 4 → disk' c = disk c := by
  obtain ⟨ts, uid, gid, u, humount, hmount⟩ := hr
  obtain ⟨_, ts', ht⟩ := mounted_eq hmount
  exact ⟨u.disk, ts', ht, hmount, umount_disk hl h humount⟩

theorem Laid.congr {disk' : Nat → Bytes} (hl : Laid disk)
    (h : ∀ c, 1 ≤ c → c < 4 → disk' c = disk c) : Laid disk' := by
  have h1 : disk' naiveSuperBlockBlock = disk naiveSuperBlockBlock := h 1 (by decide) (by decide)
  exact ⟨h1 ▸ hl.data, h1 ▸ hl.table⟩

/-- A device that still has its magic number can be mounted again. -/
theorem exists_remounted (h : execTo s umount (Answers.good default 0 0)
    (fun _ u => SuperBlock.magic (u.disk 1) == naiveMagic) = true) : ∃ t, Remounted s t := by
  obtain ⟨_, u, hexec, hmagic⟩ := exists_of_execTo h
  exact ⟨_, default, 0, 0, u, hexec, mounted_of_magic (by simpa using hmagic) default⟩

end Umount

/-! ## The allocation maps -/

/-- Every block and number in use in `s` is marked in `t`, and no later session
on `t` is given one of them. -/
structure MapsSurvive (s t : FS) : Prop where
  blocks : ∀ id nd i, s.inodes id = some nd → i < 8 → nd.blockPointers i ≠ 0 →
    t.isMarked (nd.blockPointers i)
  numbers : ∀ id nd, s.inodes id = some nd → t.inoMarked nd.iIno = true
  blocksLater : ∀ u b id nd i, Reach (fun _ op _ _ => op.cached) t u → u.NextFree b →
    s.inodes id = some nd → i < 8 → nd.blockPointers i ≠ 0 → nd.blockPointers i ≠ b
  numbersLater : ∀ u n id nd, Reach (fun _ op _ _ => op.cached) t u → u.NextIno n →
    s.inodes id = some nd → nd.iIno ≠ n

/-- The root is the only inode and holds no block, and the device marks its number. -/
def OnlyRoot (disk : Nat → Bytes) (s : FS) : Prop :=
  (disk 3).bit 0 = true ∧
    ∀ id nd, s.inodes id = some nd → id = s.sRoot ∧ ∀ i, i < 8 → nd.blockPointers i = 0

section Survive

variable {disk : Nat → Bytes} {s0 s t : FS}

theorem MapsSurvive.onlyRoot (hr : s.Rooted) (ha : s.Above disk) {disk' : Nat → Bytes}
    {ts : Timespec} (hdisk : ∀ c, 1 ≤ c → c < 4 → disk' c = disk c)
    (h : MapsSurvive s (FS.mounted disk' ts)) : OnlyRoot disk s := by
  have hbm : disk' 2 = disk 2 := hdisk 2 (by decide) (by decide)
  have him : disk' 3 = disk 3 := hdisk 3 (by decide) (by decide)
  have hmarked : ∀ n, (FS.mounted disk' ts).inoMarked n = (disk 3).bit (n - 1) := fun n => by
    rw [← him]
    rfl
  refine ⟨?_, fun id nd hnd => ⟨?_, fun i hi => ?_⟩⟩
  · obtain ⟨nd, hnd, _⟩ := hr.root
    have hnumber := h.numbers 0 nd hnd
    have hino := (ha.node 0 nd hnd).number
    rw [if_pos rfl] at hino
    rwa [hmarked, hino] at hnumber
  · by_contra hid
    rw [hr.sRoot] at hid
    have hnumber := h.numbers id nd hnd
    have hino := (ha.node id nd hnd).number
    rw [if_neg hid] at hino
    rw [hmarked, hino.2.2] at hnumber
    cases hnumber
  · by_contra hp
    have hbit := (h.blocks id nd i hnd hi hp).2.2
    rcases (ha.node id nd hnd).pointers i hi with hz | ⟨_, _, hclear⟩
    · exact hp hz
    · rw [show (FS.mounted disk' ts).marked (nd.blockPointers i).toNat
          = (disk' 2).bit (nd.blockPointers i).toNat from rfl, hbm, hclear] at hbit
      cases hbit

theorem OnlyRoot.mapsSurvive (hl : Laid disk) (hr : s.Rooted) (ha : s.Above disk)
    {disk' : Nat → Bytes} {ts : Timespec} (hmount : Mounted disk' (FS.mounted disk' ts))
    (hdisk : ∀ c, 1 ≤ c → c < 4 → disk' c = disk c) (h : OnlyRoot disk s) :
    MapsSurvive s (FS.mounted disk' ts) := by
  obtain ⟨hbit, honly⟩ := h
  have him : disk' 3 = disk 3 := hdisk 3 (by decide) (by decide)
  have hino : ∀ id nd, s.inodes id = some nd → nd.iIno = 1 := by
    intro id nd hnd
    have hnumber := (ha.node id nd hnd).number
    rwa [if_pos ((honly id nd hnd).1.trans hr.sRoot)] at hnumber
  refine ⟨fun id nd i hnd hi hp => absurd ((honly id nd hnd).2 i hi) hp, fun id nd hnd => ?_,
    fun u b id nd i _ _ hnd hi hp => absurd ((honly id nd hnd).2 i hi) hp,
    fun u n id nd hreach hnext hnd heq => ?_⟩
  · rw [hino id nd hnd]
    show (disk' 3).bit 0 = true
    rw [him, hbit]
  · have hu := ((hreach.session hmount fun _ _ _ _ hop => hop).2.2 (hl.congr hdisk)).inoMarked 0
      (by decide) (by rw [him, hbit])
    rw [hino id nd hnd] at heq
    subst heq
    have hclear := hnext.clear
    rw [FS.inoMarked, hu] at hclear
    cases hclear

/-- On a device laid out above its bitmaps the allocation maps survive a remount
exactly when the session has nothing to show for itself. -/
theorem maps_survive_iff (h0 : Mounted disk s0) (hl : Laid disk)
    (h : Reach (fun _ op _ _ => op.cached) s0 s) (hr : Remounted s t) :
    MapsSurvive s t ↔ OnlyRoot disk s := by
  obtain ⟨_, hroot, habove⟩ := h.session h0 fun _ _ _ _ hop => hop
  have ha := habove hl
  obtain ⟨disk', ts, rfl, hmount, hdisk⟩ := hr.above hl ha
  exact ⟨fun hm => hm.onlyRoot hroot ha hdisk, fun ho => ho.mapsSurvive hl hroot ha hmount hdisk⟩

end Survive

theorem laid_sampleDisk : Laid (sampleDisk 128 1000 4 132) :=
  ⟨by decide +kernel, by decide +kernel⟩

/-- The answers of the kernel when it has no memory for a new inode. -/
def Answers.noInode : Answers
  | .newInode => false
  | e => Answers.good default 0 0 e

/-- A fresh mount on which a `create` is refused can be remounted, and the maps survive. -/
theorem maps_survive_refusal : ∃ s t,
    runOps (FS.mounted (sampleDisk 128 1000 4 132) default)
      [(.create 0 (.letters 1 (by decide) (by decide)) 0o644, Answers.noInode)] = .ok s ∧
    Remounted s t ∧ MapsSurvive s t := by
  obtain ⟨s, hs, hcheck⟩ := exists_of_runsTo
    (show runsTo (FS.mounted (sampleDisk 128 1000 4 132) default)
      [(.create 0 (.letters 1 (by decide) (by decide)) 0o644, Answers.noInode)]
      (fun s => execTo s umount (Answers.good default 0 0)
          (fun _ u => SuperBlock.magic (u.disk 1) == naiveMagic) &&
        decide (s.nextInode = 1) && (s.inodes 0).all fun nd =>
          decide (∀ i : Nat, i < 8 → nd.blockPointers i = 0)) = true by decide +kernel)
  simp only [Bool.and_eq_true, decide_eq_true_eq] at hcheck
  obtain ⟨⟨humount, hnext⟩, hroot⟩ := hcheck
  obtain ⟨t, ht⟩ := exists_remounted humount
  have hreach : Reach (fun _ op _ _ => op.cached) (FS.mounted (sampleDisk 128 1000 4 132) default)
      s := by
    refine Reach.of_runOps (fun _ x _ hx => ?_) .refl hs
    rw [List.mem_singleton.mp hx]
    exact trivial
  have hmounted := sampleDisk_mounted 128 1000 4 132 default
  obtain ⟨hready, hrooted, -⟩ := hreach.session hmounted fun _ _ _ _ hop => hop
  refine ⟨s, t, hs, ht, (maps_survive_iff hmounted laid_sampleDisk hreach ht).mpr
    ⟨by decide +kernel, fun id nd hnd => ?_⟩⟩
  have hid : id = 0 := by
    by_contra hne
    rw [hready.fresh id (by omega)] at hnd
    cases hnd
  subst hid
  rw [hnd, Option.all_some, decide_eq_true_eq] at hroot
  exact ⟨hrooted.sRoot.symm, hroot⟩

/-- After a `create` and a remount, the new inode's number is free again. -/
theorem created_number_lost : ¬ ∀ (disk : Nat → Bytes) (s0 s t : FS), Mounted disk s0 →
    Reach (fun _ op ans _ => op.cached ∧ ∀ site i b, ans (.sbBread site i b) = true) s0 s →
    Remounted s t → MapsSurvive s t := by
  intro hall
  obtain ⟨s, hs, hcheck⟩ := exists_of_runsTo
    (show runsTo (FS.mounted (sampleDisk 128 1000 4 132) default)
      [(.create 0 (.letters 1 (by decide) (by decide)) 0o644, Answers.good default 0 0)]
      (fun s => execTo s umount (Answers.good default 0 0)
          (fun _ u => SuperBlock.magic (u.disk 1) == naiveMagic) &&
        (s.inodes 1).any fun nd => nd.iIno == 2) = true by decide +kernel)
  rw [Bool.and_eq_true] at hcheck
  obtain ⟨t, ht⟩ := exists_remounted hcheck.1
  have hreach : Reach (fun _ op ans _ => op.cached ∧ ∀ site i b, ans (.sbBread site i b) = true)
      (FS.mounted (sampleDisk 128 1000 4 132) default) s := by
    refine Reach.of_runOps (fun _ x _ hx => ?_) .refl hs
    rw [List.mem_singleton.mp hx]
    exact ⟨trivial, fun _ _ _ => rfl⟩
  have hsurvive := hall _ _ s t (sampleDisk_mounted 128 1000 4 132 default) hreach ht
  obtain ⟨_, hroot, habove⟩ := hreach.session (sampleDisk_mounted 128 1000 4 132 default)
    fun _ _ _ _ hop => hop.1
  obtain ⟨disk', ts, rfl, _, hdisk⟩ := ht.above laid_sampleDisk (habove laid_sampleDisk)
  have honly := hsurvive.onlyRoot hroot (habove laid_sampleDisk) hdisk
  cases hnode : s.inodes 1 with
  | none =>
      rw [hnode] at hcheck
      exact absurd hcheck.2 (by decide)
  | some nd =>
      have hid := (honly.2 1 nd hnode).1
      rw [hroot.sRoot] at hid
      cases hid

end NaiveFS
