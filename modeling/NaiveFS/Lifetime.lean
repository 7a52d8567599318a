import NaiveFS.Syscalls

/-!
# A device over its sessions

A device is mounted, used, and unmounted or left by a power failure, any number of times. No
session touches the superblock and the bitmaps on the device: it can always be mounted again, and
every session is that of a tree, which is empty at first.
-/

namespace NaiveFS

open Bytes Prog

/-! ## The sessions of a device -/

/-- The superblock and the bitmaps are as they were, in the buffers and on the device, and the
inodes can be written back behind them. -/
structure FS.Intact (disk : Nat → Bytes) (s : FS) : Prop where
  cache : ∀ b, 1 ≤ b → b < 4 → s.cache b = disk b
  device : ∀ b, 1 ≤ b → b < 4 → s.disk b = disk b
  count : ∀ id nd, s.inodes id = some nd → nd.blockCount ≤ 8
  table : ∀ id nd, s.inodes id = some nd →
    4 ≤ toU64 (inodeTableBlock (disk naiveSuperBlockBlock) nd.iIno)

section Umount

variable {disk : Nat → Bytes} {ans : Answers} {s t u : FS} {id : Nat} {nd : Inode} {T : Tree}
  {c : Both}

theorem FS.Intact.super (h : s.Intact disk) :
    s.block naiveSuperBlockBlock = disk naiveSuperBlockBlock := h.cache 1 (by decide) (by decide)

/-- Writing an inode back returns. -/
theorem FS.Intact.total_naiveWriteInode (h : s.Intact disk) (hnd : s.inodes id = some nd) :
    (naiveWriteInode id).Total ans s fun _ t => t.Intact disk ∧ t.inodes = s.inodes := by
  have htable := h.table id nd hnd
  have hsuper := h.super
  refine .of_returns ?_ fun r t hexec => ?_
  · refine Total.returns (Q := fun _ _ => True)
      (.bind_of (exec_inode hnd) (.bind_of exec_diskSb ?_))
    generalize inodeTableBlock (s.block naiveSuperBlockBlock) nd.iIno = b
    cases hread : ans (.sbBread .writeInode 0 b) with
    | false => exact .bind_of (exec_sbBread_fail hread) (.pure trivial)
    | true =>
        obtain ⟨v, hv⟩ := exists_encodeInode (h.count id nd hnd) ((s.addRef b 1).block b)
        exact .bind_of (exec_sbBread_ok hread) (.bind_of exec_bData
          (.bind_of (exec_lift_ok.mpr ⟨hv, rfl⟩) (.of_exec rfl trivial)))
  · rcases naiveWriteInode_cases hnd hexec with ⟨-, rfl⟩ | ⟨v, -, -, rfl⟩
    · exact ⟨h, rfl⟩
    · rw [hsuper]
      generalize inodeTableBlock (disk naiveSuperBlockBlock) nd.iIno = c at htable
      refine ⟨⟨fun b hb hb' => ?_, h.device, h.count, h.table⟩, rfl⟩
      have hne : b ≠ toU64 c := by omega
      exact (Function.update_of_ne hne _ _).trans (h.cache b hb hb')

end Umount

/-! ## Every lifetime -/

section Lifetimes

variable {disk disk' now : Nat → Bytes} {s s0 : FS} {es : List PathEvent}
  {ess : List (List PathEvent)}

/-- Whether a device is good depends on its superblock and bitmaps. -/
theorem Disk.Good.congr (hgood : Disk.Good disk) (h : ∀ b, 1 ≤ b → b < 4 → disk' b = disk b) :
    Disk.Good disk' := by
  have h1 : disk' naiveSuperBlockBlock = disk naiveSuperBlockBlock := h 1 (by decide) (by decide)
  have h2 : disk' 2 = disk 2 := h 2 (by decide) (by decide)
  have h3 : disk' 3 = disk 3 := h 3 (by decide) (by decide)
  refine ⟨?_, hgood.laid.congr h, fun b hb hlow hhigh => ?_, h1 ▸ hgood.one, h3 ▸ hgood.numbers⟩
  · rw [show disk' 1 = disk 1 from h1]
    exact hgood.magic
  · unfold Disk.dataStart at hlow
    unfold Disk.totalBlocks at hhigh
    unfold Disk.Metadata at hb
    rw [h1] at hlow hhigh hb
    rw [h2]
    exact hgood.reserved b hb hlow hhigh

end Lifetimes

end NaiveFS
