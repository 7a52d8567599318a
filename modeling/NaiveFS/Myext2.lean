import NaiveFS.Lib.File
import NaiveFS.State

/-!
# `changeMN.c` and the `myext2` module

`changeMN` looks for the ext2 magic in the first word of the superblock, at byte
1024, and writes the new magic there. `myext2_fill_super` checks the word 56
bytes further on, where ext2 has its magic.
-/

namespace NaiveFS.Myext2

open Bytes

def myext2SuperMagic : Nat := 0x6666

def ext2SuperMagic : Nat := 0xEF53

/-! ## The converter -/

/-- Which calls of the tool succeed: `open`, `lseek`, `read`, the `lseek` back
(whose result is not looked at) and `write`. -/
structure IOCalls where
  opens : Bool
  seeks : Bool
  reads : Bool
  rewinds : Bool
  writes : Bool

/-- Every call succeeds. -/
def IOCalls.succeed : IOCalls := ⟨true, true, true, true, true⟩

/-- What the tool prints: a `perror`, the usage, or one of its four lines. -/
inductive Line where
  | usage
  | perror (text : String)
  | current (magic : Nat)
  | changed (magic : Nat)
  | already
  | unknown (magic : Nat)
deriving Repr, DecidableEq

/-- Exit code, output and the image afterwards. -/
structure Outcome where
  code : Int
  said : List Line
  image : Bytes

/-- What `main` does with the magic it read; `f` stands behind it. -/
def changeMagic (c : IOCalls) (f : File) (magic : Nat) : Outcome :=
  if magic = ext2SuperMagic then
    let g := if c.rewinds then f.seek 1024 else f
    if !c.writes then ⟨1, [.current magic, .perror "write magic"], f.bytes⟩
    else
      let g := g.write (zeros.putLE16 0 myext2SuperMagic) 2
      ⟨0, [.current magic, .changed myext2SuperMagic], g.bytes⟩
  else if magic = myext2SuperMagic then ⟨0, [.current magic, .already], f.bytes⟩
  else ⟨0, [.current magic, .unknown magic], f.bytes⟩

/-- `main`, run with `argc` arguments on an image of `size` bytes. -/
def changeMN (argc : Nat) (c : IOCalls) (size : Nat) (image : Bytes) : Outcome :=
  if argc ≠ 2 then ⟨1, [.usage], image⟩
  else if !c.opens then ⟨1, [.perror "open"], image⟩
  else if !c.seeks then ⟨1, [.perror "lseek to superblock"], image⟩
  else
    let f := File.seek ⟨image, 0⟩ 1024
    -- a read of an image that ends before byte 1026 is short
    if !c.reads || size < f.pos + 2 then ⟨1, [.perror "read magic"], image⟩
    else changeMagic c (f.seek (f.pos + 2)) (getLE16 f.bytes f.pos)

/-! ## The mount -/

/-- Which kernel calls of the mount succeed, and the time it reads. -/
structure MountCalls where
  sbBread : Bool
  newInode : Bool
  dMakeRoot : Bool
  now : Nat

/-- The root inode the mount builds. -/
structure Root where
  iIno : Nat
  iMode : Nat
  time : Nat
  nlink : Nat

/-- The superblock's fields, the references held on block 1's buffer and those
held on the new inode. -/
structure Sb where
  sMagic : Nat
  sBlocksize : Nat
  sBlocksizeBits : Nat
  sMaxbytes : Nat
  sRoot : Option Root
  bCount : Int
  iCount : Int

/-- `MAX_LFS_FILESIZE` of a 64-bit kernel. -/
def maxLfsFilesize : Nat := 2 ^ 63 - 1

/-- `le16_to_cpu(*(__le16 *)(bh->b_data + 56)) == MYEXT2_SUPER_MAGIC`. -/
def magicOk (data : Bytes) : Bool := data.getLE16 56 == myext2SuperMagic

/-- `myext2_fill_super` on a device whose block 1 is `data`. -/
def fillSuper (c : MountCalls) (data : Bytes) (sb : Sb) : Int × Sb :=
  if !c.sbBread then (- EIO, sb)
  else
    let sb := { sb with bCount := sb.bCount + 1 }
    if !magicOk data then (- EINVAL, { sb with bCount := sb.bCount - 1 })
    else
      let sb := { sb with
        sMagic := myext2SuperMagic, sBlocksize := 1024, sBlocksizeBits := 10
        sMaxbytes := maxLfsFilesize }
      if !c.newInode then (- ENOMEM, { sb with bCount := sb.bCount - 1 })
      else
        let sb := { sb with iCount := sb.iCount + 1 }
        let root : Root := { iIno := 2, iMode := 0o040755, time := c.now, nlink := 2 }
        if !c.dMakeRoot then
          -- d_make_root puts the inode when it fails, and so does this function
          let sb := { sb with sRoot := none, iCount := sb.iCount - 1 }
          (- ENOMEM, { sb with iCount := sb.iCount - 1, bCount := sb.bCount - 1 })
        else (0, { sb with sRoot := some root, bCount := sb.bCount - 1 })

/-- Block 1 of the image, as `sb_bread(sb, 1)` returns it. -/
def superBlock (image : Bytes) : Bytes := File.block ⟨image, 0⟩ 1024 1

/-- The mount gets past the magic check: it never fails with `-EINVAL`. -/
def Accepts (image : Bytes) : Prop :=
  ∀ c sb, (fillSuper c (superBlock image) sb).1 ≠ - EINVAL

/-- Once block 1 is read, the mount fails with `-EINVAL`. -/
def Rejects (image : Bytes) : Prop :=
  ∀ c sb, c.sbBread = true → (fillSuper c (superBlock image) sb).1 = - EINVAL

theorem getLE16_superBlock (image : Bytes) : (superBlock image).getLE16 56 = image.getLE16 1080 :=
  rfl

/-- Every path gives back the buffer it read. -/
theorem fillSuper_bCount (c : MountCalls) (data : Bytes) (sb : Sb) :
    (fillSuper c data sb).2.bCount = sb.bCount := by
  unfold fillSuper
  split
  · rfl
  · split
    · simp
    · dsimp only
      split
      · simp
      · split <;> simp

theorem accepts_iff (image : Bytes) : Accepts image ↔ image.getLE16 1080 = myext2SuperMagic := by
  constructor
  · intro h
    by_contra hne
    apply h ⟨true, true, true, 0⟩ ⟨0, 0, 0, 0, none, 0, 0⟩
    simp [fillSuper, magicOk, getLE16_superBlock, hne]
  · intro h c sb
    have hm : magicOk (superBlock image) = true := by simp [magicOk, getLE16_superBlock, h]
    unfold fillSuper
    simp only [hm, Bool.not_true]
    cases c.sbBread <;> cases c.newInode <;> cases c.dMakeRoot <;> simp

theorem rejects_iff (image : Bytes) : Rejects image ↔ image.getLE16 1080 ≠ myext2SuperMagic := by
  constructor
  · intro h he
    have := h ⟨true, true, true, 0⟩ ⟨0, 0, 0, 0, none, 0, 0⟩ rfl
    simp [fillSuper, magicOk, getLE16_superBlock, he] at this
  · intro h c sb hc
    simp [fillSuper, hc, magicOk, getLE16_superBlock, h]

/-! ## What the tool does to an image -/

section Convert

variable {size : Nat} {image : Bytes}

/-- A run that ends with a non-zero code leaves the image as it was. -/
theorem changeMN_failed {argc : Nat} {c : IOCalls}
    (h : (changeMN argc c size image).code ≠ 0) : (changeMN argc c size image).image = image := by
  unfold changeMN changeMagic at h ⊢
  split
  · rfl
  · split
    · rfl
    · split
      · rfl
      · dsimp only at h ⊢
        split
        · rfl
        · split
          · split
            · rfl
            · simp_all
          · split <;> rfl

/-- The tool changes nothing but the first word of the superblock, and only
there where it reads the ext2 magic. -/
theorem changeMN_image (hsize : 1026 ≤ size) :
    (changeMN 2 .succeed size image).image =
      if image.getLE16 1024 = ext2SuperMagic then image.putLE16 1024 myext2SuperMagic
      else image := by
  have hread : changeMN 2 .succeed size image =
      changeMagic .succeed ⟨image, 1026⟩ (image.getLE16 1024) := by
    unfold changeMN
    rw [if_neg (by decide), if_neg (by decide), if_neg (by decide), if_neg]
    · rfl
    · have hshort : ¬ size < 1026 := by omega
      simp [IOCalls.succeed, hshort]
  rw [hread, changeMagic]
  by_cases he : image.getLE16 1024 = ext2SuperMagic
  · rw [if_pos he, if_pos he]
    exact File.bytes_write
  · rw [if_neg he, if_neg he]
    split <;> rfl

/-- An ext2 image gets the new magic in place of its own, keeps every other
byte and is mounted; an image of another kind is left alone and not mounted. -/
structure ConvertsExactly (size : Nat) (image : Bytes) : Prop where
  converted : image.getLE16 1080 = ext2SuperMagic →
    (changeMN 2 .succeed size image).image 1080 = 0x66 ∧
    (changeMN 2 .succeed size image).image 1081 = 0x66 ∧
    (∀ k, k ≠ 1080 → k ≠ 1081 → (changeMN 2 .succeed size image).image k = image k) ∧
    Accepts (changeMN 2 .succeed size image).image
  left : image.getLE16 1080 ≠ ext2SuperMagic → image.getLE16 1080 ≠ myext2SuperMagic →
    (∀ k, (changeMN 2 .succeed size image).image k = image k) ∧
    Rejects (changeMN 2 .succeed size image).image

/-- The word the mount looks at is not one the tool writes. -/
theorem changeMN_magic (hsize : 1026 ≤ size) :
    (changeMN 2 .succeed size image).image.getLE16 1080 = image.getLE16 1080 := by
  rw [changeMN_image hsize]
  split
  · apply getLE16_congr
    · exact blit_out (by simp)
    · exact blit_out (by simp)
  · rfl

/-- Storing the new magic over the old one changes the image. -/
theorem putLE16_ne (h : image.getLE16 1024 = ext2SuperMagic) :
    image.putLE16 1024 myext2SuperMagic 1024 ≠ image 1024 := by
  intro heq
  have hput : image.putLE16 1024 myext2SuperMagic 1024 = 0x66 := by
    rw [putLE16, blit_in (by omega) (by simp)]
    rfl
  have h0 : (image 1024).toNat = 0x66 := by
    rw [← heq, hput]
    rfl
  unfold getLE16 ext2SuperMagic at h
  omega

/-- The tool and the mount agree on an image exactly when the mount's word is not
the ext2 magic and, unless it is already the new one, the first word is not
either. -/
theorem convertsExactly_iff (hsize : 2048 ≤ size) :
    ConvertsExactly size image ↔
      image.getLE16 1080 ≠ ext2SuperMagic ∧
        (image.getLE16 1080 = myext2SuperMagic ∨ image.getLE16 1024 ≠ ext2SuperMagic) := by
  have hmagic : (changeMN 2 .succeed size image).image.getLE16 1080 = image.getLE16 1080 :=
    changeMN_magic (by omega)
  constructor
  · intro h
    have hne : image.getLE16 1080 ≠ ext2SuperMagic := by
      intro he
      obtain ⟨-, -, -, hacc⟩ := h.converted he
      rw [accepts_iff, hmagic, he] at hacc
      revert hacc
      decide
    refine ⟨hne, ?_⟩
    by_contra hboth
    obtain ⟨hnew, hfirst⟩ := not_or.mp hboth
    have hfirst : image.getLE16 1024 = ext2SuperMagic := not_not.mp hfirst
    have hsame := (h.left hne hnew).1 1024
    rw [changeMN_image (by omega), if_pos hfirst] at hsame
    exact putLE16_ne hfirst hsame
  · rintro ⟨hne, hor⟩
    constructor
    · intro he
      exact absurd he hne
    · intro _ hnew
      have hfirst : image.getLE16 1024 ≠ ext2SuperMagic := hor.resolve_left hnew
      constructor
      · intro k
        rw [changeMN_image (by omega), if_neg hfirst]
      · rw [rejects_iff, hmagic]
        exact hnew

/-- An image that has 128 inodes and the magic number of another file system is left alone. -/
theorem convertsExactly_other :
    ConvertsExactly 4096 ((zeros.putLE16 1024 128).putLE16 1080 0x4d44) :=
  (convertsExactly_iff (by decide)).mpr (by decide)

end Convert

/-- An image with the ext2 magic where ext2 has it is not converted. -/
theorem convertsExactly_ext2 :
    ¬ ConvertsExactly 2048 (zeros.putLE16 1080 ext2SuperMagic) := by
  intro h
  have hbyte := (h.converted (by decide)).1
  revert hbyte
  decide

end NaiveFS.Myext2
