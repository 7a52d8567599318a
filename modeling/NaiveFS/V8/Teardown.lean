import NaiveFS.Lib.Trace
import NaiveFS.V8.Release
import NaiveFS.V8.Sizes

/-!
# The single-file module: what a mount attempt releases

`naive_kill_sb` runs at the unmount and, called by `mount_bdev`, after a failed
`naive_fill_super`. It releases the three buffers of `sbi` and frees `sbi`; so
does the clean-up ladder of the mount, which leaves `s_fs_info` as it is.
-/

namespace NaiveFS.V8

open Bytes

/-! ## The code of the unmount -/

/-- `naive_kill_sb`, up to its call of `kill_block_super`. -/
def naiveKillSb : K Unit := do
  match ← Prog.read (·.sFsInfo) with
  | .null => pure ()
  | _ =>
    let sbi ← naiveSb
    brelse sbi.sbBh
    let sbi ← naiveSb
    brelse sbi.blockBitmapBh
    let sbi ← naiveSb
    brelse sbi.inodeBitmapBh
    Prog.modify (·.setInfo .freed)

/-! ## Counting releases -/

def SbPtr.isFreed : SbPtr → Bool
  | .freed => true
  | _ => false

/-- The `brelse` calls on block `b` among the stores. -/
def brelses (b : Nat) (log : List (FS × FS)) : Nat :=
  log.countP fun x => x.2.bCount b < x.1.bCount b

/-- The `kfree` calls on `sbi` among the stores. -/
def kfrees (log : List (FS × FS)) : Nat :=
  log.countP fun x => x.2.sFsInfo.isFreed && !x.1.sFsInfo.isFreed

/-- The buffers the mount gets for the superblock and the bitmaps, up to the first
read that fails. -/
def obtained (image : Bytes) (ans : Answers) : List Nat :=
  if ans (.kmalloc .sbInfo) ∧ ans (.sbBread .fillSuper naiveSuperBlockBlock) then
    naiveSuperBlockBlock ::
      if image.getLE32 512 = naiveMagic ∧
          ans (.sbBread .fillSuperBlockBitmap naiveBlockBitmapBlock) then
        naiveBlockBitmapBlock ::
          if ans (.sbBread .fillSuperInodeBitmap naiveInodeBitmapBlock) then
            [naiveInodeBitmapBlock]
          else []
      else []
  else []

/-- The mount ends, and whatever is done with the mounted file system, the unmount
ends: between them they release each buffer obtained once and free `sbi` once. The
unmount ends only when it reads no freed `sbi`. -/
def ReleasesOnce (e : Endian) (image : Bytes) (ans : Answers) : Prop :=
  ∃ r t, (naiveFillSuper e).exec ans { mem := image } = .ok (r, t) ∧
    ∀ u, (if r = 0 then Actions e (fun _ _ => True) t u else u = t) →
      ∀ ans', (∃ v, naiveKillSb.exec ans' u = .ok ((), v)) ∧
        (∀ b, brelses b ((naiveFillSuper e).stores ans { mem := image } ++
          naiveKillSb.stores ans' u) = (obtained image ans).count b) ∧
        kfrees ((naiveFillSuper e).stores ans { mem := image } ++ naiveKillSb.stores ans' u) =
          if ans (.kmalloc .sbInfo) then 1 else 0

/-! ## `s_fs_info` while mounted -/

section Info

variable {e : Endian} {ans : Answers} {s t u : FS} {p : SbPtr}

theorem info_naiveFreeFileBlocks {a : Nat} :
    Prog.Keeps ans (fun u => u.sFsInfo = p) (naiveFreeFileBlocks e a) := by
  have hI := frame_info p
  exact .bind keeps_naiveSb fun _ => .bind hI.tryMem fun _ => .bind hI.updMem fun _ =>
    hI.markBufferDirty

theorem info_naiveWriteInode {id : Nat} :
    Prog.Keeps ans (fun u => u.sFsInfo = p) (naiveWriteInode e id) := by
  have hI := frame_info p
  refine .bind keeps_inode fun nd => ?_
  cases nd.iPrivate with
  | none => exact .pure _
  | some nii => exact .bind hI.updMem fun _ => .bind hI.markBufferDirty fun _ => .pure _

/-- Nothing done with a mounted file system touches it. -/
theorem info_actions (hrun : Actions e (fun _ _ => True) t u) : u.sFsInfo = t.sFsInfo := by
  induction hrun with
  | refl => rfl
  | tail _ hstep ih =>
    obtain ⟨act, ans, r, -, hstep⟩ := hstep
    cases act with
    | op o => exact (info_run (.single ⟨.op o, ans, r, trivial, hstep⟩)).trans ih
    | write id data pos =>
      exact (info_run (.single ⟨.write id data pos, ans, r, trivial, hstep⟩)).trans ih
    | read id len pos => exact (read_cases hstep).info.trans ih
    | setattr id size =>
      rcases setattr_cases hstep with ⟨-, hq⟩ | ⟨-, -, -, hinfo, -⟩
      · exact hq.info.trans ih
      · exact hinfo.trans ih
    | writeInode id => exact info_naiveWriteInode _ _ _ ih hstep
    | freeBlocks id =>
      have hkeep : Prog.Keeps ans (fun u => u.sFsInfo = t.sFsInfo) (freeInodeBlocks e id) :=
        .bind keeps_naiveI fun _ => .bind info_naiveFreeFileBlocks fun _ => .pure _
      exact hkeep _ _ _ ih hstep

end Info

/-! ## How a mount ends -/

section Ladder

variable {e : Endian} {ans : Answers} {Q : Int → FS → Prop}
  (hfail : ∀ (r : Int) (s : FS), r ≠ 0 → Q r (s.setInfo .freed))
include hfail

/-- The ladder frees `sbi` and returns the code it was given. -/
theorem outFreeSbi_ensures {r : Int} (hr : r ≠ 0) : Prog.Ensures ans Q (outFreeSbi r) := by
  intro s a t h
  cases h
  exact hfail r s hr

theorem outBrelseSb_ensures {r : Int} (hr : r ≠ 0) : Prog.Ensures ans Q (outBrelseSb r) :=
  .bind fun _ => .bind fun _ => outFreeSbi_ensures hfail hr

theorem outBrelseBlockBitmap_ensures {r : Int} (hr : r ≠ 0) :
    Prog.Ensures ans Q (outBrelseBlockBitmap r) :=
  .bind fun _ => .bind fun _ => outBrelseSb_ensures hfail hr

theorem outBrelseInodeBitmap_ensures {r : Int} (hr : r ≠ 0) :
    Prog.Ensures ans Q (outBrelseInodeBitmap r) :=
  .bind fun _ => .bind fun _ => outBrelseBlockBitmap_ensures hfail hr

variable (hend : ans .dMakeRoot = true → ∀ t, Q 0 t)
include hend

/-- A mount that got `sbi` fails through the ladder, or returns 0 behind a
`d_make_root` that succeeded. -/
theorem fillSuperOnDisk_ensures {id b : Nat} {ts : Timespec} :
    Prog.Ensures ans Q (fillSuperOnDisk e id ts b) := by
  have hladder : ∀ r : Int, r ≠ 0 → Prog.Ensures ans Q (outBrelseInodeBitmap r) := fun r hr =>
    outBrelseInodeBitmap_ensures hfail hr
  refine .bind fun ok => .ite (.bind fun _ => hladder _ (by decide)) (.bind fun ok => .ite
    (.bind fun _ => .bind fun _ => hladder _ (by decide)) (.bind fun _ => .bind fun nd =>
      .bind fun _ => .bind fun _ => .ask_bind ?_))
  cases hd : (ans .dMakeRoot : Bool) with
  | false => exact .bind fun _ => .bind fun _ => .bind fun _ => hladder _ (by decide)
  | true => exact .bind fun _ => .pure (hend hd)

theorem fillSuperBitmaps_ensures : Prog.Ensures ans Q (fillSuperBitmaps e) := by
  refine .bind fun ok => .ite (outBrelseSb_ensures hfail (by decide)) (.bind fun _ =>
    .bind fun ok => .ite (outBrelseBlockBitmap_ensures hfail (by decide)) (.bind fun _ =>
      .bind fun _ => .bind fun _ => .bind fun _ => .bind fun _ => .bind fun _ =>
        .bind fun q => ?_))
  cases q with
  | none => exact outBrelseInodeBitmap_ensures hfail (by decide)
  | some id =>
    exact .bind fun _ => .bind fun _ => .bind fun _ => .bind fun _ => .bind fun _ => .bind fun _ =>
      fillSuperOnDisk_ensures hfail hend

theorem naiveFillSuper_ensures (hinfo : ans (.kmalloc .sbInfo) = true) :
    Prog.Ensures ans Q (naiveFillSuper e) := by
  refine .ask_bind ?_
  have hinfo : (ans (.kmalloc .sbInfo) : Bool) = true := hinfo
  rw [hinfo, Bool.not_true, if_neg Bool.false_ne_true]
  exact .bind fun _ => .bind fun ok => .ite (outFreeSbi_ensures hfail (by decide)) (.bind fun _ =>
    .bind fun magic => .ite (outBrelseSb_ensures hfail (by decide))
      (fillSuperBitmaps_ensures hfail hend))

end Ladder

/-! ## A successful mount releases nothing -/

/-- The store drops no reference and does not free `sbi`. -/
def Holding (s t : FS) : Prop :=
  (∀ b, s.bCount b ≤ t.bCount b) ∧ (t.sFsInfo.isFreed = true → s.sFsInfo.isFreed = true)

section Success

variable {e : Endian} {ans : Answers}

/-- A store that leaves the counts and `sbi`. -/
theorem holding_of {s t : FS} (hc : t.bCount = s.bCount) (hi : t.sFsInfo = s.sFsInfo) :
    Holding s t := by
  constructor
  · intro b
    rw [hc]
  · rw [hi]
    exact id

theorem holding_refl (s : FS) : Holding s s := holding_of rfl rfl

theorem only_sbBread {site : Site} {b : Nat} : Prog.Only ans Holding (sbBread site b) := by
  refine .bind (.ask _) fun ok => ?_
  cases ok with
  | false => exact .pure _
  | true =>
    refine .bind (.modify fun s => ⟨fun b' => ?_, id⟩) fun _ => .pure _
    show s.bCount b' ≤ Function.update s.bCount b (s.bCount b + 1) b'
    by_cases hb : b' = b
    · simp [hb]
    · simp [hb]

theorem only_inode {id : Nat} : Prog.Only ans Holding (inode id) := by
  apply Prog.Only.step
  intro s nd t h
  cases hs : s.inodes id with
  | none => simp [hs] at h
  | some nd' =>
    rw [hs] at h
    cases h
    exact holding_refl s

theorem only_updInode {id : Nat} {f : Inode → Inode} : Prog.Only ans Holding (updInode id f) :=
  .bind only_inode fun _ => .modify fun _ => holding_of rfl rfl

theorem only_naiveSb : Prog.Only ans Holding naiveSb := by
  apply Prog.Only.step
  intro s sbi t h
  cases hs : s.sFsInfo with
  | live sbi' =>
    rw [hs] at h
    cases h
    exact holding_refl s
  | null => simp [hs] at h
  | freed => simp [hs] at h

theorem only_updSbi {f : SbInfo → SbInfo} : Prog.Only ans Holding (updSbi f) :=
  .bind only_naiveSb fun _ => .modify fun _ => ⟨fun _ => Int.le_refl _, fun h => nomatch h⟩

theorem only_tryMem {f : Bytes → Except Fault Bytes} : Prog.Only ans Holding (tryMem f) := by
  apply Prog.Only.step
  intro s a t h
  cases hf : f s.mem with
  | error x => simp [hf, bind, Except.bind] at h
  | ok m =>
    rw [hf] at h
    cases h
    exact holding_of rfl rfl

theorem only_updMem {f : Bytes → Bytes} : Prog.Only ans Holding (updMem f) :=
  .modify fun _ => holding_of rfl rfl

theorem only_markBufferDirty {b : Nat} : Prog.Only ans Holding (markBufferDirty b) :=
  .modify fun _ => holding_of rfl rfl

theorem only_newInode : Prog.Only ans Holding newInode := by
  refine .bind (.ask _) fun ok => ?_
  cases ok with
  | false => exact .pure _
  | true =>
      exact .bind (.read _) fun _ => .bind (.modify fun _ => holding_of rfl rfl) fun _ => .pure _

theorem only_inodeInitOwner {id mode : Nat} {dir : Option Inode} :
    Prog.Only ans Holding (inodeInitOwner id dir mode) :=
  .bind (.ask _) fun _ => .bind (.ask _) fun _ => only_updInode

theorem fails_outBrelseInodeBitmap {r : Int} (hr : r ≠ 0) :
    Prog.OnlyWhen ans (· = 0) Holding (outBrelseInodeBitmap r) :=
  .never (outBrelseInodeBitmap_ensures (fun _ _ h => h) hr)

theorem onlyWhen_fillSuperOnDisk {id b : Nat} {ts : Timespec} :
    Prog.OnlyWhen ans (· = 0) Holding (fillSuperOnDisk e id ts b) := by
  -- the branches with a `brelse` before the ladder return its code
  have hladder : ∀ r : Int, r ≠ 0 →
      Prog.Ensures ans (fun b _ => ¬ b = 0) (outBrelseInodeBitmap r) :=
    fun r hr => outBrelseInodeBitmap_ensures (fun _ _ h => h) hr
  refine .bind only_sbBread fun ok => .ite (.never (.bind fun _ => hladder _ (by decide)))
    (.bind (.ask _) fun ok => .ite
      (.never (.bind fun _ => .bind fun _ => hladder _ (by decide)))
      (.bind only_updInode fun _ => .bind only_inode fun nd => .bind only_updMem fun _ =>
        .bind only_markBufferDirty fun _ => .bind (.ask _) fun ok => .ite
          (.bind (.modify fun _ => holding_of rfl rfl) fun _ => .of_only (.pure _))
          (.never (.bind fun _ => .bind fun _ => .bind fun _ => hladder _ (by decide)))))

theorem onlyWhen_fillSuperBitmaps :
    Prog.OnlyWhen ans (· = 0) Holding (fillSuperBitmaps e) := by
  refine .bind only_sbBread fun ok => .ite
    (.never (outBrelseSb_ensures (fun _ _ h => h) (by decide)))
    (.bind only_updSbi fun _ => .bind only_sbBread fun ok => .ite
      (.never (outBrelseBlockBitmap_ensures (fun _ _ h => h) (by decide)))
      (.bind only_updSbi fun _ => .bind (.read _) fun _ => .bind only_updSbi fun _ =>
        .bind only_naiveSb fun _ => .bind only_tryMem fun _ => .bind only_markBufferDirty fun _ =>
          .bind only_newInode fun q => ?_))
  cases q with
  | none => exact fails_outBrelseInodeBitmap (by decide)
  | some id =>
    exact .bind only_updInode fun _ => .bind only_inodeInitOwner fun _ => .bind (.ask _) fun _ =>
      .bind only_updInode fun _ => .bind only_updInode fun _ => .bind only_naiveSb fun _ =>
        onlyWhen_fillSuperOnDisk

/-- A mount that returns 0 has only taken references. -/
theorem onlyWhen_naiveFillSuper :
    Prog.OnlyWhen ans (· = 0) Holding (naiveFillSuper e) := by
  refine .bind (.ask _) fun ok => .ite (.never (.pure fun _ => by decide))
    (.bind (.modify fun s => ⟨fun b => Int.le_refl _, fun h => nomatch h⟩) fun _ =>
      .bind only_sbBread fun ok => .ite (.never (outFreeSbi_ensures (fun _ _ h => h) (by decide)))
        (.bind only_updSbi fun _ => .bind (.read _) fun magic => .ite
          (.never (outBrelseSb_ensures (fun _ _ h => h) (by decide)))
          onlyWhen_fillSuperBitmaps))

/-- A run of such stores has no `brelse` and no `kfree`. -/
theorem brelses_of_holding {log : List (FS × FS)} (h : ∀ x ∈ log, Holding x.1 x.2) (b : Nat) :
    brelses b log = 0 := by
  apply List.countP_eq_zero.mpr
  intro x hx
  have := (h x hx).1 b
  simpa using this

theorem kfrees_of_holding {log : List (FS × FS)} (h : ∀ x ∈ log, Holding x.1 x.2) :
    kfrees log = 0 := by
  apply List.countP_eq_zero.mpr
  intro x hx
  have := (h x hx).2
  cases hf : x.2.sFsInfo.isFreed with
  | false => simp
  | true => simp [this hf]

end Success

/-! ## The unmount -/

section Unmount

variable {ans : Answers} {u : FS} {sbi : SbInfo}

/-- With a freed `sbi` the unmount reads it. -/
theorem naiveKillSb_freed (h : u.sFsInfo = .freed) :
    naiveKillSb.exec ans u = .error .noSbi := by
  rw [naiveKillSb, Prog.exec_read_bind, h]
  apply Prog.exec_bind_error
  rw [naiveSb, Prog.exec_step, h]

/-- Without an `sbi` it does nothing. -/
theorem naiveKillSb_null (ans : Answers) (h : u.sFsInfo = .null) :
    naiveKillSb.exec ans u = .ok ((), u) ∧ naiveKillSb.stores ans u = [] := by
  have hread : (Prog.read (·.sFsInfo) : K SbPtr).exec ans u = .ok (u.sFsInfo, u) := rfl
  constructor
  · rw [naiveKillSb, Prog.exec_read_bind, h]
    rfl
  · rw [naiveKillSb, Prog.stores_bind_of hread, h]
    rfl

theorem stores_naiveSb (h : u.sFsInfo = .live sbi) : naiveSb.stores ans u = [(u, u)] := by
  apply Prog.stores_step_ok
  rw [h]

/-- With a live `sbi` it ends, and its stores are the three releases and the
`kfree`, each behind a read of `sbi`. -/
theorem naiveKillSb_live (ans : Answers) (h : u.sFsInfo = .live sbi) :
    ∃ u₁ u₂ u₃ v, u₁ = u.addRef sbi.sbBh (-1) ∧ u₂ = u₁.addRef sbi.blockBitmapBh (-1) ∧
      u₃ = u₂.addRef sbi.inodeBitmapBh (-1) ∧ v = u₃.setInfo .freed ∧
      naiveKillSb.exec ans u = .ok ((), v) ∧ naiveKillSb.stores ans u =
        [(u, u), (u, u₁), (u₁, u₁), (u₁, u₂), (u₂, u₂), (u₂, u₃), (u₃, v)] := by
  have hread : (Prog.read (·.sFsInfo) : K SbPtr).exec ans u = .ok (u.sFsInfo, u) := rfl
  have h₁ : (u.addRef sbi.sbBh (-1)).sFsInfo = .live sbi := h
  have h₂ : ((u.addRef sbi.sbBh (-1)).addRef sbi.blockBitmapBh (-1)).sFsInfo = .live sbi := h
  refine ⟨_, _, _, _, rfl, rfl, rfl, rfl, ?_, ?_⟩
  · rw [naiveKillSb, Prog.exec_read_bind, h]
    dsimp only
    rw [Prog.exec_bind_of (exec_naiveSb h), Prog.exec_bind_of exec_brelse,
      Prog.exec_bind_of (exec_naiveSb h₁), Prog.exec_bind_of exec_brelse,
      Prog.exec_bind_of (exec_naiveSb h₂), Prog.exec_bind_of exec_brelse]
    rfl
  · rw [naiveKillSb, Prog.stores_bind_of hread, h]
    dsimp only
    rw [Prog.stores_bind_of (exec_naiveSb h), Prog.stores_bind_of exec_brelse,
      Prog.stores_bind_of (exec_naiveSb h₁), Prog.stores_bind_of exec_brelse,
      Prog.stores_bind_of (exec_naiveSb h₂), Prog.stores_bind_of exec_brelse,
      stores_naiveSb h, stores_naiveSb h₁, stores_naiveSb h₂]
    rfl

theorem addRef_lt_iff {x b : Nat} : (u.addRef x (-1)).bCount b < u.bCount b ↔ x = b := by
  show Function.update u.bCount x (u.bCount x + -1) b < u.bCount b ↔ _
  by_cases hb : x = b
  · subst hb
    simp
  · rw [Function.update_of_ne (Ne.symm hb)]
    simp [hb]

/-- Each buffer of `sbi` is released once. -/
theorem brelses_naiveKillSb (ans : Answers) (h : u.sFsInfo = .live sbi) (b : Nat) :
    brelses b (naiveKillSb.stores ans u) =
      [sbi.sbBh, sbi.blockBitmapBh, sbi.inodeBitmapBh].count b := by
  obtain ⟨_, _, _, _, rfl, rfl, rfl, rfl, -, hlog⟩ := naiveKillSb_live ans h
  have hfreed : ∀ w : FS, (w.setInfo .freed).bCount = w.bCount := fun _ => rfl
  rw [hlog, brelses]
  simp only [List.countP_cons, List.countP_nil, List.count_cons, List.count_nil, addRef_lt_iff,
    hfreed, Int.lt_irrefl, decide_false, Bool.false_eq_true, if_false, decide_eq_true_eq,
    beq_iff_eq]
  omega

theorem kfrees_naiveKillSb (ans : Answers) (h : u.sFsInfo = .live sbi) :
    kfrees (naiveKillSb.stores ans u) = 1 := by
  obtain ⟨_, _, _, _, rfl, rfl, rfl, rfl, -, hlog⟩ := naiveKillSb_live ans h
  have href : ∀ (w : FS) x d, (w.addRef x d).sFsInfo = w.sFsInfo := fun _ _ _ => rfl
  have hfreed : ∀ w : FS, (w.setInfo .freed).sFsInfo = .freed := fun _ => rfl
  rw [hlog, kfrees]
  simp [href, hfreed, h, SbPtr.isFreed]

end Unmount

/-! ## Mounts that succeed -/

section Succeeds

variable {e : Endian} {image : Bytes} {ans : Answers} {s : FS}

theorem fillSuperOnDisk_succeeds {id b : Nat} {nd : Inode} {ts : Timespec}
    (hid : s.inodes id = some nd) (hroot : ans (.sbBread .fillSuperRoot b) = true)
    (hmem : ans (.kmalloc .rootInfo) = true) (hd : ans .dMakeRoot = true) :
    ∃ t, (fillSuperOnDisk e id ts b).exec ans s = .ok (0, t) := by
  have hid' : (s.addRef b 1).inodes id = some nd := hid
  have hmem : (ans (.kmalloc .rootInfo) : Bool) = true := hmem
  have hd : (ans .dMakeRoot : Bool) = true := hd
  rw [fillSuperOnDisk, Prog.exec_bind_of (exec_sbBread_ok hroot), Bool.not_true,
    if_neg Bool.false_ne_true, Prog.exec_ask_bind, hmem, Bool.not_true,
    if_neg Bool.false_ne_true, Prog.exec_bind_of (exec_updInode hid'),
    Prog.exec_bind_of (exec_inode FS.inodes_setInode_self), Prog.exec_bind_of exec_updMem,
    Prog.exec_bind_of exec_markBufferDirty, Prog.exec_ask_bind, hd, if_pos rfl]
  exact ⟨_, rfl⟩

theorem fillSuperRoot_succeeds {sbi : SbInfo} (hsbi : s.sFsInfo = .live sbi)
    (hroot : ans (.sbBread .fillSuperRoot (sbi.rootBlock e)) = true)
    (hmem : ans (.kmalloc .rootInfo) = true) (hd : ans .dMakeRoot = true) :
    ∃ t, (fillSuperRoot e s.nextInode).exec ans (s.withNew { iNlink := 1 }) = .ok (0, t) := by
  have hsbi' : ∀ nd, (s.withNew nd).sFsInfo = .live sbi := fun _ => hsbi
  rw [fillSuperRoot, Prog.exec_bind_of (exec_updInode FS.inodes_withNew_self),
    FS.setInode_withNew, Prog.exec_bind_of (exec_inodeInitOwner FS.inodes_withNew_self),
    FS.setInode_withNew, Prog.exec_bind_of exec_ktime,
    Prog.exec_bind_of (exec_updInode FS.inodes_withNew_self), FS.setInode_withNew,
    Prog.exec_bind_of (exec_updInode FS.inodes_withNew_self), FS.setInode_withNew,
    Prog.exec_bind_of (exec_naiveSb (hsbi' _))]
  exact fillSuperOnDisk_succeeds FS.inodes_withNew_self hroot hmem hd

/-- With every call answered the mount returns 0. -/
theorem naiveFillSuper_succeeds (h : MountReaches e image ans) (hd : ans .dMakeRoot = true) :
    ∃ t, (naiveFillSuper e).exec ans { mem := image } = .ok (0, t) := by
  have hinfo : (ans (.kmalloc .sbInfo) : Bool) = true := h.sbInfo
  have hmagic : ∀ {s : FS}, s.mem = image → ¬ s.mem.getLE32 (bData naiveSuperBlockBlock) ≠
      naiveMagic := fun hs => by rw [hs]; exact not_not.mpr h.magic
  rw [naiveFillSuper, Prog.exec_ask_bind, hinfo, Bool.not_true, if_neg Bool.false_ne_true,
    Prog.exec_modify_bind, Prog.exec_bind_of (exec_sbBread_ok h.super), Bool.not_true,
    if_neg Bool.false_ne_true, Prog.exec_bind_of (exec_updSbi rfl), Prog.exec_read_bind,
    le32ToCpu_load32, Prog.exec_ite, if_neg (hmagic rfl), fillSuperBitmaps,
    Prog.exec_bind_of (exec_sbBread_ok h.blockBitmap), Bool.not_true, if_neg Bool.false_ne_true,
    Prog.exec_bind_of (exec_updSbi rfl), Prog.exec_bind_of (exec_sbBread_ok h.inodeBitmap),
    Bool.not_true, if_neg Bool.false_ne_true, Prog.exec_bind_of (exec_updSbi rfl),
    fillSuperInfo, Prog.exec_read_bind, Prog.exec_bind_of (exec_updSbi rfl),
    Prog.exec_bind_of (exec_naiveSb rfl)]
  simp only [le32ToCpu_load32]
  have hbit : naiveSetBit 0 1536 image = .ok _ := naiveSetBit_nat 0 1536 image
  rw [Prog.exec_bind_of (exec_tryMem hbit), Prog.exec_bind_of exec_markBufferDirty,
    Prog.exec_bind_of (exec_newInode_ok h.newInode)]
  have hsbi : ∀ s : FS, s.sFsInfo = .live (.ofImage image) →
      ∃ t, (fillSuperRoot e s.nextInode).exec ans (s.withNew { iNlink := 1 }) = .ok (0, t) :=
    fun s hs => fillSuperRoot_succeeds hs h.root h.rootInfo hd
  exact hsbi _ rfl

end Succeeds

/-! ## The attempt and the unmount together -/

/-- What a mount takes is released exactly once when there is no memory for `sbi`, or
when the mount succeeds. -/
theorem releases_once_iff (e : Endian) (image : Bytes) (ans : Answers) :
    ReleasesOnce e image ans ↔
      ans (.kmalloc .sbInfo) = false ∨ (MountReaches e image ans ∧ ans .dMakeRoot = true) := by
  constructor
  · rintro ⟨r, t, hfill, hall⟩
    cases hinfo : ans (.kmalloc .sbInfo) with
    | false => exact .inl rfl
    | true =>
      right
      have hensures : Prog.Ensures ans (fun r t => r = 0 ∨ t.sFsInfo = .freed)
          (naiveFillSuper e) :=
        naiveFillSuper_ensures (fun _ _ _ => .inr rfl) (fun _ _ => .inl rfl) hinfo
      have hend : r = 0 ∨ t.sFsInfo = .freed := hensures _ _ _ hfill
      rcases naiveFillSuper_cases hfill with ⟨hreach, h0, -⟩ | ⟨-, hneg, -⟩
      · refine ⟨hreach, ?_⟩
        by_contra hd
        have hnonzero : Prog.Ensures ans (fun r _ => r ≠ 0) (naiveFillSuper e) :=
          naiveFillSuper_ensures (fun _ _ h => h) (fun h => absurd h hd) hinfo
        exact hnonzero _ _ _ hfill h0
      · -- the unmount after the failure reads the freed `sbi`
        have hr : r ≠ 0 := by omega
        obtain ⟨⟨v, hkill⟩, -⟩ := hall t (by rw [if_neg hr]) ans
        rw [naiveKillSb_freed (hend.resolve_left hr)] at hkill
        cases hkill
  · rintro (hinfo | ⟨hreach, hd⟩)
    · have hinfo' : (ans (.kmalloc .sbInfo) : Bool) = false := hinfo
      have hfill : (naiveFillSuper e).exec ans { mem := image } 
          = .ok (-ENOMEM, { mem := image }) := by
        rw [naiveFillSuper, Prog.exec_ask_bind, hinfo']
        rfl
      have hlog : (naiveFillSuper e).stores ans { mem := image } = [] := by
        have hask : (Prog.ask (Call.kmalloc .sbInfo) : K Bool).exec ans { mem := image } =
            .ok (false, { mem := image }) := by
          rw [Prog.exec_ask]
          exact congrArg (fun b => Except.ok (b, _)) hinfo'
        rw [naiveFillSuper, Prog.stores_bind_of hask]
        rfl
      refine ⟨_, _, hfill, ?_⟩
      intro u hu ans'
      rw [if_neg (by decide)] at hu
      subst hu
      obtain ⟨hkill, hstores⟩ := naiveKillSb_null (u := { mem := image }) ans' rfl
      refine ⟨⟨_, hkill⟩, fun b => ?_, ?_⟩
      · rw [hlog, hstores, obtained, if_neg (by simp [hinfo])]
        rfl
      · rw [hlog, hstores, if_neg (by simp [hinfo])]
        rfl
    · obtain ⟨t, hfill⟩ := naiveFillSuper_succeeds hreach hd
      refine ⟨0, t, hfill, ?_⟩
      intro u hu ans'
      rw [if_pos rfl] at hu
      -- the mount keeps what it took, and the unmount releases it
      have hmount : MountOf e image t := Mounted.cases ⟨ans, hfill⟩
      have hsbi : u.sFsInfo = .live (.ofImage image) := (info_actions hu).trans hmount.info
      have hhold := onlyWhen_naiveFillSuper _ _ _ hfill rfl
      obtain ⟨_, _, _, v, -, -, -, -, hkill, -⟩ := naiveKillSb_live ans' hsbi
      refine ⟨⟨v, hkill⟩, fun b => ?_, ?_⟩
      · rw [brelses, List.countP_append]
        have h0 := brelses_of_holding hhold b
        have h1 := brelses_naiveKillSb ans' hsbi b
        rw [brelses] at h0 h1
        rw [h0, h1, Nat.zero_add, obtained, if_pos ⟨hreach.sbInfo, hreach.super⟩,
          if_pos ⟨hreach.magic, hreach.blockBitmap⟩, if_pos hreach.inodeBitmap]
        rfl
      · have h0 := kfrees_of_holding hhold
        have h1 := kfrees_naiveKillSb ans' hsbi
        rw [kfrees] at h0 h1 ⊢
        rw [List.countP_append, h0, h1, if_pos hreach.sbInfo]

/-- A device without the magic number: the mount fails and the unmount that follows
reads the freed `sbi`. -/
theorem wrong_magic_not_released :
    ¬ ReleasesOnce .little zeros (Answers.good ⟨0, 0⟩ 0 0) := by
  rintro ⟨r, t, hfill, hall⟩
  have hensures : Prog.Ensures (Answers.good ⟨0, 0⟩ 0 0) (fun r t => r = 0 ∨ t.sFsInfo = .freed)
      (naiveFillSuper .little) :=
    naiveFillSuper_ensures (fun _ _ _ => .inr rfl) (fun _ _ => .inl rfl) rfl
  rcases naiveFillSuper_cases hfill with ⟨hreach, -⟩ | ⟨-, hneg, -⟩
  · have hmagic := hreach.magic
    revert hmagic
    decide
  · have hr : r ≠ 0 := by omega
    obtain ⟨⟨v, hkill⟩, -⟩ := hall t (by rw [if_neg hr]) (Answers.good ⟨0, 0⟩ 0 0)
    rw [naiveKillSb_freed ((hensures _ _ _ hfill).resolve_left hr)] at hkill
    cases hkill

end NaiveFS.V8
