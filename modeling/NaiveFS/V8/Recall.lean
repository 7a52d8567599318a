import NaiveFS.V8.Stored

/-!
# What is written is read back (`naivefs-8`)

From the log of a run follows which bytes of which file are known: those that were written and
neither written over nor truncated off since. `naive_file_read` returns them, whatever happened to
other files in between and whatever failed.
-/

namespace NaiveFS.V8

open Bytes BlockLoop Recall

variable {e : Endian} {sbi : SbInfo} {nii : NaiveInodeInfo} {m m' : Bytes} {id id' : Nat}
  {s t u : FS} {base : Nat → Prop} {ans : Answers} {r : Int}

/-! ## What a log tells -/

/-- What is known of a file: bytes, and the size it was truncated to if that was not written back
since. -/
structure Known where
  bytes : Recall Byte
  limit : Option Nat

/-- What is known of the files after a call that was logged. A truncation cuts bytes off once it
is written back. -/
def remember (f : Nat → Known) : Action × Int → Nat → Known
  | (.write id data pos, r) =>
      Function.update f id { f id with
        bytes := if 0 ≤ r then (f id).bytes.write pos (data.take r.toNat)
          else (f id).bytes.forget pos data.length }
  | (.setattr id size, r) =>
      if r = 0 then Function.update f id { f id with limit := some size } else f
  | (.writeInode id, r) =>
      if r = 0 then Function.update f id ⟨(f id).limit.elim (f id).bytes (f id).bytes.cut, none⟩
      else f
  | _ => f

/-- What is known of the files after the calls of the log. -/
def known (log : List (Action × Int)) : Nat → Known := log.foldl remember fun _ => ⟨blank, none⟩

/-- Byte `q` of inode `id`, as the log tells. -/
def recalled (log : List (Action × Int)) (id q : Nat) : Option Byte := (known log id).bytes q

theorem known_concat {log : List (Action × Int)} {l : Action × Int} :
    known (log ++ [l]) = remember (known log) l := List.foldl_concat ..

/-! ## Sizes -/

/-- The VFS size is the one in the record, or at least the one of a truncation that is still to
be written back. -/
def SizeFits (limit : Option Nat) (v : Int) (size : Nat) : Prop :=
  0 ≤ v ∧ v < 2 ^ 32 ∧ (v = size ∨ ∃ n, limit = some n ∧ (n : Nat) ≤ v)

theorem SizeFits.effect {limit : Option Nat} {v v' : Int} {recs : Records}
    (hlaid : Laid e sbi recs) (hdata : HeldInData e sbi recs m) (hid : recs id = some nii)
    (h : SizeFits limit v (nii.size m)) (heff : Effect e sbi nii (m, v) (m', v')) :
    SizeFits limit v' (nii.size m') := by
  obtain ⟨hpos, hlt, hsame | hlimit⟩ := h
  · have hsame' := (heff.sizes hlaid hid hdata).2.1 hsame
    have hlt' : nii.size m' < 2 ^ 32 := getLE32_lt ..
    exact ⟨by omega, by omega, .inl hsame'⟩
  · cases heff with
    | attach => exact ⟨hpos, hlt, .inr hlimit⟩
    | detach => exact ⟨hpos, hlt, .inr hlimit⟩
    | data => exact ⟨hpos, hlt, .inr hlimit⟩
    | size w hw =>
      refine ⟨by omega, by omega, .inl ?_⟩
      rw [NaiveInodeInfo.size, getLE32_putLE32, Nat.mod_eq_of_lt hw]

/-! ## What is known holds -/

/-- What is known of a file in memory holds. -/
structure FileKnown (k : Known) (s : FS) (id : Nat) (nii : NaiveInodeInfo) : Prop where
  held : k.bytes.HeldBy (nii.byte s.mem)
  size : ∃ v, s.vfsSize id = some v ∧ SizeFits k.limit v (nii.size s.mem)

theorem vfsSize_eq {nd : Inode} (hnd : s.inodes id = some nd) : s.vfsSize id = some nd.iSize := by
  rw [FS.vfsSize, hnd, Option.map_some]

theorem FileKnown.fits {k : Known} {nd : Inode} (h : FileKnown k s id nii)
    (hnd : s.inodes id = some nd) : SizeFits k.limit nd.iSize (nii.size s.mem) := by
  obtain ⟨v, hv, hfits⟩ := h.size
  obtain rfl := Option.some.inj ((vfsSize_eq hnd).symm.trans hv)
  exact hfits

/-- What is known of the files holds; of the inodes to come nothing is known. -/
structure Recalls (f : Nat → Known) (s : FS) : Prop where
  file : ∀ id nii, s.records id = some nii → FileKnown (f id) s id nii
  fresh : ∀ id, s.nextInode ≤ id → f id = ⟨blank, none⟩

theorem FileKnown.same {k : Known} (h : FileKnown k s id nii)
    (hbyte : ∀ q a, nii.byte s.mem q = some a → nii.byte t.mem q = some a)
    (hsize : nii.size t.mem = nii.size s.mem) (hvfs : t.vfsSize id = s.vfsSize id) :
    FileKnown k t id nii :=
  ⟨h.held.mono hbyte, by rw [hsize, hvfs]; exact h.size⟩

theorem FileKnown.blocks {k : Known} {recs : Records} (h : FileKnown k s id nii)
    (hsame : SameBlocks e sbi recs s.mem t.mem) (hdata : HeldInData e sbi recs s.mem)
    (hid : recs id = some nii) (hvfs : t.vfsSize id = s.vfsSize id) : FileKnown k t id nii := by
  have hsize := hsame.size hid
  exact h.same (fun q a => hsame.contents.byte hdata hid fun hq => by rwa [hsize]) hsize hvfs

/-- Calls that leave memory and sizes alone. -/
theorem Recalls.quiet {f : Nat → Known} (h : Recalls f s) (hq : Quiet s t)
    (hnext : t.nextInode = s.nextInode) : Recalls f t := by
  refine ⟨fun id nii hid => ?_, fun id hid => h.fresh id (hnext ▸ hid)⟩
  rw [hq.records] at hid
  refine (h.file id nii hid).same (fun q a ha => ?_) ?_ (by rw [hq.sizes])
  · rwa [hq.mem]
  · rw [hq.mem]

theorem iSize_initOwner {nd : Inode} {dir : Option Inode} {uid gid mode : Nat} :
    (nd.initOwner dir uid gid mode).iSize = nd.iSize := by
  unfold Inode.initOwner
  split
  · split <;> rfl
  · rfl

/-- Inode `id` is empty if it is in memory. -/
def EmptyAt (id : Nat) (s : FS) : Prop := ∀ nd, s.inodes id = some nd → nd.iSize = 0

theorem frame_emptyAt : Frame (EmptyAt id) := ⟨fun _ _ h => h, fun _ _ _ h => h, fun _ _ h => h⟩

section Empty

theorem EmptyAt.setInode {nd : Inode} (h : EmptyAt id s) (hnd : id' = id → nd.iSize = 0) :
    EmptyAt id (s.setInode id' nd) := by
  intro x hx
  by_cases hid : id = id'
  · rw [hid, FS.inodes_setInode_self] at hx
    obtain rfl := Option.some.inj hx
    exact hnd hid.symm
  · rw [FS.inodes_setInode_ne hid] at hx
    exact h x hx

theorem emptyAt_updInode {f : Inode → Inode} (hf : ∀ nd, (f nd).iSize = nd.iSize) :
    Prog.Keeps ans (EmptyAt id) (updInode id' f) :=
  keeps_updInode fun _ nd h hnd => h.setInode fun hid => (hf nd).trans (h nd (hid ▸ hnd))

theorem emptyAt_iput : Prog.Keeps ans (EmptyAt id) (iput id') := by
  intro s a t hs h nd hnd
  obtain ⟨b, rfl⟩ := exec_iput_ok h
  have hnd : (s.dropInode id').inodes id = some nd := hnd
  by_cases hid : id = id'
  · rw [hid, FS.inodes_dropInode_self] at hnd
    cases hnd
  · rw [FS.inodes_dropInode_ne hid] at hnd
    exact hs nd hnd

theorem emptyAt_newInode : Prog.Keeps ans (EmptyAt id) newInode :=
  .bind (.ask _) fun _ => .ite (.bind (.read _) fun _ =>
    .bind (.modify fun _ h => h.setInode fun _ => rfl) fun _ => .pure _) (.pure _)

theorem emptyAt_initOwner {dir : Option Inode} {mode : Nat} :
    Prog.Keeps ans (EmptyAt id) (inodeInitOwner id' dir mode) :=
  .bind (.ask _) fun _ => .bind (.ask _) fun _ => emptyAt_updInode fun _ => iSize_initOwner

/-- `naive_create` makes no inode that has a size. -/
theorem emptyAt_create {dir mode : Nat} {name : Name} :
    Prog.Keeps ans (EmptyAt id) (naiveCreate e dir name mode) := by
  have hI : Frame (EmptyAt id) := frame_emptyAt
  have hdisk : ∀ sbi ino y ts b,
      Prog.Keeps ans (EmptyAt id) (createOnDisk e sbi dir name mode ino y ts b) :=
    fun sbi ino y ts b => .bind hI.sbBread fun _ => .ite
      (.bind emptyAt_iput fun _ => .bind hI.tryMem fun _ => .pure _)
      (.bind keeps_inode fun _ => .bind hI.updMem fun _ =>
        .bind (emptyAt_updInode fun _ => rfl) fun _ => .bind (.ask _) fun _ => .ite
          (.bind hI.brelse fun _ => .bind emptyAt_iput fun _ => .bind hI.tryMem fun _ => .pure _)
          (.bind (emptyAt_updInode fun _ => rfl) fun _ => .bind (.modify fun _ h => h) fun _ =>
            .bind hI.markBufferDirty fun _ => .bind hI.markBufferDirty fun _ => .pure _))
  refine .bind keeps_naiveSb fun sbi => .bind hI.takeClear fun ino => .ite (.pure _)
    (.bind emptyAt_newInode fun q => ?_)
  cases q with
  | none => exact .bind hI.tryMem fun _ => .pure _
  | some y =>
    exact .bind (emptyAt_updInode fun _ => rfl) fun _ => .bind keeps_inode fun _ =>
      .bind emptyAt_initOwner fun _ => .bind (.ask _) fun _ =>
        .bind (emptyAt_updInode fun _ => rfl) fun _ =>
          .bind (emptyAt_updInode fun _ => rfl) fun _ => hdisk _ _ _ _ _

/-- Nor does `naive_fill_super`. -/
theorem emptyAt_fillSuper : Prog.Keeps ans (EmptyAt id) (naiveFillSuper e) := by
  have hI : Frame (EmptyAt id) := frame_emptyAt
  have hsbi : ∀ g : SbInfo → SbInfo, Prog.Keeps ans (EmptyAt id) (updSbi g) := fun g =>
    .bind keeps_naiveSb fun _ => .modify fun _ h => h
  have hsbiOut : ∀ r, Prog.Keeps ans (EmptyAt id) (outFreeSbi r) := fun r =>
    .bind (.modify fun _ h => h) fun _ => .pure _
  have hsb : ∀ r, Prog.Keeps ans (EmptyAt id) (outBrelseSb r) := fun r =>
    .bind keeps_naiveSb fun _ => .bind hI.brelse fun _ => hsbiOut r
  have hblock : ∀ r, Prog.Keeps ans (EmptyAt id) (outBrelseBlockBitmap r) := fun r =>
    .bind keeps_naiveSb fun _ => .bind hI.brelse fun _ => hsb r
  have hinode : ∀ r, Prog.Keeps ans (EmptyAt id) (outBrelseInodeBitmap r) := fun r =>
    .bind keeps_naiveSb fun _ => .bind hI.brelse fun _ => hblock r
  have hdisk : ∀ y ts b, Prog.Keeps ans (EmptyAt id) (fillSuperOnDisk e y ts b) := fun y ts b =>
    .bind hI.sbBread fun _ => .ite (.bind emptyAt_iput fun _ => hinode _)
      (.bind (.ask _) fun _ => .ite
        (.bind hI.brelse fun _ => .bind emptyAt_iput fun _ => hinode _)
        (.bind (emptyAt_updInode fun _ => rfl) fun _ => .bind keeps_inode fun _ =>
          .bind hI.updMem fun _ => .bind hI.markBufferDirty fun _ => .bind (.ask _) fun _ => .ite
            (.bind (.modify fun _ h => h) fun _ => .pure _)
            (.bind emptyAt_iput fun _ => .bind hI.brelse fun _ => .bind emptyAt_iput fun _ =>
              hinode _)))
  have hroot : ∀ y, Prog.Keeps ans (EmptyAt id) (fillSuperRoot e y) := fun y =>
    .bind (emptyAt_updInode fun _ => rfl) fun _ => .bind emptyAt_initOwner fun _ =>
      .bind (.ask _) fun _ => .bind (emptyAt_updInode fun _ => rfl) fun _ =>
        .bind (emptyAt_updInode fun _ => rfl) fun _ => .bind keeps_naiveSb fun _ => hdisk _ _ _
  have hinfo : Prog.Keeps ans (EmptyAt id) (fillSuperInfo e) := by
    refine .bind (.read _) fun _ => .bind (hsbi _) fun _ => .bind keeps_naiveSb fun _ =>
      .bind hI.tryMem fun _ => .bind hI.markBufferDirty fun _ => .bind emptyAt_newInode fun q => ?_
    cases q with
    | none => exact hinode _
    | some y => exact hroot y
  exact .bind (.ask _) fun _ => .ite (.pure _) (.bind (.modify fun _ h => h) fun _ =>
    .bind hI.sbBread fun _ => .ite (hsbiOut _) (.bind (hsbi _) fun _ => .bind (.read _) fun _ =>
      .ite (hsb _) (.bind hI.sbBread fun _ => .ite (hsb _) (.bind (hsbi _) fun _ =>
        .bind hI.sbBread fun _ => .ite (hblock _) (.bind (hsbi _) fun _ => hinfo)))))

end Empty

theorem Orderly.size_created {dir n : Nat} {name : Name} (h : Orderly e sbi base s)
    (hc : Created e sbi s t dir name n) : (sbi.record e n).size t.mem = 0 := by
  obtain ⟨nd, ts, hmem⟩ := hc.mem
  rw [hmem, h.order.tableBlock hc.total]
  exact size_initDiskInode

section Steps

variable {f : Nat → Known} (h : Orderly e sbi base s) (hf : Recalls f s)

include h hf

/-- What is known of one file changes, and no inode is made or removed. -/
theorem Recalls.update {k : Known} (hst : Standing s t) (hlive : s.inodes id ≠ none)
    (hself : ∀ nii, s.records id = some nii → FileKnown k t id nii)
    (hothers : ∀ x nx, s.records x = some nx → x ≠ id → FileKnown (f x) t x nx) :
    Recalls (Function.update f id k) t := by
  refine ⟨fun x nx hx => ?_, fun x hx => ?_⟩
  · rw [hst.records] at hx
    by_cases hxid : x = id
    · subst hxid
      rw [Function.update_self]
      exact hself nx hx
    · rw [Function.update_of_ne hxid]
      exact hothers x nx hx hxid
  · rw [hst.next] at hx
    have hxid : x ≠ id := by
      rintro rfl
      exact hlive (identities_eq_none.mp (h.fresh x hx))
    rw [Function.update_of_ne hxid]
    exact hf.fresh x hx

theorem Recalls.write {data : List Byte} {pos : Nat} (hfits : pos + data.length < 2 ^ 64)
    (hstep : Acts e s (.write id data pos) ans r t) :
    Recalls (remember f (.write id data pos, r)) t := by
  have hlaid := h.laid
  obtain ⟨nii, hid, hw⟩ := write_cases hlaid.first h.info hstep
  obtain ⟨nd, size, mt, ct, hnd, hnd', heff⟩ := hw.self
  refine hf.update h (hstep.standing (by simp)) (by simp [hnd]) (fun nx hx => ?_)
    fun x nx hx hxid => ?_
  · obtain rfl := Option.some.inj (hid.symm.trans hx)
    have hfile := hf.file id nii hid
    have hsize := (heff.keeps (P := fun a => HeldInData e sbi s.records a.1 ∧
        SizeFits (f id).limit a.2 (nii.size a.1))
      (fun a b hab ha => ⟨(hab.sizes hlaid hid ha.1).1, ha.2.effect hlaid ha.1 hid hab⟩)
      ⟨h.accounts.heldInData, hfile.fits hnd⟩).2
    exact ⟨hfile.held.wrote (h.wrote hfits hid hstep), size, vfsSize_eq hnd', hsize⟩
  · have hsize := (heff.keeps (P := fun a => HeldInData e sbi s.records a.1 ∧
        nx.size a.1 = nx.size s.mem)
      (fun a b hab ha => by
        obtain ⟨h1, -, h3⟩ := hab.sizes hlaid hid ha.1
        exact ⟨h1, (h3 x nx hx hxid).trans ha.2⟩)
      ⟨h.accounts.heldInData, rfl⟩).2
    refine (hf.file x nx hx).same (fun q a => h.write_other hstep hx hxid) hsize ?_
    rw [FS.vfsSize, hw.others x hxid, FS.vfsSize]

theorem Recalls.setattr {size : Nat} (hstep : Acts e s (.setattr id size) ans r t) :
    Recalls (remember f (.setattr id size, r)) t := by
  have hst := hstep.standing (by simp)
  obtain ⟨hr, hq⟩ | ⟨rfl, hmax, hmem, -, -, hsizes⟩ := setattr_cases hstep
  · simp only [remember, if_neg hr]
    exact hf.quiet hq hst.next
  have hself : t.vfsSize id = some (size : Int) := by rw [hsizes, Function.update_self]
  have hlive : s.inodes id ≠ none := by
    intro hnone
    rw [← identities_eq_none, ← hst.identities, identities_eq_none] at hnone
    rw [FS.vfsSize, hnone] at hself
    cases hself
  refine hf.update h hst hlive (fun nx hx => ?_) fun x nx hx hxid => ?_
  · unfold sMaxbytes at hmax
    exact ⟨hmem ▸ (hf.file id nx hx).held, size, hself, by omega, by omega,
      .inr ⟨size, rfl, Int.le_refl _⟩⟩
  · exact (hf.file x nx hx).same (fun q a ha => by rwa [hmem]) (by rw [hmem])
      (by rw [hsizes, Function.update_of_ne hxid])

/-- A write-back makes the VFS size the file's. -/
theorem Recalls.writeInode (hstep : Acts e s (.writeInode id) ans r t) :
    Recalls (remember f (.writeInode id, r)) t := by
  have hsame := (h.writeInode hstep).2.toSameContents
  obtain ⟨hr, rfl, -⟩ | ⟨nd, nii, rfl, hnd, hnii, hmem, -, hino⟩ := writeInode_cases hstep
  · simp only [remember, if_neg hr]
    exact hf
  have hid : s.records id = some nii := records_eq_some.mpr ⟨nd, hnd, hnii⟩
  refine hf.update h (hstep.standing (by simp)) (by simp [hnd]) (fun nx hx => ?_)
    fun x nx hx hxid => ?_
  · obtain rfl := Option.some.inj (hid.symm.trans hx)
    obtain ⟨hpos, hlt, hfits⟩ := (hf.file id nii hid).fits hnd
    have hsize : (nii.size t.mem : Int) = nd.iSize := by
      rw [hmem, writeDiskInode_size]
      unfold toU32
      omega
    refine ⟨fun q a ha => ?_, nd.iSize, vfsSize_eq (hino ▸ hnd), hpos, hlt, .inl hsize.symm⟩
    obtain ⟨hbyte, hlimit⟩ := elim_cut_eq_some.mp ha
    refine hsame.byte h.accounts.heldInData hid (fun hq => ?_) ((hf.file id nii hid).held q a hbyte)
    obtain hv | ⟨n, hn, hle⟩ := hfits
    · omega
    · have := hlimit n hn
      omega
  · have hsize : nx.size t.mem = nx.size s.mem := by
      apply SameBytes.size
      intro a ha ha'
      have := record_apart h.laid hid hx hxid (show 48 ≤ naiveBlockSize by decide) ha ha'
      unfold naiveBlockSize at this
      rw [hmem, writeDiskInode_out (by omega)]
    exact (hf.file x nx hx).same
      (fun q a => hsame.byte h.accounts.heldInData hx fun hq => by rwa [hsize]) hsize
      (by rw [FS.vfsSize, FS.vfsSize, hino])

/-- Nothing is known of a new file, and it is empty. -/
theorem Recalls.create {dir perm : Nat} {name : Name}
    (hreg : (Action.op (.create dir name perm)).Regular e s)
    (hstep : Acts e s (.op (.create dir name perm)) ans r t) : Recalls f t := by
  have hold : ∀ x nx, s.records x = some nx → SameBlocks e sbi s.records s.mem t.mem →
      t.inodes x = s.inodes x → FileKnown (f x) t x nx := by
    intro x nx hx hsame hino
    refine (hf.file x nx hx).blocks hsame h.accounts.heldInData hx ?_
    rw [FS.vfsSize, FS.vfsSize, hino]
  obtain ⟨-, hsame, ⟨hinodes, hnext⟩ | ⟨n, hc⟩⟩ := h.create hreg hstep
  · refine ⟨fun x nx hx => hold x nx ?_ hsame (by rw [hinodes]),
      fun x hx => hf.fresh x (hnext.trans hx)⟩
    rwa [FS.records, hinodes] at hx
  · obtain ⟨nd, hinodes, -, -, hnii⟩ := hc.inodes
    have hself : t.inodes s.nextInode = some nd := by rw [hinodes, Function.update_self]
    refine ⟨fun x nx hx => ?_, fun x hx => hf.fresh x ?_⟩
    · rw [h.records_created hc] at hx
      by_cases hxid : x = s.nextInode
      · rw [hxid, Function.update_self] at hx
        obtain rfl := Option.some.inj hx
        have hnone : EmptyAt s.nextInode s := by
          intro x hx
          rw [identities_eq_none.mp (h.fresh _ (Nat.le_refl _))] at hx
          cases hx
        have hvfs : nd.iSize = 0 := emptyAt_create _ _ _ hnone hstep nd hself
        have hsize : (sbi.record e n).size t.mem = 0 := h.size_created hc
        rw [hxid, hf.fresh _ (Nat.le_refl _)]
        refine ⟨heldBy_blank, 0, by rw [vfsSize_eq hself, hvfs], ?_⟩
        rw [hsize]
        exact ⟨Int.le_refl 0, by decide, .inl rfl⟩
      · rw [Function.update_of_ne hxid] at hx
        exact hold x nx hx hsame (by rw [hinodes, Function.update_of_ne hxid])
    · rw [hc.next] at hx
      omega

theorem Recalls.unlink {dir : Nat} {name : Name} (hreg : (Action.op (.unlink dir name)).Regular e s)
    (hstep : Acts e s (.op (.unlink dir name)) ans r t) : Recalls f t := by
  obtain ⟨-, rfl | ⟨hnext, id, hrecs, hsame, hothers⟩⟩ := h.unlink hreg hstep
  · exact hf
  refine ⟨fun x nx hx => ?_, fun x hx => hf.fresh x (hnext ▸ hx)⟩
  have hx' := hx
  rw [hrecs] at hx'
  obtain ⟨hxid, hx'⟩ := recordsBut_some hx'
  refine (hf.file x nx hx').blocks hsame (fun y ny j hy => ?_) hx ?_
  · rw [hrecs] at hy
    exact h.accounts.heldInData _ _ _ (recordsBut_some hy).2
  · obtain hino | ⟨d, ts, hd, hdt⟩ := hothers x hxid
    · rw [FS.vfsSize, FS.vfsSize, hino]
    · rw [FS.vfsSize, FS.vfsSize, hd, hdt]
      rfl

/-- A call, whatever fails in it. -/
theorem Recalls.step {act : Action} (hreg : act.Regular e s) (hstep : Acts e s act ans r t) :
    Recalls (remember f (act, r)) t := by
  cases act with
  | op o =>
    cases o with
    | create dir name perm => exact hf.create h hreg hstep
    | unlink dir name => exact hf.unlink h hreg hstep
  | write id data pos => exact hf.write h hreg hstep
  | read id len pos => exact hf.quiet (read_cases hstep) (hstep.standing (by simp)).next
  | setattr id size => exact hf.setattr h hstep
  | writeInode id => exact hf.writeInode h hstep
  | freeBlocks id => exact hreg.elim

end Steps

/-! ## Runs -/

/-- After the mount nothing is known. -/
theorem MountOf.recalls {image : Bytes} (h : MountOf e image s)
    (horder : (SbInfo.ofImage image).InOrder e) (hm : Mounted e image s) :
    Recalls (known []) s := by
  refine ⟨fun id nii hid => ?_, fun _ _ => rfl⟩
  obtain ⟨rfl, rfl⟩ := (h.records_iff horder).mp hid
  obtain ⟨nd, hnd, -⟩ := records_eq_some.mp hid
  obtain ⟨ans, hfill⟩ := hm
  have hvfs : nd.iSize = 0 := emptyAt_fillSuper _ _ _ (fun _ hx => by cases hx) hfill nd hnd
  have hsize : ((SbInfo.ofImage image).record e 0).size s.mem = 0 := by
    obtain ⟨d, ts, hmem⟩ := h.mem_root horder
    rw [hmem]
    exact size_initDiskInode
  refine ⟨heldBy_blank, 0, by rw [vfsSize_eq hnd, hvfs], ?_⟩
  rw [hsize]
  exact ⟨Int.le_refl 0, by decide, .inl rfl⟩

theorem Recalls.run {log : List (Action × Int)} (h : Orderly e sbi base s)
    (hs : Recalls (known []) s) (hrun : Steps (Calls e) s log t) : Recalls (known log) t := by
  induction hrun with
  | nil => exact hs
  | snoc hbefore hlast ih =>
    obtain ⟨hreg, ans, hstep⟩ := hlast
    rw [known_concat]
    exact ih.step (h.run hbefore) hreg hstep

/-- A read of known bytes. -/
theorem FileKnown.reads {k : Known} {len pos pos' : Nat} {out : List Byte}
    (h : FileKnown k t id nii) (hopen : OpenFile e sbi t id nii) (hfits : pos + len < 2 ^ 64)
    (hread : (naiveFileRead e id len pos).exec ans t = .ok ((r, pos', out), u)) :
    (0 ≤ r → (out.length : Int) = r ∧ ∀ j b, j < out.length → k.bytes (pos + j) = some b →
      out[j]? = some b) ∧
    (ans.NoFailure → (∀ j, j < len → k.bytes (pos + j) ≠ none) → r = len) := by
  obtain ⟨r', pos'', out', u', hexec, -, -, hends, hout⟩ := exec_naiveFileRead hopen hfits ans
  cases hexec.symm.trans hread
  refine ⟨fun hr => ?_, fun hans hknown => ?_⟩
  · obtain ⟨n, rfl⟩ := Int.eq_ofNat_of_zero_le hr
    obtain rfl := hout n rfl
    refine ⟨by rw [length_slice], fun j b hj hb => ?_⟩
    have hbyte := h.held _ _ hb
    rw [← byte_view hopen.held] at hbyte
    obtain ⟨-, -, hcontent⟩ := byte_eq_some.mp hbyte
    rw [List.getElem?_eq_getElem hj, getElem_slice, hcontent]
  · have hheld : ∀ q, pos ≤ q → q < pos + len →
        q < nii.size t.mem ∧ nii.slots t.mem (q / naiveBlockSize) ≠ 0 := by
      intro q hq hq'
      obtain ⟨b, hb⟩ := Option.ne_none_iff_exists'.mp (hknown (q - pos) (by omega))
      rw [Nat.add_sub_cancel' hq] at hb
      exact byte_bound (h.held _ _ hb)
    have hsize : min len (nii.size t.mem - pos) = len := by
      by_cases h0 : len = 0
      · omega
      · have := (hheld (pos + (len - 1)) (by omega) (by omega)).1
        omega
    rw [hsize] at hends
    obtain ⟨n, hn, hr, -, hall⟩ := hends.counted_of fun i hfail => hfail.2 (hans.toUser i)
    have hnlen : n = len := by
      rw [hall]
      intro i hi
      obtain ⟨q, hq, hq', rfl⟩ := (visits_iff (by decide)).mp hi
      exact ⟨⟨(hheld q hq hq').2, hans.bread _ _⟩, hans.toUser _⟩
    omega

/-- From a mount on, whatever is called and whatever fails: a read that returns a count has given
its user the bytes that were last written there and not truncated off since; a read of such bytes
in which nothing fails returns all of them. -/
theorem reads_recall {image : Bytes} {log : List (Action × Int)} {len pos pos' : Nat}
    {out : List Byte} (hm : Mounted e image s) (horder : (SbInfo.ofImage image).InOrder e)
    (hrun : Steps (Calls e) s log t) (hfits : pos + len < 2 ^ 64)
    (hread : (naiveFileRead e id len pos).exec ans t = .ok ((r, pos', out), u)) :
    (0 ≤ r → (out.length : Int) = r ∧ ∀ j b, j < out.length →
      recalled log id (pos + j) = some b → out[j]? = some b) ∧
    (ans.NoFailure → (∀ j, j < len → recalled log id (pos + j) ≠ none) → r = len) := by
  have h := hm.cases.orderly horder
  have hf := Recalls.run h (hm.cases.recalls horder hm) hrun
  obtain ⟨nii, v, hnii, -⟩ := Prog.exec_bind_ok.mp hread
  have hid : t.records id = some nii := (exec_naiveI_ok hnii).1
  exact (hf.file id nii hid).reads ((h.run hrun).openFile hid) hfits hread

/-- Three bytes are written across a block's end, the last is truncated off; another file's block
is written and given back on the way. -/
theorem reads_recall_sample : ∃ s log t r pos' out u, Mounted .little rootedImage s ∧
    Steps (Calls .little) s log t ∧ log.length = 7 ∧ recalled log 2 512 = none ∧
    (naiveFileRead .little 2 2 510).exec (Answers.good ⟨11, 0⟩ 0 0) t = .ok ((r, pos', out), u) ∧
    r = (2 : Nat) ∧ out[0]? = some 5 ∧ out[1]? = some 6 := by
  have h : succeeds (naiveFillSuper .little) (.good ⟨4, 0⟩ 0 0) { mem := rootedImage }
      (callsTo (fun log t => log.length == 7 && recalled log 2 512 == none &&
        recalled log 2 510 == some 5 && recalled log 2 511 == some 6 &&
        ((naiveFileRead .little 2 2 510).exec (Answers.good ⟨11, 0⟩ 0 0) t).isOk) [
          (.op (.create 0 aName 0o644), .good ⟨5, 0⟩ 0 0),
          (.write 1 [8, 9] 511, .good ⟨6, 0⟩ 0 0),
          (.op (createFile 2 (by decide) (by decide) ⟨5, 0⟩).1, .good ⟨7, 0⟩ 0 0),
          (.write 2 [5, 6, 7] 510, .good ⟨8, 0⟩ 0 0),
          (.setattr 2 512, .good ⟨9, 0⟩ 0 0),
          (.op (.unlink 0 aName), .good ⟨9, 0⟩ 0 0),
          (.writeInode 2, .good ⟨10, 0⟩ 0 0)] []) = true := by
    decide +kernel
  obtain ⟨s, hm, hcalls⟩ := exists_of_succeeds h
  have hmount : Mounted .little rootedImage s := ⟨_, hm⟩
  obtain ⟨log, t, hrun, hcheck⟩ :=
    exists_of_callsTo (hmount.cases.orderly rootedImage_inOrder) .nil hcalls
  simp only [Bool.and_eq_true, beq_iff_eq] at hcheck
  obtain ⟨⟨⟨⟨hlen, hcut⟩, hfive⟩, hsix⟩, hok⟩ := hcheck
  cases hread : (naiveFileRead .little 2 2 510).exec (Answers.good ⟨11, 0⟩ 0 0) t with
  | error x =>
    rw [hread] at hok
    cases hok
  | ok q =>
    obtain ⟨⟨r, pos', out⟩, u⟩ := q
    obtain ⟨hbytes, hall⟩ :=
      reads_recall hmount rootedImage_inOrder hrun (by decide) hread
    have hr : r = (2 : Nat) := hall ⟨fun _ _ => rfl, fun _ => rfl, fun _ => rfl⟩ fun j hj => by
      obtain rfl | rfl : j = 0 ∨ j = 1 := by omega
      · simp [hfive]
      · simp [hsix]
    obtain ⟨hcount, hout⟩ := hbytes (by omega)
    exact ⟨s, log, t, r, pos', out, u, hmount, hrun, hlen, hcut, hread, hr,
      hout 0 5 (by omega) hfive, hout 1 6 (by omega) hsix⟩

end NaiveFS.V8
