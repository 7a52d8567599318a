import NaiveFS.Alike

/-!
# Lookups, reads and writes over different bytes

From states that are alike outside `H`, a lookup runs alike when the directory's blocks and the
table block it loads from are outside `H`, and a read when the bytes before the end of the file
are. A write always does; it takes the bytes it stores out of `H`.
-/

namespace NaiveFS

open Bytes Prog

section Files

variable {H : Nat → Nat → Prop} {ans : Answers} {s s' t t' : FS} {id dir pos : Nat}
  {nd : Inode} {name : Name}

/-! ## Lookups -/

theorem FS.Alike.findHashed (h : s.Alike H s') (ino : Nat) :
    s'.findHashed ino = s.findHashed ino := by
  rw [h.rest]
  rfl

/-- An inode is loaded from a table block that is the same in both. -/
theorem twin_naiveIget {ino : Nat} (h : s.Alike H s') (htable : s.findHashed ino = none →
      ∀ o, ¬ H (toU64 (inodeTableBlock (s.block naiveSuperBlockBlock) ino)) o) :
    Twin ans (naiveIget ino) s (naiveIget ino) s' (Same H) := by
  rw [naiveIget]
  refine .bind_ok (exec_ask _) (exec_ask _) ?_
  split
  · exact Twin.pure ⟨rfl, h⟩
  refine .bind_ok (exec_read _) (exec_read _) ?_
  rw [h.findHashed]
  cases hfind : s.findHashed ino with
  | some id => exact Twin.pure ⟨rfl, h⟩
  | none =>
  refine .bind_ok (exec_read _) (exec_read _) (.bind_ok (exec_modify _) (exec_modify _) ?_)
  refine .bind_ok exec_diskSb exec_diskSb ?_
  rw [h.nextInode]
  have hnew := h.map (f := fun u => { u.setInode s.nextInode
    { iIno := ino, iNlink := 1, iHashed := true } with nextInode := s.nextInode + 1 })
    fun _ _ _ => rfl
  rw [hnew.superBlock]
  generalize hb : inodeTableBlock (FS.block _ _) ino = b
  have hb' : inodeTableBlock (s.block naiveSuperBlockBlock) ino = b := hb
  rw [hb'] at htable
  cases hread : ans (.sbBread .iget 0 b) with
  | false =>
      refine .bind_ok (exec_sbBread_fail hread) (exec_sbBread_fail hread) ?_
      exact ((blind_iput s.nextInode).bind fun _ => .pure _).twin hnew
  | true =>
      refine .bind_ok (exec_sbBread_ok hread) (exec_sbBread_ok hread) ?_
      simp only [Bool.not_true, Bool.false_eq_true, if_false]
      refine .bind_ok exec_bData exec_bData ?_
      rw [(hnew.addRef b 1).block (htable hfind)]
      refine Blind.twin ?_ (hnew.addRef b 1)
      refine (blind_inode _).bind fun nd => (Blind.lift _).bind fun nd' => ?_
      exact (Blind.modify fun _ _ _ => rfl).bind fun _ => (blind_brelse b).bind fun _ => .pure _

theorem twin_naiveLookup (h : s.Alike H s') (hclear : ∀ d, s.inodes dir = some d → d.ClearOf H)
    (htable : ∀ d i j, s.inodes dir = some d → d.Slot i → j < 3 →
      isNamed name (s.slotBlock d i) j = true →
      s.findHashed (DirRecord.iIno (s.slotBlock d i) j) = none → ∀ o,
        ¬ H (toU64 (inodeTableBlock (s.block naiveSuperBlockBlock)
          (DirRecord.iIno (s.slotBlock d i) j))) o) :
    Twin ans (naiveLookup dir name) s (naiveLookup dir name) s' (Same H) := by
  rw [naiveLookup]
  refine twin_inode h fun d hd => twin_bind_blind ?_ fun found => ?_
  · refine twin_scanRecords h (hclear d hd) fun i j hi hj hname => twin_bind_blind ?_ fun r =>
      (blind_brelse _).bind fun _ => .pure _
    exact twin_naiveIget (h.addRef _ 1) (htable d i j hd hi hj hname)
  · split
    · exact (blind_dInstantiate dir name _).bind fun _ => .pure _
    · exact .pure _

/-! ## Reads -/

/-- The bytes of the file before its end have no place in `H`. -/
def Inode.ShowsNone (H : Nat → Nat → Prop) (nd : Inode) : Prop :=
  ∀ i, nd.Slot i → ∀ o : Nat, ((naiveBlockSize * i + o : Nat) : Int) < nd.iSize →
    ¬ H (toU64 (nd.blockPointers i)) o

theorem twin_fileReadLoop (h : s.Alike H s') (hnd : s.inodes id = some nd)
    (hshows : nd.ShowsNone H) {fuel remaining : Nat} {out : List Byte}
    (hend : ((pos + remaining : Nat) : Int) ≤ nd.iSize) :
    Twin ans (fileReadLoop id fuel pos remaining out) s (fileReadLoop id fuel pos remaining out) s'
      fun q t q' t' => q' = q ∧ t = s ∧ t' = s' := by
  have hnd' : s'.inodes id = some nd := by rw [h.inodes, hnd]
  induction fuel generalizing pos remaining out with
  | zero => exact Twin.pure ⟨rfl, rfl, rfl⟩
  | succ fuel ih =>
      rw [fileReadLoop]
      by_cases hrem : remaining = 0
      · rw [if_pos hrem]
        exact Twin.pure ⟨rfl, rfl, rfl⟩
      rw [if_neg hrem]
      refine .bind_ok (exec_inode hnd) (exec_inode hnd') ?_
      dsimp only
      by_cases hindex : toInt32 (pos / naiveBlockSize : Nat) ≥ nd.blockCount
      · rw [if_pos hindex]
        exact Twin.pure ⟨rfl, rfl, rfl⟩
      rw [if_neg hindex, pointer]
      by_cases hbound : toInt32 (pos / naiveBlockSize : Nat) < 0 ∨
          naiveBlockPerFile ≤ toInt32 (pos / naiveBlockSize : Nat)
      · rw [if_pos hbound]
        exact .inl ⟨_, rfl, rfl⟩
      rw [if_neg hbound]
      generalize hk : (toInt32 (pos / naiveBlockSize : Nat)).toNat = k
      refine .bind_ok (exec_pure _) (exec_pure _) ?_
      have hk8 : k < 8 ∧ (k : Int) < nd.blockCount := by
        unfold naiveBlockPerFile at hbound
        omega
      -- the index may have wrapped around, but only downwards
      have hlow : k ≤ pos / naiveBlockSize := by
        unfold toInt32 naiveBlockSize at *
        omega
      by_cases hp : nd.blockPointers k = 0
      · rw [if_pos hp]
        exact Twin.pure ⟨rfl, rfl, rfl⟩
      rw [if_neg hp]
      cases hread : ans (.sbBread .fileRead (pos / naiveBlockSize) (nd.blockPointers k)) with
      | false =>
          refine .bind_ok (exec_sbBread_fail hread) (exec_sbBread_fail hread) ?_
          exact Twin.pure ⟨rfl, rfl, rfl⟩
      | true =>
          refine .bind_ok (exec_sbBread_ok hread) (exec_sbBread_ok hread) ?_
          simp only [Bool.not_true, Bool.false_eq_true, if_false]
          refine .bind_ok exec_bData exec_bData (.bind_ok (exec_ask _) (exec_ask _) ?_)
          refine .bind_ok exec_brelse exec_brelse ?_
          rw [FS.addRef_cancel, FS.addRef_cancel, FS.block_addRef, FS.block_addRef]
          have hslice (n : Nat) (hn : n ≤ min remaining (naiveBlockSize - pos % naiveBlockSize)) :
              (s'.block (nd.blockPointers k)).slice (pos % naiveBlockSize) n
                = (s.block (nd.blockPointers k)).slice (pos % naiveBlockSize) n := by
            refine slice_congr fun i hi => h.bytes _ _ (hshows k ⟨hk8.2, hk8.1, hp⟩ _ ?_)
            unfold naiveBlockSize at *
            omega
          split
          · rw [hslice _ (by omega)]
            exact Twin.pure ⟨rfl, rfl, rfl⟩
          · rw [hslice _ (Nat.le_refl _)]
            exact ih (by omega)

theorem twin_naiveFileRead {len : Nat} (h : s.Alike H s')
    (hshows : ∀ nd, s.inodes id = some nd → nd.ShowsNone H) :
    Twin ans (naiveFileRead id len pos) s (naiveFileRead id len pos) s'
      fun q t q' t' => q' = q ∧ t = s ∧ t' = s' := by
  rw [naiveFileRead]
  refine twin_inode h fun nd hnd => ?_
  by_cases hpast : (pos : Int) ≥ nd.iSize
  · rw [if_pos hpast]
    exact Twin.pure ⟨rfl, rfl, rfl⟩
  rw [if_neg hpast]
  refine twin_fileReadLoop h hnd (hshows nd hnd) ?_
  unfold toU64
  omega

/-! ## Writes -/

/-- The places of `H` that are not in the bytes of the file from `pos` to `stop`. -/
def Unwritten (H : Nat → Nat → Prop) (nd : Inode) (pos stop b o : Nat) : Prop :=
  H b o ∧ ∀ k, k < 8 → toU64 (nd.blockPointers k) = b →
    ¬ (pos ≤ naiveBlockSize * k + o ∧ naiveBlockSize * k + o < stop)

/-- Nothing was written. -/
theorem FS.Alike.unwritten (h : s.Alike H s') (nd : Inode) (pos : Nat) :
    s.Alike (Unwritten H nd pos pos) s' :=
  h.mono (fun _ _ ho => ⟨ho, fun _ _ _ hk => by omega⟩) fun b o ho => h.within b o ho.1

/-- What is written past a range and not in it. -/
theorem Unwritten.append {p : Int} {off n stop b o : Nat}
    (hwithin : ∀ b o, H b o → b ≠ toU64 naiveSuperBlockBlock ∧ o < naiveBlockSize)
    (hoff : off = pos % naiveBlockSize) (hn : n ≤ naiveBlockSize - off)
    (hp : p = nd.blockPointers (pos / naiveBlockSize))
    (h : Unwritten (fun b o => H b o ∧ ¬ (b = toU64 p ∧ off ≤ o ∧ o < off + n)) nd (pos + n)
      stop b o) : Unwritten H nd pos stop b o := by
  obtain ⟨⟨hH, hout⟩, hrest⟩ := h
  refine ⟨hH, fun k hk hkb hin => ?_⟩
  have ho := (hwithin b o hH).2
  subst hoff hp
  by_cases hlater : pos + n ≤ naiveBlockSize * k + o
  · exact hrest k hk hkb ⟨hlater, hin.2⟩
  · have hslot : k = pos / naiveBlockSize := by
      unfold naiveBlockSize at *
      omega
    subst hslot
    refine hout ⟨hkb.symm, ?_⟩
    unfold naiveBlockSize at *
    omega

theorem twin_fileWriteLoop (h : s.Alike H s') (hnd : s.inodes id = some nd) {fuel : Nat}
    {data : List Byte} {ret : Int} (hmax : pos + data.length ≤ naiveMaxFileSize) :
    Twin ans (fileWriteLoop id fuel pos data ret) s (fileWriteLoop id fuel pos data ret) s'
      fun q t q' t' => Same (Unwritten H nd pos q.2) q t q' t' := by
  induction fuel generalizing H s s' pos data ret with
  | zero => exact Twin.pure ⟨rfl, h.unwritten nd pos⟩
  | succ fuel ih =>
      have hnd' : s'.inodes id = some nd := by rw [h.inodes, hnd]
      rw [fileWriteLoop]
      by_cases hdata : data = []
      · rw [if_pos hdata]
        exact Twin.pure ⟨rfl, h.unwritten nd pos⟩
      rw [if_neg hdata]
      have hlen : 0 < data.length := List.length_pos_iff.mpr hdata
      refine .bind_ok (exec_inode hnd) (exec_inode hnd') ?_
      dsimp only
      have hk : pos / naiveBlockSize < 8 := by
        unfold naiveMaxFileSize naiveBlockPerFile at hmax
        unfold naiveBlockSize at *
        omega
      have hindex : toInt32 (pos / naiveBlockSize : Nat) = (pos / naiveBlockSize : Nat) :=
        toInt32_of_small (by unfold naiveBlockSize; omega) (by unfold naiveBlockSize at *; omega)
      rw [hindex]
      by_cases hcount : ((pos / naiveBlockSize : Nat) : Int) ≥ nd.blockCount
      · rw [if_pos hcount]
        exact Twin.pure ⟨rfl, h.unwritten nd pos⟩
      rw [if_neg hcount, pointer, if_neg (by unfold naiveBlockPerFile naiveBlockSize at *; omega)]
      refine .bind_ok (exec_pure _) (exec_pure _) ?_
      rw [Int.toNat_natCast]
      generalize hp : nd.blockPointers (pos / naiveBlockSize) = p
      cases hread : ans (.sbBread .fileWrite (pos / naiveBlockSize) p) with
      | false =>
          refine .bind_ok (exec_sbBread_fail hread) (exec_sbBread_fail hread) ?_
          exact Twin.pure ⟨rfl, h.unwritten nd pos⟩
      | true =>
          refine .bind_ok (exec_sbBread_ok hread) (exec_sbBread_ok hread) ?_
          simp only [Bool.not_true, Bool.false_eq_true, if_false]
          refine .bind_ok exec_bData exec_bData (.bind_ok (exec_ask _) (exec_ask _) ?_)
          -- the bytes outside the range stored are as they were
          have hblit (xs : List Byte) (o : Nat) (ho : ¬ (H (toU64 p) o ∧
              ¬ (pos % naiveBlockSize ≤ o ∧ o < pos % naiveBlockSize + xs.length))) :
              (s'.block p).blit (pos % naiveBlockSize) xs o
                = (s.block p).blit (pos % naiveBlockSize) xs o := by
            by_cases hin : pos % naiveBlockSize ≤ o ∧ o < pos % naiveBlockSize + xs.length
            · rw [blit_in hin.1 hin.2, blit_in hin.1 hin.2]
            · rw [blit_out (by omega), blit_out (by omega)]
              exact h.bytes _ o fun hH => ho ⟨hH, hin⟩
          split
          · refine .bind_ok (exec_modify _) (exec_modify _) (.bind_ok exec_brelse exec_brelse ?_)
            refine Twin.pure ⟨rfl, FS.Alike.unwritten ?_ nd pos⟩
            refine FS.Alike.addRef ((h.addRef p 1).store (toU64 p) (fun o ho => ?_)
              (fun _ _ _ hH => hH) h.within) p (-1)
            exact hblit _ o fun hin => ho hin.1
          · refine .bind_ok exec_putData exec_putData (.bind_ok exec_brelse exec_brelse ?_)
            generalize hn : min data.length (naiveBlockSize - pos % naiveBlockSize) = n
            have hwrite : ((s.addRef p 1).writeBlock p
                ((s.block p).blit (pos % naiveBlockSize) (data.take n))).Alike
                (fun b o => H b o ∧ ¬ (b = toU64 p ∧ pos % naiveBlockSize ≤ o ∧
                  o < pos % naiveBlockSize + n)) ((s'.addRef p 1).writeBlock p
                ((s'.block p).blit (pos % naiveBlockSize) (data.take n))) := by
              refine (h.addRef p 1).writeBlock (fun o ho => hblit _ o fun hin => ?_)
                (fun b o hb hH => ⟨hH, fun hin => hb hin.1⟩) fun b o ho => h.within b o ho.1
              refine ho ⟨hin.1, fun hrange => hin.2 ?_⟩
              rw [List.length_take, Nat.min_eq_left (by omega)]
              exact hrange.2
            refine (ih (hwrite.addRef p (-1)) hnd ?_).mono fun q t q' t' _ hq => ⟨hq.1, hq.2.mono
              (fun b o ho => Unwritten.append h.within rfl (by omega) hp.symm ho)
              fun b o ho => h.within b o ho.1⟩
            rw [List.length_drop]
            omega

/-- The copy loop stops within the data. -/
theorem fileWriteLoop_stop {fuel : Nat} {data : List Byte} {ret : Int} {q : Int × Nat}
    (h : (fileWriteLoop id fuel pos data ret).exec ans s = .ok (q, t)) :
    q.2 ≤ pos + data.length := by
  induction fuel generalizing s pos data ret with
  | zero =>
      cases h
      exact Nat.le_add_right _ _
  | succ fuel ih =>
      rw [fileWriteLoop] at h
      split at h
      · cases h
        exact Nat.le_add_right _ _
      obtain ⟨nd, u, _, h1⟩ := exec_bind_ok.mp h
      dsimp only at h1
      split at h1
      · cases h1
        exact Nat.le_add_right _ _
      obtain ⟨p, u', _, h2⟩ := exec_bind_ok.mp h1
      obtain ⟨ok, v, _, h3⟩ := exec_bind_ok.mp h2
      cases ok with
      | false =>
          cases h3
          exact Nat.le_add_right _ _
      | true =>
          simp only [Bool.not_true, Bool.false_eq_true, if_false] at h3
          rw [exec_bind_of exec_bData, exec_ask_bind] at h3
          split at h3
          · cases h3
            exact Nat.le_add_right _ _
          · rw [exec_bind_of exec_putData, exec_bind_of exec_brelse] at h3
            have hrest := ih h3
            rw [List.length_drop] at hrest
            omega

/-- What the data part of a write makes of the inode. -/
theorem fileWriteData_inode {q : Int × Nat} {data : List Byte} (hnd : s.inodes id = some nd)
    (h : (fileWriteData id data pos).exec ans s = .ok (q, t)) :
    t.sbi = s.sbi ∧ ∃ nd', t.inodes id = some nd' ∧ nd.SameBlocks nd' ∧
      nd'.iSize = (if (q.2 : Int) > nd.iSize then (q.2 : Int) else nd.iSize) ∧
      q.2 ≤ pos + data.length := by
  rw [fileWriteData] at h
  obtain ⟨⟨ret, pos'⟩, v, hloop, h1⟩ := exec_bind_ok.mp h
  have hloopdata := fileWriteLoop_data hnd hloop
  have hv : v.inodes id = some nd := by rw [hloopdata.inodes, hnd]
  have hstop := fileWriteLoop_stop hloop
  rw [exec_bind_of (exec_inode hv)] at h1
  dsimp only at h1
  split at h1
  · rename_i hgrow
    rw [exec_bind_of (exec_updInode hv), exec_bind_of exec_ktime,
      exec_bind_of (exec_updInode FS.inodes_setInode_self), FS.setInode_setInode] at h1
    cases h1
    exact ⟨hloopdata.sbi, _, FS.inodes_setInode_self, ⟨rfl, rfl, rfl, rfl⟩, (if_pos hgrow).symm,
      hstop⟩
  · rename_i hgrow
    rw [exec_bind_of exec_ktime, exec_bind_of (exec_updInode hv)] at h1
    cases h1
    exact ⟨hloopdata.sbi, _, FS.inodes_setInode_self, ⟨rfl, rfl, rfl, rfl⟩, (if_neg hgrow).symm,
      hstop⟩

theorem twin_fileWriteData {data : List Byte} (h : s.Alike H s') (hnd : s.inodes id = some nd)
    (hmax : pos + data.length ≤ naiveMaxFileSize) :
    Twin ans (fileWriteData id data pos) s (fileWriteData id data pos) s'
      fun q t q' t' => Same (Unwritten H nd pos q.2) q t q' t' := by
  rw [fileWriteData]
  refine (twin_fileWriteLoop h hnd hmax).bind fun q t q' t' _ hq => ?_
  obtain ⟨rfl, ht⟩ := hq
  have hend (w w' : FS) (hw : w.Alike (Unwritten H nd pos q'.2) w') : Twin ans (do
      let ts ← ktime
      updInode id fun nd => { nd with iMtime := ts, iCtime := ts }
      pure (q'.1, q'.2)) w (do
      let ts ← ktime
      updInode id fun nd => { nd with iMtime := ts, iCtime := ts }
      pure (q'.1, q'.2)) w' fun q t q' t' => Same (Unwritten H nd pos q.2) q t q' t' := by
    refine (blind_ktime.twin hw).bind fun ts u ts' u' _ hq => ?_
    obtain ⟨rfl, hu⟩ := hq
    exact ((blind_updInode id _).twin hu).bind fun _ v _ v' _ hq => Twin.pure ⟨rfl, hq.2⟩
  refine twin_inode ht fun e _ => ?_
  dsimp only
  split
  · exact ((blind_updInode id _).twin ht).bind fun _ v _ v' _ hq => hend v v' hq.2
  · exact hend t t' ht

/-- A write stores the same bytes, and only the blocks it attaches keep what they held. -/
theorem twin_naiveFileWrite {data : List Byte} (hs : s.sbi.blockBitmapBlocks = 1)
    (h : s.Alike H s') (hmax : pos + data.length ≤ naiveMaxFileSize) :
    Twin ans (naiveFileWrite id data pos) s (naiveFileWrite id data pos) s'
      fun q t q' t' => q' = q ∧ ∀ nd, t.inodes id = some nd →
        t.Alike (Unwritten H nd pos q.2) t' := by
  rw [naiveFileWrite]
  have hdata {u u' : FS} {nd : Inode} (hu : u.Alike H u') (hnd : u.inodes id = some nd) :
      Twin ans (fileWriteData id data pos) u (fileWriteData id data pos) u'
        fun q t q' t' => q' = q ∧ ∀ nd, t.inodes id = some nd →
          t.Alike (Unwritten H nd pos q.2) t' := by
    refine (twin_fileWriteData hu hnd hmax).mono fun q t q' t' hq hrel => ⟨hrel.1, fun e he => ?_⟩
    obtain ⟨-, nd', hnd', hsame, -⟩ := fileWriteData_inode hnd hq
    obtain rfl := Option.some.inj (hnd'.symm.trans he)
    have hunwritten : Unwritten H nd' pos q.2 = Unwritten H nd pos q.2 := by
      unfold Unwritten
      rw [hsame.blockPointers]
    rw [hunwritten]
    exact hrel.2
  refine twin_inode h fun nd hnd => ?_
  dsimp only
  split
  · exact Twin.pure ⟨rfl, fun nd _ => h.unwritten nd pos⟩
  split
  · refine ((blind_fileWriteAlloc id _).twin h).bind fun r u r' u' halloc hq => ?_
    obtain ⟨rfl, hu⟩ := hq
    obtain ⟨nd', hnd'⟩ := (fileWriteAlloc_cases hs halloc).2.node hnd
    split
    · exact Twin.pure ⟨rfl, fun nd _ => hu.unwritten nd pos⟩
    · exact hdata hu hnd'
  · exact hdata h hnd

end Files

end NaiveFS
