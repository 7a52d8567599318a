import NaiveFS.V8.Rounds

/-!
# How far reads and writes get (`naivefs-8`)

Both loops take a file block by block. They leave with the count of what they did when a
block is missing or cannot be read, and with an error when the user's memory fails. A
count of 0 and an error at a later block are what a caller can trip over.
-/

namespace NaiveFS.V8

open Bytes BlockLoop FirstFit

variable {e : Endian} {sbi : SbInfo} {nii : NaiveInodeInfo} {id : Nat} {ans : Answers} {s t : FS}

/-! ## Bytes stored one by one -/

/-- Store bytes one by one, from byte `q` of the file on. -/
def View.write (v : View) : Nat → List Byte → View
  | _, [] => v
  | q, x :: xs => (((v.give (q / naiveBlockSize)).put (q / naiveBlockSize) (q % naiveBlockSize)
      [x]).grow (q + 1)).write (q + 1) xs

section ViewWrite

variable {v : View} {q : Nat} {xs ys : List Byte}

theorem View.write_append : v.write q (xs ++ ys) = (v.write q xs).write (q + xs.length) ys := by
  induction xs generalizing v q with
  | nil => rfl
  | cons x xs ih =>
    rw [List.cons_append, View.write, ih, View.write, List.length_cons,
      show q + 1 + xs.length = q + (xs.length + 1) by omega]

theorem View.put_put (i off : Nat) (xs ys : List Byte) :
    (v.put i off xs).put i (off + xs.length) ys = v.put i off (xs ++ ys) := by
  unfold View.put
  simp only [Function.update_self, Function.update_idem, blit_append]

theorem View.put_grow (i off n : Nat) (xs : List Byte) :
    (v.grow n).put i off xs = (v.put i off xs).grow n := rfl

theorem View.grow_grow (a b : Nat) : (v.grow a).grow b = v.grow (max a b) := by
  unfold View.grow
  simp only [Nat.max_assoc]

/-- A slot that holds a block need not be asked for. -/
theorem View.give_of_held {i : Nat} (h : v.plan.slots i ≠ 0) : v.give i = v := by
  unfold View.give
  rw [FirstFit.give_of_held h]

/-- Within one block, storing bytes is one store into the block. -/
theorem View.write_block (hne : xs ≠ []) (hxs : xs.length ≤ naiveBlockSize - q % naiveBlockSize)
    (hslot : (v.plan.give (q / naiveBlockSize)).slots (q / naiveBlockSize) ≠ 0) :
    v.write q xs = ((v.give (q / naiveBlockSize)).put (q / naiveBlockSize) (q % naiveBlockSize)
      xs).grow (q + xs.length) := by
  induction xs generalizing v q with
  | nil => exact absurd rfl hne
  | cons x xs ih =>
    cases xs with
    | nil => rfl
    | cons y ys =>
      rw [List.length_cons, List.length_cons] at hxs
      have hdiv : (q + 1) / naiveBlockSize = q / naiveBlockSize := by
        unfold naiveBlockSize at *
        omega
      have hmod : (q + 1) % naiveBlockSize = q % naiveBlockSize + 1 := by
        unfold naiveBlockSize at *
        omega
      -- the block that was given stays
      have hkeep : (((v.give (q / naiveBlockSize)).put (q / naiveBlockSize) (q % naiveBlockSize)
          [x]).grow (q + 1)).give (q / naiveBlockSize) =
            ((v.give (q / naiveBlockSize)).put (q / naiveBlockSize) (q % naiveBlockSize)
              [x]).grow (q + 1) := View.give_of_held hslot
      rw [View.write, ih (by simp) (by rw [List.length_cons, hmod]; omega)
        (by rw [hdiv, ← plan_give, hkeep]; exact hslot), hdiv, hmod, hkeep, View.put_grow,
        View.grow_grow]
      have hput := View.put_put (v := v.give (q / naiveBlockSize)) (q / naiveBlockSize)
        (q % naiveBlockSize) [x] (y :: ys)
      rw [List.length_singleton] at hput
      rw [hput, List.singleton_append, List.length_cons, List.length_cons, List.length_cons,
        Nat.max_eq_right (by omega),
        show q + 1 + (ys.length + 1) = q + (ys.length + 1 + 1) by omega]

end ViewWrite

/-! ## The loops -/

/-- The block `x` of index `i` can be had, read and filled by the user. -/
def WriteOk (ans : Answers) (x i : Nat) : Prop :=
  Available ans x i ∧ ans (.copyFromUser i) = (0 : Nat)

/-- Only the user's bytes for it cannot be read. -/
def WriteFaults (ans : Answers) (x i : Nat) : Prop :=
  Available ans x i ∧ ans (.copyFromUser i) ≠ (0 : Nat)

/-- The write loop within the size limit; `H` says which block each index has when the
loop comes to it. If no block stops it, all bytes are stored. -/
theorem fileWriteLoop_ends (h : OpenFile e sbi s id nii) {H : Nat → Nat} {fuel pos : Nat}
    {data : List Byte} (hfuel : data.length ≤ fuel) (hend : pos + data.length ≤ 4096)
    (hH : ∀ i, Visits naiveBlockSize pos data.length i →
      (view e sbi nii s.mem).plan.held (pos / naiveBlockSize) i = H i) (ans : Answers)
    (written : Int) :
    ∃ r pos' t, (fileWriteLoop e sbi id nii fuel pos data (nii.size s.mem) written).exec ans s =
        .ok ((r, pos'), t) ∧
      Ends naiveBlockSize (fun i => WriteOk ans (H i) i) (fun i => WriteFaults ans (H i) i) pos
        data.length written r pos' ∧
      (pos' = pos → nii.size t.mem = nii.size s.mem) ∧
      ((∀ i, Visits naiveBlockSize pos data.length i → WriteOk ans (H i) i) →
        OpenFile e sbi t id nii ∧ view e sbi nii t.mem = (view e sbi nii s.mem).write pos data ∧
          r = written + data.length ∧ pos' = pos + data.length) := by
  induction fuel generalizing s pos data written with
  | zero =>
    obtain rfl : data = [] := List.length_eq_zero_iff.mp (by omega)
    exact ⟨_, _, s, rfl, .nothing, fun _ => rfl, fun _ => ⟨h, rfl, by simp, by simp⟩⟩
  | succ fuel ih =>
    rw [fileWriteLoop]
    by_cases hdata : data = []
    · rw [if_pos hdata, hdata]
      exact ⟨_, _, s, rfl, .nothing, fun _ => rfl, fun _ => ⟨h, rfl, by simp, by simp⟩⟩
    have hlen : 0 < data.length := List.length_pos_iff.mpr hdata
    have hfirst := hH _ (.first hlen)
    rw [held_first] at hfirst
    rw [if_neg hdata]
    -- induction on the fuel: one round stops the loop, or leaves a shorter write to it
    obtain ⟨q, u, hround, hends⟩ := fileWriteRound_ends h hdata hend ans written
    rw [Prog.exec_bind_of hround]
    cases hends with
    | stop hsize hno =>
      rw [hfirst] at hno
      refine ⟨_, _, u, rfl, .stop (fun hok => hno hok.1) fun hf => hno hf.1, fun _ => hsize,
        fun hall => absurd (hall _ (.first hlen)).1 hno⟩
    | fault hsize havail hcopy =>
      rw [hfirst] at havail
      refine ⟨_, _, u, rfl, .atFirst (by decide) hlen ⟨havail, hcopy⟩, fun _ => hsize,
        fun hall => absurd (hall _ (.first hlen)).2 hcopy⟩
    | next havail hcopy hopen hview =>
      have hchunk := chunk_pos pos (show 0 < naiveBlockSize by decide) hlen
      have hle : chunk naiveBlockSize pos data.length ≤ data.length := chunk_le
      have hslot := havail.1
      rw [hfirst] at havail
      have hok : WriteOk ans (H (pos / naiveBlockSize)) (pos / naiveBlockSize) := ⟨havail, hcopy⟩
      have hdrop : (data.drop (chunk naiveBlockSize pos data.length)).length =
          data.length - chunk naiveBlockSize pos data.length := List.length_drop
      -- the block of a later index is the one it had at the start of the loop
      have hnext : ∀ i, Visits naiveBlockSize (pos + chunk naiveBlockSize pos data.length)
          (data.drop (chunk naiveBlockSize pos data.length)).length i →
            (view e sbi nii u.mem).plan.held ((pos + chunk naiveBlockSize pos data.length) /
              naiveBlockSize) i = H i := by
        intro i hi
        rw [hdrop] at hi
        obtain ⟨hvis, hlt⟩ := (visits_next (by decide)).mp hi
        rw [second_block (by decide) hi.1, hview, plan_grow, plan_put, plan_give, held_next hlt]
        exact hH i hvis
      obtain ⟨r, pos', t, hexec, hrest, hsize, hall⟩ := ih hopen (by omega) (by omega) hnext
        (written + chunk naiveBlockSize pos data.length)
      rw [hdrop] at hrest hall
      refine ⟨r, pos', t, hexec, .next (by decide) hlen hok (fun hf => hf.2 hcopy) hrest, ?_, ?_⟩
      · intro hpos
        have := hrest.pos_le
        omega
      · intro hok'
        obtain ⟨hfile, hbytes, hr, hpos⟩ := hall fun i hi =>
          hok' i ((visits_next (by decide)).mp hi).1
        refine ⟨hfile, ?_, by omega, by omega⟩
        have htake : (data.take (chunk naiveBlockSize pos data.length)).length =
            chunk naiveBlockSize pos data.length := by
          rw [List.length_take, Nat.min_eq_left hle]
        have hblock := View.write_block (v := view e sbi nii s.mem) (q := pos)
          (List.ne_nil_of_length_pos (by rw [htake]; exact hchunk))
          (by rw [htake]; exact chunk_le_block) hslot
        rw [htake] at hblock
        rw [hbytes, hview, ← hblock, ← congrArg (View.write _ pos) (List.take_append_drop
          (chunk naiveBlockSize pos data.length) data), View.write_append, htake]

/-- Block `i` of the file is there and can be read. -/
def Readable (ans : Answers) (nii : NaiveInodeInfo) (m : Bytes) (i : Nat) : Prop :=
  nii.slots m i ≠ 0 ∧ ans (.sbBread (.fileRead i) (nii.slots m i)) = true

/-- It can be copied to the user too. -/
def ReadOk (ans : Answers) (nii : NaiveInodeInfo) (m : Bytes) (i : Nat) : Prop :=
  Readable ans nii m i ∧ ans (.copyToUser i) = (0 : Nat)

/-- Only the copy to the user fails. -/
def ReadFaults (ans : Answers) (nii : NaiveInodeInfo) (m : Bytes) (i : Nat) : Prop :=
  Readable ans nii m i ∧ ans (.copyToUser i) ≠ (0 : Nat)

/-- The bytes behind the slots of a file. -/
def View.content (v : View) : Bytes := fun q =>
  v.bytes (v.plan.slots (q / naiveBlockSize)) (q % naiveBlockSize)

@[simp] theorem FS.mem_addRef (s : FS) (b : Nat) (d : Int) : (s.addRef b d).mem = s.mem := rfl

theorem FS.addRef_cancel (s : FS) (b : Nat) : (s.addRef b 1).addRef b (-1) = s := by
  unfold FS.addRef
  simp

/-- The part of a data block that starts at byte `pos` of the file. -/
theorem OpenFile.slice_block (h : OpenFile e sbi s id nii) {pos n : Nat}
    (hx : nii.slots s.mem (pos / naiveBlockSize) ≠ 0)
    (hn : n ≤ naiveBlockSize - pos % naiveBlockSize) :
    s.mem.slice (bData (nii.slots s.mem (pos / naiveBlockSize)) + pos % naiveBlockSize) n =
      (view e sbi nii s.mem).content.slice pos n := by
  apply slice_congr
  intro k hk
  have hdiv : (pos + k) / naiveBlockSize = pos / naiveBlockSize := by
    unfold naiveBlockSize at *
    omega
  have hmod : (pos + k) % naiveBlockSize = pos % naiveBlockSize + k := by
    unfold naiveBlockSize at *
    omega
  unfold View.content
  rw [hdiv, hmod, slots_view, bytes_view, dataBytes, if_pos ⟨h.held _ hx, by omega⟩, Nat.add_assoc]

/-- The read loop within the file. What it gives the user are the file's bytes. -/
theorem fileReadLoop_ends (h : OpenFile e sbi s id nii) {fuel pos len fileSize : Nat}
    {out : List Byte} {bytesRead : Int} (hfuel : len ≤ fuel) (hsize : fileSize < 2 ^ 32)
    (hend : pos + len ≤ fileSize) (hread : 0 ≤ bytesRead) (ans : Answers) :
    ∃ r pos' out', (fileReadLoop e nii fileSize fuel pos len out bytesRead).exec ans s =
        .ok ((r, pos', out'), s) ∧
      Ends naiveBlockSize (ReadOk ans nii s.mem) (ReadFaults ans nii s.mem) pos len bytesRead r
        pos' ∧
      ∀ k : Nat, r = bytesRead + k → out' = out ++ (view e sbi nii s.mem).content.slice pos k := by
  have hnone {out : List Byte} {bytesRead : Int} {pos : Nat} : ∀ k : Nat,
      bytesRead = bytesRead + k → out = out ++ (view e sbi nii s.mem).content.slice pos k := by
    intro k hk
    obtain rfl : k = 0 := by omega
    rw [slice_zero, List.append_nil]
  induction fuel generalizing pos len out bytesRead with
  | zero =>
    obtain rfl : len = 0 := by omega
    exact ⟨_, _, _, rfl, .nothing, hnone⟩
  | succ fuel ih =>
    rw [fileReadLoop]
    by_cases hlen : len = 0
    · rw [if_pos hlen, hlen]
      exact ⟨_, _, _, rfl, .nothing, hnone⟩
    have hindex : toU32 (pos / naiveBlockSize : Nat) = pos / naiveBlockSize :=
      toU32_natCast (by unfold naiveBlockSize; omega)
    rw [if_neg hlen, hindex, Prog.exec_read_bind, load32_slot]
    by_cases hstop : naiveDirectBlocks ≤ pos / naiveBlockSize ∨
        nii.slot s.mem (pos / naiveBlockSize) = 0
    · have hno : nii.slots s.mem (pos / naiveBlockSize) = 0 := by
        unfold NaiveInodeInfo.slots
        rcases hstop with hge | h0
        · exact if_neg (by omega)
        · rw [h0, ite_self]
      rw [if_pos hstop]
      exact ⟨_, _, _, rfl, .stop (fun hok => hok.1.1 hno) fun hf => hf.1.1 hno, hnone⟩
    have hslots : nii.slots s.mem (pos / naiveBlockSize) = nii.slot s.mem (pos / naiveBlockSize) :=
      slots_of_lt (by omega)
    have hx : nii.slots s.mem (pos / naiveBlockSize) ≠ 0 := by omega
    rw [if_neg hstop, ← hslots]
    cases hbread : ans (.sbBread (.fileRead (pos / naiveBlockSize))
        (nii.slots s.mem (pos / naiveBlockSize))) with
    | false =>
      have hno : ¬ Readable ans nii s.mem (pos / naiveBlockSize) := by
        rintro ⟨-, hok⟩
        rw [hbread] at hok
        cases hok
      rw [Prog.exec_bind_of (exec_sbBread_fail hbread), if_pos (by decide)]
      exact ⟨_, _, _, rfl, .stop (fun hok => hno hok.1) fun hf => hno hf.1, hnone⟩
    | true =>
      have hreadable : Readable ans nii s.mem (pos / naiveBlockSize) := ⟨hx, hbread⟩
      have hmin : min (min len (naiveBlockSize - pos % naiveBlockSize))
          (toU64 ((fileSize : Int) - pos)) = chunk naiveBlockSize pos len := by
        unfold chunk toU64
        omega
      have hchunk : chunk naiveBlockSize pos len ≤ len := chunk_le
      have hpos := chunk_pos pos (show 0 < naiveBlockSize by decide) (Nat.pos_of_ne_zero hlen)
      rw [Prog.exec_bind_of (exec_sbBread_ok hbread), if_neg (by decide)]
      dsimp only
      rw [hmin, Prog.exec_read_bind, Prog.exec_ask_bind, Prog.exec_bind_of exec_brelse,
        FS.addRef_cancel]
      by_cases hcopy : ans (.copyToUser (pos / naiveBlockSize)) = (0 : Nat)
      · rw [if_neg (not_not.mpr hcopy)]
        have hle : chunk naiveBlockSize pos len ≤ naiveBlockSize - pos % naiveBlockSize :=
          chunk_le_block
        have hslice := h.slice_block hx hle
        obtain ⟨r, pos', out', hexec, hrest, hout⟩ := @ih (pos + chunk naiveBlockSize pos len)
          (len - chunk naiveBlockSize pos len)
          (out ++ (view e sbi nii s.mem).content.slice pos (chunk naiveBlockSize pos len))
          (bytesRead + chunk naiveBlockSize pos len) (by omega) (by omega) (by omega)
        rw [FS.mem_addRef, hslice]
        refine ⟨r, pos', out', hexec, .next (by decide) (Nat.pos_of_ne_zero hlen)
          ⟨hreadable, hcopy⟩ (fun hf => hf.2 hcopy) hrest, ?_⟩
        intro k hk
        -- a count has passed the first block
        obtain ⟨k', rfl⟩ : ∃ k', k = chunk naiveBlockSize pos len + k' := by
          refine ⟨k - chunk naiveBlockSize pos len, ?_⟩
          have := hrest.count_le (by omega)
          omega
        rw [hout k' (by push_cast at hk; omega), List.append_assoc, slice_add]
      · rw [if_pos hcopy]
        refine ⟨_, _, _, rfl, .atFirst (by decide) (Nat.pos_of_ne_zero hlen) ⟨hreadable, hcopy⟩,
          fun k hk => ?_⟩
        exact absurd hk (by
          have : (-EFAULT : Int) < 0 := by decide
          omega)

/-! ## Calls -/

/-- A call on an open file. -/
inductive FileCall where
  | read (len pos : Nat)
  | write (data : List Byte) (pos : Nat)

/-- The offset a call starts at. -/
def FileCall.pos : FileCall → Nat
  | .read _ pos => pos
  | .write _ pos => pos

/-- The number of bytes a call is to move. -/
def FileCall.len : FileCall → Nat
  | .read len _ => len
  | .write data _ => data.length

/-- `pos + len` does not wrap; the VFS checks it (`rw_verify_area`). -/
def FileCall.Fits (c : FileCall) : Prop := c.pos + c.len < 2 ^ 64

/-- The code of a call: the return value and the new `*ppos`. -/
def FileCall.prog (e : Endian) (id : Nat) : FileCall → K (Int × Nat)
  | .read len pos => do
    let (r, pos, _) ← naiveFileRead e id len pos
    pure (r, pos)
  | .write data pos => naiveFileWrite e id data pos

/-- A call that may return 0, on a file of `size` bytes. -/
def FileCall.AtEnd (size : Nat) : FileCall → Prop
  | .read len pos => len = 0 ∨ size ≤ pos
  | .write data _ => data.length = 0

/-- The return value `r` tells how far the call got: the offset went from `pos` to `pos'`
and the size on disk from `size` to `size'`. -/
structure Told (c : FileCall) (size : Nat) (r : Int) (pos' size' : Nat) : Prop where
  advanced : 0 ≤ r → (pos' : Int) = c.pos + r
  unchanged : r < 0 → pos' = c.pos ∧ size' = size
  zero : r = 0 → c.AtEnd size

/-- The call returns and its return value tells how far it got. -/
def Progresses (e : Endian) (ans : Answers) (s : FS) (id : Nat) (nii : NaiveInodeInfo)
    (c : FileCall) : Prop :=
  ∃ r pos' t, (c.prog e id).exec ans s = .ok ((r, pos'), t) ∧
    Told c (nii.size s.mem) r pos' (nii.size t.mem)

/-- The block a write finds or is given at index `i`, if it starts at byte `pos`. -/
def nextHeld (e : Endian) (sbi : SbInfo) (nii : NaiveInodeInfo) (m : Bytes) (pos i : Nat) : Nat :=
  (view e sbi nii m).plan.held (pos / naiveBlockSize) i

/-- There is nothing to do, or the first block can be had and read and no user copy fails
at a later block. -/
def Undisturbed (e : Endian) (ans : Answers) (sbi : SbInfo) (nii : NaiveInodeInfo) (m : Bytes) :
    FileCall → Prop
  | .read len pos =>
    let n := min len (nii.size m - pos)
    n = 0 ∨ (Readable ans nii m (pos / naiveBlockSize) ∧
      ∀ i, pos / naiveBlockSize < i → Reaches naiveBlockSize (ReadOk ans nii m) pos n i →
        ¬ ReadFaults ans nii m i)
  | .write data pos =>
    let x := nextHeld e sbi nii m pos
    data.length = 0 ∨ naiveMaxFileSize < pos + data.length ∨
      (Available ans (x (pos / naiveBlockSize)) (pos / naiveBlockSize) ∧
      ∀ i, pos / naiveBlockSize < i →
        Reaches naiveBlockSize (fun i => WriteOk ans (x i) i) pos data.length i →
          ¬ WriteFaults ans (x i) i)

section Run

variable {pos len : Nat} {data : List Byte} {c : FileCall}

/-- A change of an inode that keeps its record. -/
theorem OpenFile.updInode {nd : Inode} {f : Inode → Inode} (h : OpenFile e sbi s id nii)
    (hnd : s.inodes id = some nd) (hf : (f nd).iPrivate = nd.iPrivate) :
    OpenFile e sbi (s.setInode id (f nd)) id nii := by
  refine h.of_slots rfl ?_ rfl
  funext x
  by_cases hx : x = id
  · rw [hx]
    simp [FS.records, hnd, hf]
  · simp [FS.records, FS.inodes_setInode_ne hx]

/-- A write beyond the size limit does nothing. -/
theorem exec_naiveFileWrite_big (h : OpenFile e sbi s id nii) (hfits : pos + data.length < 2 ^ 64)
    (hbig : naiveMaxFileSize < pos + data.length) :
    (naiveFileWrite e id data pos).exec ans s = .ok ((-EFBIG, pos), s) := by
  obtain ⟨nd, hnd, hnii⟩ := records_eq_some.mp h.record
  rw [naiveFileWrite, Prog.exec_bind_of (exec_naiveI hnd hnii),
    Prog.exec_bind_of (exec_naiveSb h.info), Prog.exec_read_bind,
    if_pos (by rw [toU64_natCast hfits]; exact hbig)]
  rfl

/-- Another write is its loop; the rest of it keeps memory. -/
theorem exec_naiveFileWrite_loop (h : OpenFile e sbi s id nii)
    (hend : pos + data.length ≤ naiveMaxFileSize) {q : Int × Nat} {u : FS}
    (hloop : (fileWriteLoop e sbi id nii data.length pos data (nii.size s.mem) 0).exec ans s =
      .ok (q, u)) :
    ∃ t, (naiveFileWrite e id data pos).exec ans s = .ok (q, t) ∧ t.mem = u.mem ∧
      (OpenFile e sbi u id nii → OpenFile e sbi t id nii) := by
  obtain ⟨nd, hnd, hnii⟩ := records_eq_some.mp h.record
  have hsize : le32ToCpu e (load32 e s.mem (nii.diskInode + 44)) = nii.size s.mem :=
    le32ToCpu_load32 ..
  have hmax : naiveMaxFileSize = 4096 := rfl
  obtain ⟨q', t, hexec, -⟩ : ∃ q' t, (naiveFileWrite e id data pos).exec ans s = .ok (q', t) ∧
      Writes e sbi id nii s t := naiveFileWrite_exec h.laid.first hnd hnii h.info
  rw [naiveFileWrite, Prog.exec_bind_of (exec_naiveI hnd hnii),
    Prog.exec_bind_of (exec_naiveSb h.info), Prog.exec_read_bind,
    if_neg (by rw [toU64_natCast (by omega)]; omega), hsize, Prog.exec_bind_of hloop,
    Prog.exec_bind_of exec_ktime] at hexec ⊢
  obtain ⟨_, v, hupd, hrest⟩ := Prog.exec_bind_ok.mp hexec
  obtain ⟨nd', hnd', rfl⟩ := exec_updInode_ok hupd
  rw [Prog.exec_bind_of hupd, Prog.exec_bind_of exec_markBufferDirty]
  refine ⟨_, rfl, rfl, fun hu => ?_⟩
  exact (hu.updInode hnd' (f := fun nd => { nd with iMtime := ans .ktime, iCtime := ans .ktime })
    rfl).of_slots rfl rfl rfl

/-- A read is its loop on what is left of the file. -/
theorem exec_naiveFileRead (h : OpenFile e sbi s id nii) (hfits : pos + len < 2 ^ 64)
    (ans : Answers) :
    ∃ r pos' out t, (naiveFileRead e id len pos).exec ans s = .ok ((r, pos', out), t) ∧
      OpenFile e sbi t id nii ∧ t.mem = s.mem ∧
      Ends naiveBlockSize (ReadOk ans nii s.mem) (ReadFaults ans nii s.mem) pos
        (min len (nii.size s.mem - pos)) 0 r pos' ∧
      ∀ k : Nat, r = k → out = (view e sbi nii s.mem).content.slice pos k := by
  obtain ⟨nd, hnd, hnii⟩ := records_eq_some.mp h.record
  have hsize : le32ToCpu e (load32 e s.mem (nii.diskInode + 44)) = nii.size s.mem :=
    le32ToCpu_load32 ..
  have hlt : nii.size s.mem < 2 ^ 32 := getLE32_lt ..
  rw [naiveFileRead, Prog.exec_bind_of (exec_naiveI hnd hnii), Prog.exec_read_bind, hsize]
  by_cases hpos : nii.size s.mem ≤ pos
  · rw [if_pos hpos, show min len (nii.size s.mem - pos) = 0 by omega]
    refine ⟨_, _, _, s, rfl, h, rfl, .nothing, ?_⟩
    intro k hk
    obtain rfl : k = 0 := by omega
    rfl
  · have hn : (if toU64 (pos + len : Nat) > nii.size s.mem then nii.size s.mem - pos else len) =
        min len (nii.size s.mem - pos) := by
      rw [toU64_natCast hfits]
      split <;> omega
    have hend : pos + min len (nii.size s.mem - pos) ≤ nii.size s.mem := by omega
    rw [if_neg hpos, hn]
    dsimp only
    obtain ⟨r, pos', out, hexec, hends, hout⟩ :=
      @fileReadLoop_ends e sbi nii id s h _ _ _ _ [] 0 (Nat.le_refl _) hlt hend (Int.le_refl 0) ans
    rw [Prog.exec_bind_of hexec, Prog.exec_bind_of exec_ktime,
      Prog.exec_bind_of (exec_updInode hnd)]
    refine ⟨r, pos', out, _, rfl, h.updInode hnd (f := fun nd => { nd with iAtime := ans .ktime })
      rfl, rfl, hends, ?_⟩
    intro k hk
    rw [hout k (by omega), List.nil_append]

end Run

/-! ## Progress -/

section Told

variable {c : FileCall} {size size' n pos' : Nat} {r : Int} {ok fails : Nat → Prop}

/-- What a caller is told about a loop that had something to do. -/
theorem told_iff (h : Ends naiveBlockSize ok fails c.pos n 0 r pos') (hn : 0 < n)
    (hend : ¬ c.AtEnd size) (hsize : pos' = c.pos → size' = size) (hexcl : ∀ i, fails i → ¬ ok i) :
    Told c size r pos' size' ↔ (ok (c.pos / naiveBlockSize) ∨ fails (c.pos / naiveBlockSize)) ∧
      ∀ i, c.pos / naiveBlockSize < i → Reaches naiveBlockSize ok c.pos n i → ¬ fails i := by
  rw [← h.clean_iff hn hexcl]
  constructor
  · intro htold
    exact ⟨fun hr => (htold.unchanged hr).1, fun hr => hend (htold.zero hr)⟩
  · rintro ⟨hneg, hzero⟩
    exact ⟨h.moved, fun hr => ⟨hneg hr, hsize (hneg hr)⟩, fun hr => absurd hr hzero⟩

/-- A loop that had nothing to do. -/
theorem told_empty (h : Ends naiveBlockSize ok fails c.pos 0 0 r pos') (hend : c.AtEnd size) :
    Told c size r pos' size' := by
  have hr := h.nonneg_of_empty
  refine ⟨h.moved, fun hneg => ?_, fun _ => hend⟩
  omega

end Told

/-- A block that is there can be filled, or the copy fails. -/
theorem ok_or_fails {p c : Prop} : (p ∧ c ∨ p ∧ ¬ c) ↔ p := by
  rw [← and_or_left, and_iff_left (Classical.em c)]

theorem progresses_iff {c : FileCall} {r : Int} {pos' : Nat}
    (h : (c.prog e id).exec ans s = .ok ((r, pos'), t)) :
    Progresses e ans s id nii c ↔ Told c (nii.size s.mem) r pos' (nii.size t.mem) := by
  constructor
  · rintro ⟨r', pos'', t', h', htold⟩
    cases h.symm.trans h'
    exact htold
  · exact fun htold => ⟨r, pos', t, h, htold⟩

/-- A call tells how far it got exactly when it is undisturbed. -/
theorem progress_iff_undisturbed (h : OpenFile e sbi s id nii) (c : FileCall) (hfits : c.Fits)
    (ans : Answers) :
    Progresses e ans s id nii c ↔ Undisturbed e ans sbi nii s.mem c := by
  cases c with
  | read len pos =>
    have hfits' : pos + len < 2 ^ 64 := hfits
    obtain ⟨r, pos', out, t, hexec, -, hmem, hends, -⟩ := exec_naiveFileRead h hfits' ans
    have hprog : ((FileCall.read len pos).prog e id).exec ans s = .ok ((r, pos'), t) := by
      rw [FileCall.prog, Prog.exec_bind_of hexec]
      rfl
    rw [progresses_iff hprog, hmem]
    by_cases hn : min len (nii.size s.mem - pos) = 0
    · have hend : (FileCall.read len pos).AtEnd (nii.size s.mem) := by
        unfold FileCall.AtEnd
        omega
      rw [hn] at hends
      exact iff_of_true (told_empty hends hend) (.inl hn)
    · have hend : ¬ (FileCall.read len pos).AtEnd (nii.size s.mem) := by
        unfold FileCall.AtEnd
        omega
      have htold := told_iff (c := .read len pos) hends (Nat.pos_of_ne_zero hn) hend
        (fun _ => rfl) fun i hfail hok => hfail.2 hok.2
      rw [htold]
      unfold ReadOk ReadFaults Undisturbed
      rw [ok_or_fails]
      exact (or_iff_right hn).symm
  | write data pos =>
    have hmax : naiveMaxFileSize = 4096 := rfl
    by_cases hbig : naiveMaxFileSize < pos + data.length
    · -- the size limit is checked before anything is done
      rw [progresses_iff (exec_naiveFileWrite_big h hfits hbig)]
      refine iff_of_true ⟨fun hr => ?_, fun _ => ⟨rfl, rfl⟩, fun hr => ?_⟩ (.inr (.inl hbig))
      · exact absurd hr (by decide)
      · exact absurd hr (by decide)
    · have hle : pos + data.length ≤ naiveMaxFileSize := by omega
      obtain ⟨r, pos', u, hloop, hends, hsize, -⟩ := fileWriteLoop_ends h
        (Nat.le_refl data.length) hle (fun i _ => rfl) ans 0
      obtain ⟨t, hexec, hmem, -⟩ := exec_naiveFileWrite_loop h hle hloop
      have hprog : ((FileCall.write data pos).prog e id).exec ans s = .ok ((r, pos'), t) := hexec
      rw [progresses_iff hprog, hmem]
      by_cases hn : data.length = 0
      · rw [hn] at hends
        exact iff_of_true (told_empty hends hn) (.inl hn)
      · have htold := told_iff (c := .write data pos) hends (Nat.pos_of_ne_zero hn) hn
          hsize fun i hfail hok => hfail.2 hok.2
        rw [htold]
        unfold WriteOk WriteFaults Undisturbed
        rw [ok_or_fails]
        exact ((or_iff_right hn).trans (or_iff_right hbig)).symm

theorem oneFile_open {table start total : Nat}
    (hsbi : (oneFile table start total).sFsInfo = .live sbi)
    (hlaid : Laid e sbi (oneFile table start total).records) :
    OpenFile e sbi (oneFile table start total) 0 ⟨bData table, table⟩ := by
  refine ⟨hsbi, rfl, rfl, hlaid.only rfl, fun i hi => absurd ?_ hi⟩
  unfold NaiveInodeInfo.slots
  rw [show NaiveInodeInfo.slot _ (oneFile table start total).mem i = 0 from getLE32_zeros _,
    ite_self]

/-- The call returns `r` and leaves the offset at `pos'`. -/
def tells (e : Endian) (ans : Answers) (s : FS) (id : Nat) (c : FileCall) (r : Int) (pos' : Nat) :
    Bool :=
  match (c.prog e id).exec ans s with
  | .ok (q, _) => q == (r, pos')
  | .error _ => false

/-- The block of index 1 of a file cannot be read. -/
def secondBlockUnread : Answers
  | .sbBread (.fileWrite 1) _ => false
  | c => Answers.good default 0 0 c

/-- 513 bytes are written to an empty file whose second block cannot be read: the call returns
512 and leaves the offset there. -/
theorem progress_short_write :
    tells .little secondBlockUnread (oneFile 4 5 8) 0 (.write (List.replicate 513 1) 0) 512 512
      = true ∧
    Progresses .little secondBlockUnread (oneFile 4 5 8) 0 ⟨bData 4, 4⟩
      (.write (List.replicate 513 1) 0) := by
  have hlaid : Laid .little _ (oneFile 4 5 8).records :=
    oneFile_laid rfl (by decide) (by decide) (by decide) (by decide)
  have hfits : (FileCall.write (List.replicate 513 1) 0).Fits := by
    simp only [FileCall.Fits, FileCall.pos, FileCall.len, List.length_replicate]
    decide
  refine ⟨by decide +kernel, (progress_iff_undisturbed (oneFile_open rfl hlaid) _ hfits _).mpr
    (.inr (.inr ⟨⟨by decide +kernel, rfl⟩, fun i _ _ hfail => hfail.2 rfl⟩))⟩

theorem not_progresses {c : FileCall} {r : Int} {pos' : Nat} (h : tells e ans s id c r pos' = true)
    (hno : ∀ size size', ¬ Told c size r pos' size') : ¬ Progresses e ans s id nii c := by
  unfold tells at h
  split at h
  · rename_i q t hexec
    rw [beq_iff_eq.mp h] at hexec
    rw [progresses_iff hexec]
    exact hno _ _
  · cases h

/-- The user's second page is not there. -/
def secondCopyFails : Answers
  | .copyFromUser 1 => (1 : Nat)
  | c => Answers.good ⟨6, 0⟩ 0 0 c

/-- No block of the file can be read. -/
def noFileBlock : Answers
  | .sbBread (.fileWrite _) _ => false
  | c => Answers.good ⟨6, 0⟩ 0 0 c

/-- A write of 513 bytes whose second copy fails returns `-EFAULT` with the offset at 512,
and a write of one byte to a block that cannot be read returns 0. -/
theorem fault_moves_offset : ∃ s t, Mounted .little freshImage s ∧
    Actions .little (fun _ _ => True) s t ∧ t.records 1 = some ⟨bData 5, 5⟩ ∧
    ¬ Progresses .little secondCopyFails t 1 ⟨bData 5, 5⟩ (.write (List.replicate 513 1) 0) ∧
    ¬ Progresses .little noFileBlock t 1 ⟨bData 5, 5⟩ (.write [1] 0) := by
  have h : succeeds (naiveFillSuper .little) (.good ⟨4, 0⟩ 0 0) { mem := freshImage }
      (fun s => actsTo .little [
          (.op (createFile 1 (by decide) (by decide) ⟨5, 0⟩).1, .good ⟨5, 0⟩ 0 0)] s fun t =>
        t.records 1 == some ⟨bData 5, 5⟩ &&
        tells .little secondCopyFails t 1 (.write (List.replicate 513 1) 0) (-EFAULT) 512 &&
        tells .little noFileBlock t 1 (.write [1] 0) 0 0) = true := by
    decide +kernel
  obtain ⟨s, hm, hrun⟩ := exists_of_succeeds h
  obtain ⟨t, ht, hcheck⟩ := exists_of_actsTo (P := fun _ _ => True) (fun _ _ _ => trivial) hrun
  simp only [Bool.and_eq_true, beq_iff_eq] at hcheck
  obtain ⟨⟨hrec, hfault⟩, hzero⟩ := hcheck
  refine ⟨s, t, ⟨_, hm⟩, ht, hrec, not_progresses hfault ?_, not_progresses hzero ?_⟩
  · intro size size' htold
    exact absurd (htold.unchanged (by decide)).1 (by decide)
  · intro size size' htold
    exact absurd (htold.zero rfl) (by simp [FileCall.AtEnd])

end NaiveFS.V8
