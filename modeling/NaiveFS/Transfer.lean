import NaiveFS.Attach
import NaiveFS.Contents
import NaiveFS.Lib.BlockLoop

/-!
# What a read or a write reports

The result of `naive_file_read` and `naive_file_write` beside what they did to
`*pos`, the file and the user's bytes, whatever fails. A block loop ends without an
error, with one at its first block, or with one at a later block, when `*pos` has
moved already.
-/

namespace NaiveFS

open Bytes BlockLoop

/-! ## Files and calls -/

/-- The inode `id` is `nd`, a file within the limits of the format. -/
structure FileState (s : FS) (id : Nat) (nd : Inode) : Prop where
  node : s.inodes id = some nd
  size : 0 ≤ nd.iSize ∧ nd.iSize ≤ naiveMaxFileSize
  count : 0 ≤ nd.blockCount ∧ nd.blockCount ≤ 8
  scannable : s.Scannable

inductive Transfer where
  | read (len pos : Nat)
  | write (data : List Byte) (pos : Nat)

/-- Store bytes one by one behind the block pointers of `nd`, from byte `q` of the file on. -/
def putBytes (nd : Inode) : Nat → List Byte → (Nat → Bytes) → Nat → Bytes
  | _, [], c => c
  | q, x :: xs, c =>
    let b := toU64 (nd.blockPointers (q / naiveBlockSize))
    putBytes nd (q + 1) xs
      (Function.update c b (Function.update (c b) (q % naiveBlockSize) x))

/-- A result `r ≥ 0` of a read is the number of bytes given to the user, those of the file
from `pos` on, and by which `*pos` moved. No read changes the state. -/
structure ReadReport (s : FS) (nd : Inode) (pos : Nat) (r : Int) (pos' : Nat) (out : List Byte)
    (t : FS) : Prop where
  moved : 0 ≤ r → (pos' : Int) = pos + r
  given : 0 ≤ r → out = (s.content nd).slice pos r.toNat
  kept : r < 0 → pos' = pos
  state : t = s

/-- A result `r ≥ 0` of a write is the number of bytes stored, the first of the user's,
from `pos` on, and by which `*pos` moved. With a negative one the file, its inode's
size and blocks and the block bitmap are as before. -/
structure WriteReport (s : FS) (id : Nat) (nd : Inode) (data : List Byte) (pos : Nat) (r : Int)
    (pos' : Nat) (t : FS) : Prop where
  moved : 0 ≤ r → (pos' : Int) = pos + r
  stored : 0 ≤ r → r ≤ data.length ∧ ∃ nd', t.inodes id = some nd' ∧
    t.cache = putBytes nd' pos (data.take r.toNat) s.cache
  kept : r < 0 → pos' = pos
  inode : r < 0 → ∃ nd', t.inodes id = some nd' ∧ nd'.iSize = nd.iSize ∧
    nd'.blockCount = nd.blockCount ∧ nd'.blockPointers = nd.blockPointers
  bitmap : r < 0 → t.sbi.blockBitmap = s.sbi.blockBitmap
  bytes : r < 0 → ∀ q : Nat, (q : Int) < nd.iSize → t.content nd q = s.content nd q

/-- The call ends and reports what it did. -/
def Reports (ans : Answers) (s : FS) (id : Nat) (nd : Inode) : Transfer → Prop
  | .read len pos => ∃ r pos' out t,
    (naiveFileRead id len pos).exec ans s = .ok ((r, pos', out), t) ∧
      ReadReport s nd pos r pos' out t
  | .write data pos => ∃ r pos' t, (naiveFileWrite id data pos).exec ans s = .ok ((r, pos'), t) ∧
      WriteReport s id nd data pos r pos' t

/-! ## What can fail -/

/-- Block `i` can be read and copied to the user. -/
def ReadOk (ans : Answers) (nd : Inode) (i : Nat) : Prop :=
  ans (.sbBread .fileRead i (nd.blockPointers i)) = true ∧ ans (.copyToUser i) = (0 : Nat)

/-- A read goes on at block `i`. -/
def Inode.HasBlock (nd : Inode) (i : Nat) : Prop :=
  (i : Int) < nd.blockCount ∧ nd.blockPointers i ≠ 0

/-- Block `i` is there, can be read and filled by the user. -/
structure WriteOk (ans : Answers) (nd : Inode) (i : Nat) : Prop where
  count : (i : Int) < nd.blockCount
  read : ans (.sbBread .fileWrite i (nd.blockPointers i)) = true
  copy : ans (.copyFromUser i) = (0 : Nat)

/-- The bytes a write stores in its first block when that fails: none without the block, else
what the user copy leaves there. -/
def faultStore (ans : Answers) (nd : Inode) (pos : Nat) (data : List Byte) : List Byte :=
  let i := pos / naiveBlockSize
  if (i : Int) < nd.blockCount ∧ ans (.sbBread .fileWrite i (nd.blockPointers i)) = true then
    copiedFromUser data (chunk naiveBlockSize pos data.length) (ans (.copyFromUser i))
  else []

theorem length_faultStore_le {ans : Answers} {nd : Inode} {pos : Nat} {data : List Byte} :
    (faultStore ans nd pos data).length ≤ chunk naiveBlockSize pos data.length := by
  unfold faultStore
  dsimp only
  split
  · exact Nat.le_of_eq (length_copiedFromUser chunk_le)
  · exact Nat.zero_le _

/-! ## Reading -/

section Read

variable {ans : Answers} {s t : FS} {id : Nat} {nd : Inode}

/-- The loop fails at block `i`, with the ones before it read. -/
structure ReadFails (ans : Answers) (nd : Inode) (pos len i : Nat) : Prop where
  reach : Reaches naiveBlockSize (fun j => nd.HasBlock j ∧ ReadOk ans nd j) pos len i
  block : nd.HasBlock i
  fails : ¬ ReadOk ans nd i

/-- How the read loop ends. -/
inductive ReadEnd (ans : Answers) (s : FS) (nd : Inode) (pos len : Nat) (out : List Byte) :
    Int → Nat → List Byte → Prop where
  | done {n : Nat} (le : n ≤ len) (ok : ∀ i, ¬ ReadFails ans nd pos len i) :
      ReadEnd ans s nd pos len out ((out.length + n : Nat) : Int) (pos + n)
        (out ++ (s.content nd).slice pos n)
  | atFirst {r : Int} {out' : List Byte} (neg : r < 0)
      (fail : ReadFails ans nd pos len (pos / naiveBlockSize)) :
      ReadEnd ans s nd pos len out r pos out'
  | atLater {r : Int} {pos' i : Nat} {out' : List Byte} (neg : r < 0) (moved : pos < pos')
      (index : pos / naiveBlockSize < i) (fail : ReadFails ans nd pos len i) :
      ReadEnd ans s nd pos len out r pos' out'

/-- The rest of the loop fails where the loop fails behind its first block. -/
theorem readFails_next {pos len i : Nat} (hblock : nd.HasBlock (pos / naiveBlockSize))
    (hok : ReadOk ans nd (pos / naiveBlockSize)) :
    ReadFails ans nd (pos + chunk naiveBlockSize pos len) (len - chunk naiveBlockSize pos len) i ↔
      ReadFails ans nd pos len i ∧ pos / naiveBlockSize < i := by
  have hnext : Reaches naiveBlockSize (fun j => nd.HasBlock j ∧ ReadOk ans nd j) _ _ i ↔ _ :=
    reaches_next pos len (by decide) ⟨hblock, hok⟩
  constructor
  · intro hf
    obtain ⟨hreach, hlt⟩ := hnext.mp hf.reach
    exact ⟨⟨hreach, hf.block, hf.fails⟩, hlt⟩
  · rintro ⟨hf, hlt⟩
    exact ⟨hnext.mpr ⟨hf.reach, hlt⟩, hf.block, hf.fails⟩

/-- The rest of the loop, from the next block on, seen from this one. -/
theorem ReadEnd.next {pos len : Nat} {out out' : List Byte} {r : Int} {pos' : Nat} (hlen : 0 < len)
    (hblock : nd.HasBlock (pos / naiveBlockSize)) (hok : ReadOk ans nd (pos / naiveBlockSize))
    (h : ReadEnd ans s nd (pos + chunk naiveBlockSize pos len) (len - chunk naiveBlockSize pos len)
      (out ++ (s.content nd).slice pos (chunk naiveBlockSize pos len)) r pos' out') :
    ReadEnd ans s nd pos len out r pos' out' := by
  have hle : chunk naiveBlockSize pos len ≤ len := chunk_le
  have hpos : 0 < chunk naiveBlockSize pos len := chunk_pos _ (by decide) hlen
  generalize hn : chunk naiveBlockSize pos len = n at h hle hpos
  have hnext : ∀ i, ReadFails ans nd (pos + n) (len - n) i ↔
      ReadFails ans nd pos len i ∧ pos / naiveBlockSize < i := fun i => by
    rw [← hn]
    exact readFails_next hblock hok
  cases h with
  | @done m hm hno =>
    have hbytes : (out ++ (s.content nd).slice pos n) ++ (s.content nd).slice (pos + n) m =
        out ++ (s.content nd).slice pos (n + m) := by
      rw [List.append_assoc, ← slice_add]
    have hlength : (out ++ (s.content nd).slice pos n).length + m = out.length + (n + m) := by
      rw [List.length_append, length_slice]
      omega
    rw [hbytes, hlength, Nat.add_assoc]
    refine .done (by omega) fun i hf => ?_
    rcases Nat.eq_or_lt_of_le hf.reach.visits.2.1 with rfl | hgt
    · exact hf.fails hok
    · exact hno i ((hnext i).mpr ⟨hf, hgt⟩)
  | atFirst hneg hf =>
    obtain ⟨hf', hlt⟩ := (hnext _).mp hf
    exact .atLater hneg (by omega) hlt hf'
  | atLater hneg hmoved _ hf =>
    obtain ⟨hf', hlt⟩ := (hnext _).mp hf
    exact .atLater hneg (by omega) hlt hf'

/-- A read that comes to a slot without a block is done. -/
theorem ReadEnd.stop {pos len : Nat} {out : List Byte}
    (h : 0 < len → ¬ nd.HasBlock (pos / naiveBlockSize)) :
    ReadEnd ans s nd pos len out out.length pos out := by
  have hdone : ReadEnd ans s nd pos len out ((out.length + 0 : Nat) : Int) (pos + 0)
      (out ++ (s.content nd).slice pos 0) := by
    refine .done (Nat.zero_le _) fun i hf => ?_
    have hno := h hf.reach.visits.1
    obtain rfl := hf.reach.eq_first fun hok => hno hok.1
    exact hno hf.block
  rwa [slice_zero, List.append_nil] at hdone

/-- The read loop within the size limit ends in one of these ways. -/
theorem fileReadLoop_ends (ans : Answers) (hnd : s.inodes id = some nd) {fuel pos len : Nat}
    {out : List Byte} (hfuel : len ≤ fuel) (hend : pos + len ≤ 4096) :
    ∃ r pos' out', (fileReadLoop id fuel pos len out).exec ans s = .ok ((r, pos', out'), s) ∧
      ReadEnd ans s nd pos len out r pos' out' := by
  induction fuel generalizing pos len out with
  | zero =>
    obtain rfl : len = 0 := by omega
    exact ⟨_, _, _, rfl, .stop fun h => absurd h (Nat.lt_irrefl 0)⟩
  | succ fuel ih =>
    rw [fileReadLoop]
    by_cases hlen : len = 0
    · rw [if_pos hlen]
      exact ⟨_, _, _, rfl, .stop fun h => absurd hlen (by omega)⟩
    have hk8 : pos / naiveBlockSize < 8 := by
      unfold naiveBlockSize
      omega
    rw [if_neg hlen, Prog.exec_bind_of (exec_inode hnd)]
    dsimp only
    rw [blockIndex_eq hk8]
    by_cases hcount : ((pos / naiveBlockSize : Nat) : Int) ≥ nd.blockCount
    · rw [if_pos hcount]
      exact ⟨_, _, _, rfl, .stop fun _ hblock => absurd hblock.1 (by omega)⟩
    rw [if_neg hcount, Prog.exec_bind_of (exec_pointer hk8)]
    by_cases hp : nd.blockPointers (pos / naiveBlockSize) = 0
    · rw [if_pos hp]
      exact ⟨_, _, _, rfl, .stop fun _ hblock => hblock.2 hp⟩
    rw [if_neg hp]
    have hblock : nd.HasBlock (pos / naiveBlockSize) := ⟨by omega, hp⟩
    have hfirst (hbad : ¬ ReadOk ans nd (pos / naiveBlockSize)) :
        ReadFails ans nd pos len (pos / naiveBlockSize) := ⟨.first (by omega), hblock, hbad⟩
    cases hread : ans (.sbBread .fileRead (pos / naiveBlockSize)
        (nd.blockPointers (pos / naiveBlockSize))) with
    | false =>
      rw [Prog.exec_bind_of (exec_sbBread_fail hread), if_pos (by decide)]
      refine ⟨_, _, _, rfl, .atFirst (by decide) (hfirst fun hok => ?_)⟩
      rw [hok.1] at hread
      cases hread
    | true =>
      rw [Prog.exec_bind_of (exec_sbBread_ok hread), if_neg (by decide),
        Prog.exec_bind_of exec_bData, Prog.exec_ask_bind, Prog.exec_bind_of exec_brelse,
        FS.addRef_cancel]
      by_cases hcopy : ans (.copyToUser (pos / naiveBlockSize)) = (0 : Nat)
      · rw [if_neg (not_not.mpr hcopy)]
        -- one block is copied; what the user has is the file from the start of the loop on
        have hslice : (s.slotBlock nd (pos / naiveBlockSize)).slice (pos % naiveBlockSize)
            (chunk naiveBlockSize pos len) = (s.content nd).slice pos _ :=
              slice_block chunk_le_block
        have hpos : 0 < chunk naiveBlockSize pos len := chunk_pos _ (by decide) (by omega)
        have hle : chunk naiveBlockSize pos len ≤ len := chunk_le
        obtain ⟨r, pos', out', hexec, hends⟩ := @ih
          (pos + chunk naiveBlockSize pos len) (len - chunk naiveBlockSize pos len)
          (out ++ (s.content nd).slice pos (chunk naiveBlockSize pos len)) (by omega) (by omega)
        refine ⟨r, pos', out', ?_, hends.next (by omega) hblock ⟨hread, hcopy⟩⟩
        rw [← hexec, ← hslice]
        rfl
      · rw [if_pos hcopy]
        exact ⟨_, _, _, rfl, .atFirst (by decide) (hfirst fun hok => hcopy hok.2)⟩

/-- The bytes a read asks for: no more than the file has from `pos` on. -/
def Inode.readLen (nd : Inode) (len pos : Nat) : Nat := min len (nd.iSize - pos).toNat

/-- A read reports what it did exactly when it does not fail behind its first block. -/
theorem read_reports_iff (hfile : FileState s id nd) (ans : Answers) (len pos : Nat) :
    Reports ans s id nd (.read len pos) ↔
      ∀ i, pos / naiveBlockSize < i → ¬ ReadFails ans nd pos (nd.readLen len pos) i := by
  have hsize := hfile.size
  unfold naiveMaxFileSize naiveBlockSize naiveBlockPerFile at hsize
  obtain ⟨r, pos', out, hexec, hends⟩ : ∃ r pos' out,
      (naiveFileRead id len pos).exec ans s = .ok ((r, pos', out), s) ∧
      ReadEnd ans s nd pos (nd.readLen len pos) [] r pos' out := by
    rw [naiveFileRead, Prog.exec_bind_of (exec_inode hfile.node)]
    by_cases hend : (pos : Int) ≥ nd.iSize
    · rw [if_pos hend]
      refine ⟨_, _, _, rfl, .stop fun hlen => absurd hlen ?_⟩
      unfold Inode.readLen
      omega
    · have hlen : min len (toU64 (nd.iSize - pos)) = nd.readLen len pos := by
        unfold Inode.readLen toU64
        omega
      rw [if_neg hend]
      dsimp only
      rw [hlen]
      apply fileReadLoop_ends ans hfile.node (Nat.le_refl _)
      unfold Inode.readLen
      omega
  have hsound : Reports ans s id nd (.read len pos) ↔ ReadReport s nd pos r pos' out s := by
    constructor
    · rintro ⟨r', pos'', out', t, hexec', hreport⟩
      rw [hexec] at hexec'
      cases hexec'
      exact hreport
    · exact fun hreport => ⟨r, pos', out, s, hexec, hreport⟩
  rw [hsound]
  cases hends with
  | @done n _ hno =>
    refine iff_of_true ⟨fun _ => by simp, fun _ => ?_, fun hneg => ?_, rfl⟩ fun i _ => hno i
    · rw [List.nil_append, List.length_nil, Nat.zero_add, Int.toNat_natCast]
    · omega
  | atFirst hneg hfail =>
    refine iff_of_true ⟨fun h0 => by omega, fun h0 => by omega, fun _ => rfl, rfl⟩ fun i hi hf => ?_
    exact hfail.fails (hf.reach.before _ (Nat.le_refl _) hi).2
  | @atLater r pos' i out hneg hmoved hi hfail =>
    refine iff_of_false (fun hreport => ?_) fun hno => hno i hi hfail
    have := hreport.kept hneg
    omega

end Read

/-! ## Storing bytes -/

section PutBytes

variable {nd : Inode} {c : Nat → Bytes} {pos : Nat} {xs ys : List Byte}

theorem putBytes_append : putBytes nd pos (xs ++ ys) c =
    putBytes nd (pos + xs.length) ys (putBytes nd pos xs c) := by
  induction xs generalizing pos c with
  | nil => rfl
  | cons x xs ih =>
    rw [List.cons_append, putBytes, ih, putBytes, List.length_cons,
      show pos + 1 + xs.length = pos + (xs.length + 1) by omega]

/-- Within one block, storing bytes is one store into the block. -/
theorem putBytes_block (hxs : xs.length ≤ naiveBlockSize - pos % naiveBlockSize) :
    putBytes nd pos xs c = Function.update c (toU64 (nd.blockPointers (pos / naiveBlockSize)))
      ((c (toU64 (nd.blockPointers (pos / naiveBlockSize)))).blit (pos % naiveBlockSize) xs) := by
  have hnil (v : Bytes) (off : Nat) : v.blit off [] = v :=
    funext fun i => blit_out (by rw [List.length_nil]; omega)
  have hone (v : Bytes) (off : Nat) (x : Byte) :
      (Function.update v off x : Bytes) = v.blit off [x] := by
    funext i
    by_cases hi : i = off
    · subst hi
      rw [Function.update_self, blit_in (Nat.le_refl _) (by simp)]
      simp
    · rw [Function.update_of_ne hi, blit_out (by rw [List.length_singleton]; omega)]
  induction xs generalizing pos c with
  | nil => rw [putBytes, hnil, Function.update_eq_self]
  | cons x xs ih =>
    rw [putBytes, hone]
    cases xs with
    | nil => rfl
    | cons y ys =>
      rw [List.length_cons, List.length_cons] at hxs
      have hdiv : (pos + 1) / naiveBlockSize = pos / naiveBlockSize := by
        unfold naiveBlockSize at *
        omega
      have hmod : (pos + 1) % naiveBlockSize = pos % naiveBlockSize + 1 := by
        unfold naiveBlockSize at *
        omega
      rw [ih (by rw [List.length_cons, hmod]; omega), hdiv, hmod, Function.update_self,
        Function.update_idem]
      congr 1
      exact blit_append _ _ [x] (y :: ys)

/-- Bytes that are there already change nothing. -/
theorem putBytes_same {s : FS} (h : xs = (s.content nd).slice pos xs.length) :
    putBytes nd pos xs s.cache = s.cache := by
  induction xs generalizing pos with
  | nil => rfl
  | cons x xs ih =>
    rw [List.length_cons, slice_succ] at h
    obtain ⟨hx, hxs⟩ := List.cons.inj h
    have hbyte : x = s.cache (toU64 (nd.blockPointers (pos / naiveBlockSize)))
        (pos % naiveBlockSize) := hx
    rw [putBytes, hbyte, Function.update_eq_self, Function.update_eq_self]
    exact ih hxs

end PutBytes

/-! ## Writing -/

section Write

variable {ans : Answers} {s t : FS} {id : Nat} {nd : Inode}

/-- The loop fails at block `i`, with the ones before it written. -/
structure WriteFails (ans : Answers) (nd : Inode) (pos len i : Nat) : Prop where
  reach : Reaches naiveBlockSize (WriteOk ans nd) pos len i
  fails : ¬ WriteOk ans nd i

/-- How the copy loop ends. -/
inductive WriteEnd (ans : Answers) (nd : Inode) (pos : Nat) (data : List Byte) (ret : Int)
    (c : Nat → Bytes) : Int → Nat → (Nat → Bytes) → Prop where
  | done (ok : ∀ i, ¬ WriteFails ans nd pos data.length i) :
      WriteEnd ans nd pos data ret c (ret + data.length) (pos + data.length)
        (putBytes nd pos data c)
  | atFirst {r : Int} (neg : r < 0)
      (fail : WriteFails ans nd pos data.length (pos / naiveBlockSize)) :
      WriteEnd ans nd pos data ret c r pos
        (putBytes nd pos (faultStore ans nd pos data) c)
  | atLater {r : Int} {pos' i : Nat} {c' : Nat → Bytes} (neg : r < 0) (moved : pos < pos')
      (index : pos / naiveBlockSize < i) (fail : WriteFails ans nd pos data.length i) :
      WriteEnd ans nd pos data ret c r pos' c'

/-- The rest of the loop, from the next block on, seen from this one. -/
theorem WriteEnd.next {pos n pos' : Nat} {data : List Byte} {ret r : Int} {c c' : Nat → Bytes}
    (hn : chunk naiveBlockSize pos data.length = n) (hlen : 0 < data.length)
    (hok : WriteOk ans nd (pos / naiveBlockSize))
    (h : WriteEnd ans nd (pos + n) (data.drop n) (ret + n) (putBytes nd pos (data.take n) c)
      r pos' c') : WriteEnd ans nd pos data ret c r pos' c' := by
  have hle : chunk naiveBlockSize pos data.length ≤ data.length := chunk_le
  have hpos : 0 < chunk naiveBlockSize pos data.length := chunk_pos _ (by decide) hlen
  have hdrop : (data.drop n).length = data.length - n := List.length_drop
  have htake : (data.take n).length = n := by
    rw [List.length_take]
    omega
  have hnext : ∀ i, WriteFails ans nd (pos + n) (data.drop n).length i ↔
      WriteFails ans nd pos data.length i ∧ pos / naiveBlockSize < i := by
    intro i
    have hreach : Reaches naiveBlockSize (WriteOk ans nd) _ _ i ↔ _ :=
      reaches_next pos data.length (by decide) hok
    rw [hn, ← hdrop] at hreach
    constructor
    · intro hf
      obtain ⟨hr, hlt⟩ := hreach.mp hf.reach
      exact ⟨⟨hr, hf.fails⟩, hlt⟩
    · rintro ⟨hf, hlt⟩
      exact ⟨hreach.mpr ⟨hf.reach, hlt⟩, hf.fails⟩
  cases h with
  | done hno =>
    have hput : putBytes nd (pos + n) (data.drop n) (putBytes nd pos (data.take n) c) =
        putBytes nd pos data c := by
      rw [← congrArg (putBytes nd pos · c) (List.take_append_drop n data), putBytes_append, htake]
    rw [hput, show ret + n + (data.drop n).length = ret + data.length by omega,
      show pos + n + (data.drop n).length = pos + data.length by omega]
    refine .done fun i hf => ?_
    rcases Nat.eq_or_lt_of_le hf.reach.visits.2.1 with rfl | hgt
    · exact hf.fails hok
    · exact hno i ((hnext i).mpr ⟨hf, hgt⟩)
  | atFirst hneg hf =>
    obtain ⟨hf', hlt⟩ := (hnext _).mp hf
    exact .atLater hneg (by omega) hlt hf'
  | atLater hneg hmoved _ hf =>
    obtain ⟨hf', hlt⟩ := (hnext _).mp hf
    exact .atLater hneg (by omega) hlt hf'

/-- A write of nothing is done. -/
theorem WriteEnd.nothing {pos : Nat} {ret : Int} {c : Nat → Bytes} :
    WriteEnd ans nd pos [] ret c ret pos c := by
  have hdone : WriteEnd ans nd pos [] ret c (ret + ([] : List Byte).length)
      (pos + ([] : List Byte).length) (putBytes nd pos [] c) :=
    .done fun i hf => Nat.lt_irrefl 0 hf.reach.visits.1
  rwa [List.length_nil, Nat.add_zero, Int.natCast_zero, Int.add_zero, putBytes] at hdone

/-- The copy loop within the size limit ends in one of these ways. -/
theorem fileWriteLoop_ends (ans : Answers) (hnd : s.inodes id = some nd) {fuel pos : Nat}
    {data : List Byte} (ret : Int) (hfuel : data.length ≤ fuel) (hend : pos + data.length ≤ 4096) :
    ∃ r pos' t, (fileWriteLoop id fuel pos data ret).exec ans s = .ok ((r, pos'), t) ∧
      WriteEnd ans nd pos data ret s.cache r pos' t.cache := by
  induction fuel generalizing s pos data ret with
  | zero =>
    obtain rfl : data = [] := List.length_eq_zero_iff.mp (by omega)
    exact ⟨_, _, _, rfl, .nothing⟩
  | succ fuel ih =>
    rw [fileWriteLoop]
    by_cases hdata : data = []
    · rw [if_pos hdata, hdata]
      exact ⟨_, _, _, rfl, .nothing⟩
    have hlen : 0 < data.length := List.length_pos_iff.mpr hdata
    have hk8 : pos / naiveBlockSize < 8 := by
      unfold naiveBlockSize
      omega
    have hfirst (hbad : ¬ WriteOk ans nd (pos / naiveBlockSize)) :
        WriteFails ans nd pos data.length (pos / naiveBlockSize) := ⟨.first hlen, hbad⟩
    -- no byte of the first block is copied where the loop stops before the copy
    have hstop {r : Int} (hneg : r < 0) (hbad : ¬ WriteOk ans nd (pos / naiveBlockSize))
        (hnone : faultStore ans nd pos data = []) :
        WriteEnd ans nd pos data ret s.cache r pos s.cache := by
      have hat : WriteEnd ans nd pos data ret s.cache r pos _ := .atFirst hneg (hfirst hbad)
      rwa [hnone, putBytes] at hat
    rw [if_neg hdata, Prog.exec_bind_of (exec_inode hnd)]
    dsimp only
    rw [blockIndex_eq hk8]
    by_cases hcount : ((pos / naiveBlockSize : Nat) : Int) ≥ nd.blockCount
    · rw [if_pos hcount]
      refine ⟨_, _, _, rfl, hstop (by decide) (fun hok => ?_) (if_neg fun hin => ?_)⟩
      · exact absurd hok.count (by omega)
      · exact absurd hin.1 (by omega)
    rw [if_neg hcount, Prog.exec_bind_of (exec_pointer hk8)]
    cases hread : ans (.sbBread .fileWrite (pos / naiveBlockSize)
        (nd.blockPointers (pos / naiveBlockSize))) with
    | false =>
      rw [Prog.exec_bind_of (exec_sbBread_fail hread), if_pos (by decide)]
      refine ⟨_, _, _, rfl, hstop (by decide) (fun hok => ?_) (if_neg fun hin => ?_)⟩
      · rw [hok.read] at hread
        cases hread
      · rw [hin.2] at hread
        cases hread
    | true =>
      rw [Prog.exec_bind_of (exec_sbBread_ok hread), if_neg (by decide),
        Prog.exec_bind_of exec_bData, Prog.exec_ask_bind]
      generalize hn : min data.length (naiveBlockSize - pos % naiveBlockSize) = n
      by_cases hcopy : ans (.copyFromUser (pos / naiveBlockSize)) = (0 : Nat)
      · rw [if_neg (not_not.mpr hcopy), Prog.exec_bind_of exec_putData, FS.writeBlock_addRef,
          Prog.exec_bind_of exec_brelse, FS.addRef_cancel, FS.block_addRef]
        have hput : (s.writeBlock (nd.blockPointers (pos / naiveBlockSize))
            ((s.block (nd.blockPointers (pos / naiveBlockSize))).blit (pos % naiveBlockSize)
              (data.take n))).cache = putBytes nd pos (data.take n) s.cache := by
          rw [putBytes_block]
          · rfl
          · rw [List.length_take]
            omega
        have hdrop : (data.drop n).length = data.length - n := List.length_drop
        have hpos : 0 < n := by
          unfold naiveBlockSize at hn
          omega
        obtain ⟨r, pos', t, hexec, hends⟩ := @ih
          (s.writeBlock (nd.blockPointers (pos / naiveBlockSize)) _) hnd
          (pos + n) (data.drop n) (ret + n) (by omega) (by omega)
        refine ⟨r, pos', t, hexec, ?_⟩
        rw [hput] at hends
        exact hends.next hn hlen ⟨by omega, hread, hcopy⟩
      · rw [if_pos hcopy]
        have hshort : faultStore ans nd pos data =
            copiedFromUser data n (ans (.copyFromUser (pos / naiveBlockSize))) := by
          rw [faultStore, if_pos ⟨by omega, hread⟩, chunk, hn]
        have hat : WriteEnd ans nd pos data ret s.cache (-EFAULT) pos _ :=
          .atFirst (by decide) (hfirst fun hok => hcopy hok.copy)
        rw [hshort, putBytes_block (by rw [length_copiedFromUser (by omega)]; omega)] at hat
        exact ⟨_, _, _, rfl, hat⟩

/-- The data part of a write after its copy loop. -/
theorem exec_fileWriteData {data : List Byte} {pos pos' : Nat} {r : Int}
    (hnd : s.inodes id = some nd)
    (hloop : (fileWriteLoop id data.length pos data 0).exec ans s = .ok ((r, pos'), t)) :
    ∃ u nd', (fileWriteData id data pos).exec ans s = .ok ((r, pos'), u) ∧
      u.inodes id = some nd' ∧ nd.SameBlocks nd' ∧ nd'.iSize = max nd.iSize pos' ∧
      u.cache = t.cache ∧ u.sbi = s.sbi := by
  have hdata := fileWriteLoop_data hnd hloop
  have ht : t.inodes id = some nd := by rw [hdata.inodes, hnd]
  rw [fileWriteData, Prog.exec_bind_of hloop]
  dsimp only
  rw [Prog.exec_bind_of (exec_inode ht)]
  by_cases hgrow : (pos' : Int) > nd.iSize
  · rw [if_pos hgrow, Prog.exec_bind_of (exec_updInode ht), Prog.exec_bind_of exec_ktime,
      Prog.exec_bind_of (exec_updInode FS.inodes_setInode_self), FS.setInode_setInode]
    refine ⟨_, _, rfl, FS.inodes_setInode_self, ⟨rfl, rfl, rfl, rfl⟩, ?_, rfl, hdata.sbi⟩
    exact (Int.max_eq_right hgrow.le).symm
  · rw [if_neg hgrow, Prog.exec_bind_of exec_ktime, Prog.exec_bind_of (exec_updInode ht)]
    refine ⟨_, _, rfl, FS.inodes_setInode_self, ⟨rfl, rfl, rfl, rfl⟩, ?_, rfl, hdata.sbi⟩
    exact (Int.max_eq_left (not_lt.mp hgrow)).symm

theorem putBytes_congr {nd' : Inode} (h : nd'.blockPointers = nd.blockPointers) (q : Nat)
    (xs : List Byte) (c : Nat → Bytes) : putBytes nd' q xs c = putBytes nd q xs c := by
  induction xs generalizing q c with
  | nil => rfl
  | cons x xs ih => rw [putBytes, putBytes, ih, h]

/-- The blocks a write that ends at byte `total` wants to add. -/
def Inode.newBlocks (nd : Inode) (total : Nat) : Nat :=
  (total + naiveBlockSize - 1) / naiveBlockSize - nd.iSize.toNat / naiveBlockSize

/-- The conditions under which a call reports what it did. A read does not fail behind
its first block. A write within the file does not either, and what it stores in its
first block when that fails was there before. A write that grows the file attaches no
block, or all it wants and then copies without failing. -/
def Transfer.Sound (ans : Answers) (s : FS) (nd : Inode) : Transfer → Prop
  | .read len pos => ∀ i, pos / naiveBlockSize < i → ¬ ReadFails ans nd pos (nd.readLen len pos) i
  | .write data pos =>
    if naiveMaxFileSize < pos + data.length then True
    else if ((pos + data.length : Nat) : Int) ≤ nd.iSize then
      (∀ i, pos / naiveBlockSize < i → ¬ WriteFails ans nd pos data.length i) ∧
        (WriteFails ans nd pos data.length (pos / naiveBlockSize) →
          faultStore ans nd pos data =
            (s.content nd).slice pos (faultStore ans nd pos data).length)
    else
      let l := attached s nd (nd.newBlocks (pos + data.length))
      l = [] ∨ l.length = nd.newBlocks (pos + data.length) ∧
        ∀ i, ¬ WriteFails ans (nd.attach l) pos data.length i

/-- The sum of the offset and the length fits the types of the arguments. -/
def Transfer.Fits : Transfer → Prop
  | .read _ _ => True
  | .write data pos => pos + data.length < 2 ^ 64

/-- What a call that is known to end reports. -/
theorem reports_write_iff {data : List Byte} {pos pos' : Nat} {r : Int}
    (h : (naiveFileWrite id data pos).exec ans s = .ok ((r, pos'), t)) :
    Reports ans s id nd (.write data pos) ↔ WriteReport s id nd data pos r pos' t := by
  constructor
  · rintro ⟨r', pos'', t', h', hreport⟩
    rw [h] at h'
    cases h'
    exact hreport
  · exact fun hreport => ⟨r, pos', t, h, hreport⟩

/-- A failed call that left the state alone reports so. -/
theorem WriteReport.refl {data : List Byte} {pos : Nat} {r : Int} (hnd : s.inodes id = some nd)
    (hneg : r < 0) : WriteReport s id nd data pos r pos s :=
  ⟨fun h => absurd h (by omega), fun h => absurd h (by omega), fun _ => rfl,
    fun _ => ⟨nd, hnd, rfl, rfl, rfl⟩, fun _ => rfl, fun _ _ _ => rfl⟩

/-- A write within the file. -/
theorem fileWriteData_report {data : List Byte} {pos pos' : Nat} {r : Int} {u : FS}
    {nd' : Inode} (hnd : u.inodes id = some nd') (hsame : nd.SameBlocks nd')
    (hsize : nd'.iSize = max nd.iSize pos') (hsbi : u.sbi = s.sbi)
    (hin : ((pos + data.length : Nat) : Int) ≤ nd.iSize)
    (hends : WriteEnd ans nd pos data 0 s.cache r pos' u.cache) :
    WriteReport s id nd data pos r pos' u ↔
      (∀ i, pos / naiveBlockSize < i → ¬ WriteFails ans nd pos data.length i) ∧
        (WriteFails ans nd pos data.length (pos / naiveBlockSize) →
          faultStore ans nd pos data =
            (s.content nd).slice pos (faultStore ans nd pos data).length) := by
  generalize hcache : u.cache = c at hends
  cases hends with
  | done hno =>
    refine iff_of_true ⟨fun _ => by push_cast; omega, fun _ => ?_, fun hneg => by omega,
      fun hneg => by omega, fun hneg => by omega, fun hneg => by omega⟩
      ⟨fun i _ => hno i, fun hf => absurd hf (hno _)⟩
    refine ⟨by omega, nd', hnd, ?_⟩
    rw [hcache, putBytes_congr hsame.blockPointers, List.take_of_length_le (by omega)]
  | atFirst hneg hf =>
    have hlen : (faultStore ans nd pos data).length ≤
        min data.length (naiveBlockSize - pos % naiveBlockSize) := length_faultStore_le
    have hat : ∀ i, pos / naiveBlockSize < i → ¬ WriteFails ans nd pos data.length i :=
      fun i hi hf' => hf.fails (hf'.reach.before _ (Nat.le_refl _) hi)
    constructor
    · -- the bytes of the file are as before, those that were stored in the first block too
      intro hreport
      refine ⟨hat, fun _ => ?_⟩
      have hkept := hreport.bytes hneg
      have hblock : u.slotBlock nd (pos / naiveBlockSize) =
          (s.slotBlock nd (pos / naiveBlockSize)).blit (pos % naiveBlockSize)
            (faultStore ans nd pos data) := by
        show u.cache _ = _
        rw [hcache, putBytes_block (by omega), Function.update_self]
        rfl
      have hslice := slice_blit_self (s.slotBlock nd (pos / naiveBlockSize)) (pos % naiveBlockSize)
        (faultStore ans nd pos data)
      rw [← hblock, slice_block (n := (faultStore ans nd pos data).length) (by omega)] at hslice
      exact hslice.symm.trans (slice_congr fun i hi => hkept _ (by omega))
    · rintro ⟨-, hsame'⟩
      have hput : u.cache = s.cache := by
        rw [hcache]
        exact putBytes_same (hsame' hf)
      refine ⟨fun h0 => by omega, fun h0 => by omega, fun _ => rfl, fun _ => ⟨nd', hnd, ?_,
        hsame.blockCount, hsame.blockPointers⟩, fun _ => by rw [hsbi], fun _ q _ => ?_⟩
      · omega
      · exact content_of_pointers hput rfl
  | @atLater r pos' i c hneg hmoved hi hf =>
    refine iff_of_false (fun hreport => ?_) fun hno => hno.1 i hi hf
    have := hreport.kept hneg
    omega

/-- A write that has grown the file by `l`. -/
theorem grown_report {data : List Byte} {pos pos' : Nat} {r : Int} {l : List Nat} {u : FS}
    {nd' : Inode} (hl : l ≠ []) (hnd : u.inodes id = some nd')
    (hsame : (nd.attach l).SameBlocks nd')
    (hends : WriteEnd ans (nd.attach l) pos data 0 s.cache r pos' u.cache) :
    WriteReport s id nd data pos r pos' u ↔
      ∀ i, ¬ WriteFails ans (nd.attach l) pos data.length i := by
  have hgrown (h : WriteReport s id nd data pos r pos' u) : 0 ≤ r := by
    by_contra hneg
    obtain ⟨e, he, -, hcount, -⟩ := h.inode (by omega)
    obtain rfl := Option.some.inj (hnd.symm.trans he)
    have hpos : 0 < l.length := List.length_pos_iff.mpr hl
    rw [hsame.blockCount, blockCount_attach] at hcount
    omega
  generalize hcache : u.cache = c at hends
  cases hends with
  | done hno =>
    refine iff_of_true ⟨fun _ => by push_cast; omega, fun _ => ?_, fun hneg => by omega,
      fun hneg => by omega, fun hneg => by omega, fun hneg => by omega⟩ hno
    refine ⟨by omega, nd', hnd, ?_⟩
    rw [hcache, putBytes_congr hsame.blockPointers, List.take_of_length_le (by omega)]
  | atFirst hneg hf =>
    exact iff_of_false (fun h => absurd (hgrown h) (by omega)) fun hno => hno _ hf
  | @atLater r pos' i c hneg _ _ hf =>
    exact iff_of_false (fun h => absurd (hgrown h) (by omega)) fun hno => hno i hf

/-- The four ways through `naive_file_write`, each with its outcome. -/
inductive WriteRun (ans : Answers) (s : FS) (id : Nat) (nd : Inode) (data : List Byte) (pos : Nat) :
    Except Fault ((Int × Nat) × FS) → Prop where
  | tooBig (big : naiveMaxFileSize < pos + data.length) :
      WriteRun ans s id nd data pos (.ok ((-EFBIG, pos), s))
  | within (small : pos + data.length ≤ 4096) (fit : ((pos + data.length : Nat) : Int) ≤ nd.iSize) :
      WriteRun ans s id nd data pos ((fileWriteData id data pos).exec ans s)
  | short {l : List Nat} (small : pos + data.length ≤ 4096)
      (grow : nd.iSize < (pos + data.length : Nat))
      (blocks : l = attached s nd (nd.newBlocks (pos + data.length)))
      (few : l.length ≠ nd.newBlocks (pos + data.length)) :
      WriteRun ans s id nd data pos
        (.ok ((-ENOSPC, pos), (s.markAll l).setInode id (nd.attach l)))
  | grown {l : List Nat} (small : pos + data.length ≤ 4096)
      (grow : nd.iSize < (pos + data.length : Nat))
      (blocks : l = attached s nd (nd.newBlocks (pos + data.length)))
      (all : l.length = nd.newBlocks (pos + data.length)) :
      WriteRun ans s id nd data pos
        ((fileWriteData id data pos).exec ans ((s.markAll l).setInode id (nd.attach l)))

theorem naiveFileWrite_run (hfile : FileState s id nd) (ans : Answers) {data : List Byte}
    {pos : Nat}
    (hfits : pos + data.length < 2 ^ 64) :
    WriteRun ans s id nd data pos ((naiveFileWrite id data pos).exec ans s) := by
  have hsize := hfile.size
  have htotal : toU64 ((pos : Int) + data.length) = pos + data.length := by
    unfold toU64
    omega
  have hisize : (toU64 nd.iSize : Int) = nd.iSize := by
    unfold naiveMaxFileSize naiveBlockSize naiveBlockPerFile at hsize
    unfold toU64
    omega
  rw [naiveFileWrite, Prog.exec_bind_of (exec_inode hfile.node)]
  dsimp only
  rw [htotal]
  by_cases hbig : pos + data.length > naiveMaxFileSize
  · rw [if_pos hbig]
    exact .tooBig hbig
  rw [if_neg hbig]
  have hend : pos + data.length ≤ 4096 := not_lt.mp hbig
  by_cases hgrow : nd.iSize < ((pos + data.length : Nat) : Int)
  · have hneeded : (neededBlocks nd.iSize pos data.length).toNat =
        nd.newBlocks (pos + data.length) := by
      rw [neededBlocks_eq hsize.1 hsize.2 (not_lt.mp hbig)]
      unfold Inode.newBlocks naiveBlockSize
      omega
    have halloc := exec_fileWriteAlloc hfile.scannable ans hfile.node hfile.count
      (nd.newBlocks (pos + data.length))
    rw [if_pos (by omega), hneeded, Prog.exec_bind_of halloc]
    by_cases hall : (attached s nd (nd.newBlocks (pos + data.length))).length =
        nd.newBlocks (pos + data.length)
    · rw [if_pos hall, if_neg (by decide)]
      exact .grown hend hgrow rfl hall
    · rw [if_neg hall, if_pos (by decide)]
      exact .short hend hgrow rfl hall
  · rw [if_neg (by omega)]
    exact .within hend (not_lt.mp hgrow)

/-- A file that grows wants a block. -/
theorem Inode.newBlocks_pos {total : Nat} (hsize : 0 ≤ nd.iSize) (h : nd.iSize < total) :
    0 < nd.newBlocks total := by
  unfold Inode.newBlocks naiveBlockSize
  omega

/-- A write reports what it did exactly under these conditions. -/
theorem write_reports_iff (hfile : FileState s id nd) (ans : Answers) (data : List Byte) (pos : Nat)
    (hfits : pos + data.length < 2 ^ 64) :
    Reports ans s id nd (.write data pos) ↔ Transfer.Sound ans s nd (.write data pos) := by
  have hmax : naiveMaxFileSize = 4096 := rfl
  have hrun := naiveFileWrite_run hfile ans hfits
  rw [Transfer.Sound]
  generalize hexec : (naiveFileWrite id data pos).exec ans s = res at hrun
  cases hrun with
  | tooBig hbig =>
    rw [if_pos hbig, reports_write_iff hexec]
    exact iff_of_true (.refl hfile.node (by decide)) trivial
  | within hend hin =>
    rw [if_neg (by omega), if_pos hin]
    obtain ⟨r, pos', t, hloop, hends⟩ := fileWriteLoop_ends ans hfile.node 0
      (Nat.le_refl _) hend
    obtain ⟨u, nd', hdata, hnd', hsame, hsize, hcache, hsbi⟩ := exec_fileWriteData hfile.node hloop
    rw [reports_write_iff (hexec.trans hdata)]
    rw [← hcache] at hends
    exact fileWriteData_report hnd' hsame hsize hsbi hin hends
  | short hend hgrow hblocks hfew =>
    rw [if_neg (by omega), if_neg (by omega), reports_write_iff hexec, ← hblocks]
    constructor
    · intro hreport
      obtain ⟨e, he, -, hcount, -⟩ := hreport.inode (by decide)
      obtain rfl := Option.some.inj (FS.inodes_setInode_self.symm.trans he)
      rw [blockCount_attach] at hcount
      exact .inl (List.length_eq_zero_iff.mp (by omega))
    · rintro (rfl | ⟨hlen, -⟩)
      · rw [FS.markAll, Inode.attach, FS.setInode_self hfile.node]
        exact .refl hfile.node (by decide)
      · exact absurd hlen hfew
  | @grown l hend hgrow hblocks hall =>
    have hnew := Inode.newBlocks_pos hfile.size.1 hgrow
    have hl : l ≠ [] := by
      intro hnil
      rw [hnil, List.length_nil] at hall
      omega
    obtain ⟨r, pos', t, hloop, hends⟩ := fileWriteLoop_ends ans
      (s := (s.markAll l).setInode id (nd.attach l)) FS.inodes_setInode_self 0 (Nat.le_refl _) hend
    obtain ⟨u, nd', hdata, hnd', hsame, -, hcache, -⟩ :=
      exec_fileWriteData FS.inodes_setInode_self hloop
    have hsource : ((s.markAll l).setInode id (nd.attach l)).cache = s.cache := FS.cache_markAll
    rw [← hcache, hsource] at hends
    rw [if_neg (by omega), if_neg (by omega), reports_write_iff (hexec.trans hdata), ← hblocks,
      grown_report hl hnd' hsame hends, or_iff_right hl, and_iff_right hall]

/-- A read or a write of any file, whatever fails in it, reports what it did exactly
under these conditions. -/
theorem transfer_reports_iff (hfile : FileState s id nd) (ans : Answers) (c : Transfer)
    (hfits : c.Fits) : Reports ans s id nd c ↔ c.Sound ans s nd := by
  cases c with
  | read len pos => exact read_reports_iff hfile ans len pos
  | write data pos => exact write_reports_iff hfile ans data pos hfits

/-- A file of two blocks. -/
def twoBlocksRun : List (Op × Answers) :=
  [(.create 0 (.letters 1 Nat.one_pos Name.one_le_max) 0o644, Answers.good default 0 0),
    (.write 1 (List.replicate 1000 0x61#8) 0, Answers.good default 0 0)]

/-- The user's bytes for block 1 of the file cannot be read. -/
def secondBlockFaults : Answers
  | .copyFromUser i => if i = 1 then 1 else 0
  | e => Answers.good default 0 0 e

theorem twoBlocksRun_file : ∃ s nd,
    runOps (FS.mounted (sampleDisk 128 1000 4 132) default) twoBlocksRun = .ok s ∧
      FileState s 1 nd ∧
      execTo s (naiveFileWrite 1 (List.replicate 600 0x62#8) 0) secondBlockFaults
        (fun q _ => decide (q = (-EFAULT, 512))) = true := by
  obtain ⟨s, hs, hcheck⟩ := exists_of_runsTo (show runsTo
      (FS.mounted (sampleDisk 128 1000 4 132) default) twoBlocksRun (fun s =>
        (s.inodes 1).any (fun nd => decide ((0 ≤ nd.iSize ∧ nd.iSize ≤ (naiveMaxFileSize : Int)) ∧
          0 ≤ nd.blockCount ∧ nd.blockCount ≤ 8)) &&
        (decide (s.sbi.blockBitmapBlocks = 1 ∧ 0 ≤ s.dataStart ∧ s.totalBlocks ≤ 4096) &&
        execTo s (naiveFileWrite 1 (List.replicate 600 0x62#8) 0) secondBlockFaults
          (fun q _ => decide (q = (-EFAULT, 512))))) = true by decide +kernel)
  simp only [Bool.and_eq_true] at hcheck
  obtain ⟨hfile, hscan, hexec⟩ := hcheck
  obtain ⟨nd, hnd, hfile⟩ := (Option.any_eq_true _ _).mp hfile
  obtain ⟨hsize, hcount⟩ := of_decide_eq_true hfile
  obtain ⟨hbitmap, hstart, htotal⟩ := of_decide_eq_true hscan
  exact ⟨s, nd, hs, ⟨hnd, hsize, hcount, hbitmap, hstart, htotal⟩, hexec⟩

/-- 600 bytes over such a file, with and without a fault. -/
theorem transfer_reports_two_blocks : ∃ s nd,
    runOps (FS.mounted (sampleDisk 128 1000 4 132) default) twoBlocksRun = .ok s ∧
      ∀ ans, (Reports ans s 1 nd (.write (List.replicate 600 0x62#8) 0) ↔
        Transfer.Sound ans s nd (.write (List.replicate 600 0x62#8) 0)) := by
  obtain ⟨s, nd, hs, hfile, -⟩ := twoBlocksRun_file
  refine ⟨s, nd, hs, fun ans => transfer_reports_iff hfile ans _ ?_⟩
  rw [Transfer.Fits, List.length_replicate]
  decide

/-- The write returns an error and has moved the offset over the first block. -/
theorem write_moves_before_error : ∃ s nd,
    runOps (FS.mounted (sampleDisk 128 1000 4 132) default) twoBlocksRun = .ok s ∧
      FileState s 1 nd ∧
      ¬ Reports secondBlockFaults s 1 nd (.write (List.replicate 600 0x62#8) 0) := by
  obtain ⟨s, nd, hs, hfile, hexec⟩ := twoBlocksRun_file
  refine ⟨s, nd, hs, hfile, fun hreports => ?_⟩
  obtain ⟨q, t, hwrite, hq⟩ := exists_of_execTo hexec
  obtain rfl := of_decide_eq_true hq
  have hkept := ((reports_write_iff hwrite).mp hreports).kept (by decide)
  exact absurd hkept (by decide)

end Write

end NaiveFS
