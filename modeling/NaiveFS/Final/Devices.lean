import NaiveFS.Final.Listing
import NaiveFS.Lib.Separation

/-!
# Several devices

Every mounted device of this version works on the one list and the one counter,
so two devices are two users of one machine.
-/

namespace NaiveFS.Final

/-- An operation on a device: a mount, a request on its root or a listing from a
position on. -/
inductive Op where
  | mount (c : FillCalls)
  | request (r : Request)
  | readdir (actor : Actor) (pos : Int)

/-- A return code, the entries emitted and the position left by a listing. -/
structure Reply where
  ret : Int
  emitted : List DirEntry := []
  pos : Int := 0
  deriving DecidableEq

/-- The machine the devices use. -/
def devices : Machine Op Reply Globals
  | .mount c, _ => ({ ret := (naiveFillSuper c).1 }, (naiveFillSuper c).2.2)
  | .request r, g => ({ ret := (r.run g).1 }, (r.run g).2)
  | .readdir actor pos, g =>
    let (emitted, pos) := naiveReaddir actor naiveRootInodeNo pos g
    ({ ret := 0, emitted := emitted, pos := pos }, g)

/-- The operation finds the globals as it would leave them: a listing, a removal
of a name that is not listed, a creation that fails, a mount right after one. -/
def Op.Idle (g : Globals) : Op → Prop
  | mount c => g = (naiveFillSuper c).2.2
  | request (.create c n _) => n.bytes ∈ g.texts ∨ c.newInode = false
  | request (.mkdir c n _) => n.bytes ∈ g.texts ∨ c.newInode = false
  | request (.unlink n) => n.bytes ∉ g.texts
  | request (.rmdir n) => n.bytes ∉ g.texts
  | readdir .. => True

/-! ## Which operations change the globals -/

section Idle

variable {g : Globals}

theorem naiveCreate_idle {c : CreateCalls} {n : Name} {mode : Nat} :
    (naiveCreate c n mode g).2.2 = g ↔ n.bytes ∈ g.texts ∨ c.newInode = false := by
  rcases naiveCreate_cases c n mode g with ⟨hn, h⟩ | ⟨-, hi, h⟩ | ⟨hn, hi, -, hc, -⟩
  · simp [h, hn]
  · simp [h, hi]
  · simp only [hn, hi, Bool.true_eq_false, or_self, iff_false]
    intro heq
    rw [heq] at hc
    -- the counter moves on, also where it wraps
    unfold toInt32 at hc
    omega

theorem naiveUnlink_idle {n : Name} : naiveUnlink n g = g ↔ n.bytes ∉ g.texts := by
  rw [← any_named, naiveUnlink]
  cases g with
  | mk l k =>
    simp only [Globals.mk.injEq, and_true, List.eraseP_eq_self_iff, List.any_eq_true, not_exists,
      not_and]

/-- An operation is idle exactly when it leaves the globals. -/
theorem quiet_iff {o : Op} : devices.Quiet g o ↔ o.Idle g := by
  cases o with
  | mount c => exact eq_comm
  | request r =>
    cases r with
    | create c n mode => exact naiveCreate_idle
    | mkdir c n mode => exact naiveCreate_idle
    | unlink n => exact naiveUnlink_idle
    | rmdir n => exact naiveUnlink_idle
  | readdir actor pos => simp [Machine.Quiet, devices, Op.Idle]

end Idle

/-! ## What listings and creations tell -/

/-- The counter is an `int`. -/
def Globals.Ranged (g : Globals) : Prop := -2 ^ 31 ≤ g.nextInodeNo ∧ g.nextInodeNo < 2 ^ 31

theorem ranged_toInt32 (x : Int) : -2 ^ 31 ≤ toInt32 x ∧ toInt32 x < 2 ^ 31 := by
  unfold toInt32
  omega

theorem Globals.Ranged.naiveCreate {g : Globals} (h : g.Ranged) (c : CreateCalls) (n : Name)
    (mode : Nat) : (naiveCreate c n mode g).2.2.Ranged := by
  rcases naiveCreate_cases c n mode g with ⟨-, hr⟩ | ⟨-, -, hr⟩ | ⟨-, -, -, hc, -⟩
  · rw [hr]
    exact h
  · rw [hr]
    exact h
  · rw [Globals.Ranged, hc]
    exact ranged_toInt32 _

theorem ranged_cleared : cleared.Ranged := by
  simp [Globals.Ranged, cleared]

theorem ranged_naiveFillSuper (c : FillCalls) : (naiveFillSuper c).2.2.Ranged := by
  unfold naiveFillSuper
  split
  · exact ranged_cleared
  · split
    · exact ranged_cleared
    · split
      · exact ranged_cleared
      · split
        · exact ranged_cleared
        · split
          · exact ranged_cleared
          · dsimp only
            split <;> split <;>
              first
                | exact (ranged_cleared.naiveCreate _ _ _).naiveCreate _ _ _
                | exact ranged_cleared.naiveCreate _ _ _
                | exact ranged_cleared

theorem Globals.Ranged.devices {g : Globals} (h : g.Ranged) (o : Op) : (devices o g).2.Ranged := by
  cases o with
  | mount c => exact ranged_naiveFillSuper c
  | request r =>
    cases r with
    | create c n mode => exact h.naiveCreate c n mode
    | mkdir c n mode => exact h.naiveCreate c n _
    | unlink n => exact h
    | rmdir n => exact h
  | readdir actor pos => exact h

/-- The entry as a listing shows it. -/
def FileEntry.shown (e : FileEntry) : DirEntry := ⟨e.text, e.inodeNo, e.isDir⟩

theorem FileEntry.shown_injective : Function.Injective FileEntry.shown := by
  intro e f h
  obtain ⟨ht, hi, hd⟩ := DirEntry.mk.inj h
  exact FileEntry.ext' ht hi hd

/-- A listing with room for everything shows the whole list. -/
theorem emitEntries_all (l : List FileEntry) {pos : Int} (h : 2 ≤ pos) (out : List DirEntry) :
    (emitEntries (fun _ _ => true) l pos out).1 = out ++ l.map FileEntry.shown := by
  induction l generalizing pos out with
  | nil => simp [emitEntries]
  | cons e l ih =>
    rw [emitEntries, if_neg (by omega), if_neg (by simp), ih (by omega)]
    simp [FileEntry.shown]

/-- A listing of the entries behind the two dots. -/
def listing : Op := .readdir (fun _ _ => true) 2

theorem emitted_listing (g : Globals) :
    (devices listing g).1.emitted = g.fileList.map FileEntry.shown := by
  show (naiveReaddir (fun _ _ => true) naiveRootInodeNo 2 g).1 = _
  simp [naiveReaddir, emitEntries_all]

theorem fileList_of_outputs {g f : Globals}
    (h : devices.outputs [listing] g = devices.outputs [listing] f) : g.fileList = f.fileList := by
  have hreply : (devices listing g).1 = (devices listing f).1 := (List.cons.inj h).1
  have hemitted := congrArg Reply.emitted hreply
  rw [emitted_listing, emitted_listing] at hemitted
  exact List.map_injective_iff.mpr FileEntry.shown_injective hemitted

/-- A name no entry can hold. -/
def longName : Name := Name.letters 30 (by decide) (by decide)

theorem longName_not_mem (g : Globals) : longName.bytes ∉ g.texts := by
  intro h
  have := texts_length h
  revert this
  decide

/-- A creation appends the counter to the list. -/
theorem fileList_create (g : Globals) :
    (naiveCreate .succeed longName sIfreg g).2.2.fileList =
      g.fileList ++ [FileEntry.new longName (toInt32 (toU64 g.nextInodeNo)) (sIsdir sIfreg)] := by
  rcases naiveCreate_cases .succeed longName sIfreg g with ⟨hn, -⟩ | ⟨-, hi, -⟩ | ⟨-, -, -, -, hl⟩
  · exact absurd hn (longName_not_mem g)
  · cases hi
  · exact hl

theorem toInt32_toU64 {x : Int} (h : -2 ^ 31 ≤ x) (h' : x < 2 ^ 31) : toInt32 (toU64 x) = x := by
  unfold toInt32 toU64
  omega

/-- Listings and creations tell any two lists and counters apart. -/
theorem globals_of_outputs {g f : Globals} (hg : g.Ranged) (hf : f.Ranged)
    (h : ∀ qs, devices.outputs qs g = devices.outputs qs f) : g = f := by
  have hlist := fileList_of_outputs (h [listing])
  have hafter := fileList_of_outputs
    (List.cons.inj (h [.request (.create .succeed longName sIfreg), listing])).2
  have hcreated : (naiveCreate .succeed longName sIfreg g).2.2.fileList =
      (naiveCreate .succeed longName sIfreg f).2.2.fileList := hafter
  rw [fileList_create, fileList_create, hlist, List.append_cancel_left_eq] at hcreated
  have hno := congrArg FileEntry.inodeNo (List.cons.inj hcreated).1
  have hcounter : g.nextInodeNo = f.nextInodeNo := by
    rw [← toInt32_toU64 hg.1 hg.2, ← toInt32_toU64 hf.1 hf.2]
    exact hno
  cases g
  cases f
  simp_all

/-! ## Two devices -/

section Devices

variable {D : Type}

/-- Each operation on another device than `d` is idle in the state it runs in. -/
def AllIdle (d : D) : List (D × Op) → Globals → Prop
  | [], _ => True
  | (e, o) :: os, g => (e ≠ d → o.Idle g) ∧ AllIdle d os (devices o g).2

theorem allQuiet_iff {d : D} {os : List (D × Op)} {g : Globals} :
    devices.AllQuiet d os g ↔ AllIdle d os g := by
  induction os generalizing g with
  | nil => simp [Machine.AllQuiet, AllIdle]
  | cons o os ih => simp only [Machine.AllQuiet, AllIdle, quiet_iff, ih]

/-- From the loading of the module on, in every prefix of an interleaving and
every continuation of it on one device, that device's return codes and listings
are those of the run with the others' operations removed, exactly when each of
those was idle. -/
theorem separate_iff_idle [DecidableEq D] (d : D) (os : List (D × Op)) :
    (∀ ps, ps <+: os → ∀ qs : List Op, devices.Separate d (ps ++ qs.map (d, ·)) cleared) ↔
      AllIdle d os cleared := by
  rw [← allQuiet_iff]
  exact Machine.separate_iff (fun o _ hg => hg.devices o) (fun _ _ => globals_of_outputs)
    ranged_cleared

end Devices

/-- A name of one letter. -/
def oneLetter : Name := Name.letters 1 Nat.one_pos Name.one_le_max

/-- A file created on one device is listed on the other, and the mount of one
empties the listing of the other. -/
theorem separate_two :
    ¬ devices.Separate false [(false, .mount .succeed), (true, .mount .succeed),
        (true, .request (.create .succeed oneLetter sIfreg)), (false, listing)] cleared ∧
    ¬ devices.Separate false [(false, .mount .succeed),
        (false, .request (.create .succeed oneLetter sIfreg)), (true, .mount .succeed),
        (false, listing)] cleared := by
  unfold Machine.Separate
  decide +kernel

end NaiveFS.Final
