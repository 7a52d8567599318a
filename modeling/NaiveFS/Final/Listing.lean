import NaiveFS.Final.Code

/-!
# The list and the names that exist

A creation compares the whole name with the entries but stores its first 29
bytes, and it succeeds without an entry when there is no memory for one. The
list holds the existing names in the runs where neither happens.
-/

namespace NaiveFS.Final

/-! ## What the operations do to the names of the list -/

section Steps

variable {g : Globals} {n : Name}

theorem any_named : g.fileList.any (FileEntry.named n) = true ↔ n.bytes ∈ g.texts := by
  simp [Globals.texts, FileEntry.named_iff]

/-- A creation finds the name, gets no inode, or appends what it can store of it. -/
theorem naiveCreate_cases (c : CreateCalls) (n : Name) (mode : Nat) (g : Globals) :
    (n.bytes ∈ g.texts ∧ naiveCreate c n mode g = (- EEXIST, none, g)) ∨
    (n.bytes ∉ g.texts ∧ c.newInode = false ∧ naiveCreate c n mode g = (- ENOMEM, none, g)) ∨
    (n.bytes ∉ g.texts ∧ c.newInode = true ∧ (naiveCreate c n mode g).1 = 0 ∧
      (naiveCreate c n mode g).2.2.nextInodeNo = toInt32 (g.nextInodeNo + 1) ∧
      (naiveCreate c n mode g).2.2.fileList = g.fileList ++
        (if c.kmalloc then [FileEntry.new n (toInt32 (toU64 g.nextInodeNo)) (sIsdir mode)]
          else [])) := by
  unfold naiveCreate
  by_cases hn : n.bytes ∈ g.texts
  · left
    rw [if_pos (any_named.mpr hn)]
    exact ⟨hn, rfl⟩
  · right
    rw [if_neg (fun h => hn (any_named.mp h))]
    cases hi : c.newInode with
    | false => exact .inl ⟨hn, rfl, rfl⟩
    | true =>
      right
      cases c.kmalloc <;> simp [hn]

theorem texts_naiveUnlink : (naiveUnlink n g).texts = g.texts.erase n.bytes := by
  unfold Globals.texts naiveUnlink
  generalize g.fileList = l
  induction l with
  | nil => rfl
  | cons e l ih =>
    by_cases he : e.text = n.bytes
    · simp [FileEntry.named_iff.mpr he, he]
    · have hnamed : e.named n = false := by
        rw [← Bool.not_eq_true, FileEntry.named_iff]
        exact he
      simp only [List.eraseP_cons, hnamed, cond_false, List.map_cons, List.erase_cons, beq_iff_eq,
        he, if_false, ih]

theorem texts_length {s : List Byte} (h : s ∈ g.texts) : s.length ≤ naiveMaxFilenameLen - 1 := by
  obtain ⟨e, -, rfl⟩ := List.mem_map.mp h
  exact e.length_text

end Steps

/-! ## Runs of requests -/

/-- A request on the root directory. -/
inductive Request where
  | create (c : CreateCalls) (n : Name) (mode : Nat)
  | mkdir (c : CreateCalls) (n : Name) (mode : Nat)
  | unlink (n : Name)
  | rmdir (n : Name)

namespace Request

def name : Request → Name
  | create _ n _ => n
  | mkdir _ n _ => n
  | unlink n => n
  | rmdir n => n

/-- The request makes its name exist. -/
def makes : Request → Bool
  | create .. => true
  | mkdir .. => true
  | unlink _ => false
  | rmdir _ => false

/-- The result and the globals afterwards. -/
def run : Request → Globals → Int × Globals
  | create c n mode, g => ((naiveCreate c n mode g).1, (naiveCreate c n mode g).2.2)
  | mkdir c n mode, g => ((naiveMkdir c n mode g).1, (naiveMkdir c n mode g).2.2)
  | unlink n, g => (0, naiveUnlink n g)
  | rmdir n, g => (0, naiveRmdir n g)

/-- A creation that gets its inode can store the whole name and has the memory to. -/
def Fits (g : Globals) : Request → Prop
  | create c n _ => n.bytes ∉ g.texts → c.newInode = true →
      n.bytes.length ≤ naiveMaxFilenameLen - 1 ∧ c.kmalloc = true
  | mkdir c n _ => n.bytes ∉ g.texts → c.newInode = true →
      n.bytes.length ≤ naiveMaxFilenameLen - 1 ∧ c.kmalloc = true
  | unlink _ => True
  | rmdir _ => True

/-- The globals after the requests. -/
def runs : List Request → Globals → Globals
  | [], g => g
  | r :: rs, g => runs rs (r.run g).2

/-- The requests with their results. -/
def history : List Request → Globals → List (Request × Int)
  | [], _ => []
  | r :: rs, g => (r, (r.run g).1) :: history rs (r.run g).2

/-- Each request fits in the state it runs in. -/
def AllFit : List Request → Globals → Prop
  | [], _ => True
  | r :: rs, g => r.Fits g ∧ AllFit rs (r.run g).2

theorem history_append (rs qs : List Request) (g : Globals) :
    history (rs ++ qs) g = history rs g ++ history qs (runs rs g) := by
  induction rs generalizing g with
  | nil => rfl
  | cons r rs ih => simp [history, runs, ih]

theorem allFit_append (rs qs : List Request) (g : Globals) :
    AllFit (rs ++ qs) g ↔ AllFit rs g ∧ AllFit qs (runs rs g) := by
  induction rs generalizing g with
  | nil => simp [AllFit, runs]
  | cons r rs ih => simp [AllFit, runs, ih, and_assoc]

end Request

/-- The last successful request on the name made it. -/
def Existing (hist : List (Request × Int)) (s : List Byte) : Prop :=
  ∃ r ret, (hist.filter fun p => p.1.name.bytes = s ∧ p.2 = 0).getLast? = some (r, ret) ∧
    r.makes = true

theorem existing_nil {s : List Byte} : ¬ Existing [] s := by
  simp [Existing]

theorem existing_concat {hist : List (Request × Int)} {r : Request} {ret : Int} {s : List Byte} :
    Existing (hist ++ [(r, ret)]) s ↔
      if r.name.bytes = s ∧ ret = 0 then r.makes = true else Existing hist s := by
  unfold Existing
  by_cases h : r.name.bytes = s ∧ ret = 0
  · rw [if_pos h, List.filter_append, List.filter_cons_of_pos (by simpa using h)]
    simp
  · rw [if_neg h, List.filter_append, List.filter_cons_of_neg (by simpa using h)]
    simp

/-- The list holds the existing names, each once; the creations refuse the names
in it and a removed name is gone. -/
structure Exact (hist : List (Request × Int)) (g : Globals) : Prop where
  names : ∀ s, s ∈ g.texts ↔ Existing hist s
  once : g.texts.Nodup
  eexist : ∀ c n mode, (naiveCreate c n mode g).1 = - EEXIST ↔ n.bytes ∈ g.texts
  eexistDir : ∀ c n mode, (naiveMkdir c n mode g).1 = - EEXIST ↔ n.bytes ∈ g.texts
  unlinked : ∀ n, n.bytes ∉ (naiveUnlink n g).texts
  removed : ∀ n, n.bytes ∉ (naiveRmdir n g).texts

/-- The other parts follow from the first two. -/
theorem Exact.of_names {hist : List (Request × Int)} {g : Globals}
    (hnames : ∀ s, s ∈ g.texts ↔ Existing hist s) (honce : g.texts.Nodup) : Exact hist g := by
  have heexist : ∀ c n mode, (naiveCreate c n mode g).1 = - EEXIST ↔ n.bytes ∈ g.texts := by
    intro c n mode
    rcases naiveCreate_cases c n mode g with ⟨hn, h⟩ | ⟨hn, -, h⟩ | ⟨hn, -, h, -⟩
    · simp [h, hn]
    · simp [h, hn]
    · simp [h, hn]
  have hgone : ∀ n : Name, n.bytes ∉ (naiveUnlink n g).texts := by
    intro n
    rw [texts_naiveUnlink]
    exact honce.not_mem_erase
  exact ⟨hnames, honce, heexist, fun c n mode => heexist c n _, hgone, hgone⟩

/-! ## One request -/

section Step

variable {hist : List (Request × Int)} {g : Globals}

/-- A creation that fits adds the whole name, unless it fails. -/
theorem texts_naiveCreate {c : CreateCalls} {n : Name} {mode : Nat}
    (hfit : n.bytes ∉ g.texts → c.newInode = true →
      n.bytes.length ≤ naiveMaxFilenameLen - 1 ∧ c.kmalloc = true) :
    (naiveCreate c n mode g).2.2.texts =
      if (naiveCreate c n mode g).1 = 0 then g.texts ++ [n.bytes] else g.texts := by
  rcases naiveCreate_cases c n mode g with ⟨-, h⟩ | ⟨-, -, h⟩ | ⟨hn, hi, h, -, hl⟩
  · simp [h]
  · simp [h]
  · obtain ⟨hlen, hk⟩ := hfit hn hi
    simp only [Globals.texts, hl, hk, h, if_true, List.map_append, List.map_cons, List.map_nil,
      FileEntry.text_new, List.take_of_length_le hlen]

theorem naiveCreate_fresh {c : CreateCalls} {n : Name} {mode : Nat}
    (h : (naiveCreate c n mode g).1 = 0) : n.bytes ∉ g.texts := by
  rcases naiveCreate_cases c n mode g with ⟨-, hr⟩ | ⟨hn, -⟩ | ⟨hn, -⟩
  · rw [hr] at h
    cases h
  · exact hn
  · exact hn

/-- A request that fits keeps the list exact. -/
theorem Exact.step {r : Request} (h : Exact hist g) (hfit : r.Fits g) :
    Exact (hist ++ [(r, (r.run g).1)]) (r.run g).2 := by
  have hcreate : ∀ (c : CreateCalls) (n : Name) (mode : Nat) (r : Request), r.name = n →
      r.makes = true → Request.Fits g (.create c n mode) →
      Exact (hist ++ [(r, (naiveCreate c n mode g).1)]) (naiveCreate c n mode g).2.2 := by
    intro c n mode r hname hmakes hfit
    have htexts : (naiveCreate c n mode g).2.2.texts =
        if (naiveCreate c n mode g).1 = 0 then g.texts ++ [n.bytes] else g.texts :=
      texts_naiveCreate hfit
    apply Exact.of_names
    · intro s
      rw [htexts, existing_concat, hname, hmakes]
      by_cases hret : (naiveCreate c n mode g).1 = 0
      · rw [if_pos hret, List.mem_append, List.mem_singleton, h.names]
        by_cases hs : n.bytes = s
        · simp [hs, hret]
        · simp [hs, Ne.symm hs]
      · rw [if_neg hret, if_neg (by simp [hret]), h.names]
    · rw [htexts]
      split
      · next hret =>
        exact List.nodup_append.mpr ⟨h.once, by simp, by
          intro a ha b hb hab
          rw [List.mem_singleton] at hb
          subst hab hb
          exact naiveCreate_fresh hret ha⟩
      · exact h.once
  have hunlink : ∀ (n : Name) (r : Request), r.name = n → r.makes = false →
      Exact (hist ++ [(r, 0)]) (naiveUnlink n g) := by
    intro n r hname hmakes
    apply Exact.of_names
    · intro s
      rw [texts_naiveUnlink, h.once.mem_erase_iff, existing_concat, hname, hmakes, h.names]
      by_cases hs : n.bytes = s
      · simp [hs]
      · simp [hs, Ne.symm hs]
    · rw [texts_naiveUnlink]
      exact h.once.erase _
  cases r with
  | create c n mode => exact hcreate c n mode _ rfl rfl hfit
  | mkdir c n mode => exact hcreate c n (sIfdir ||| mode) _ rfl rfl hfit
  | unlink n => exact hunlink n _ rfl rfl
  | rmdir n => exact hunlink n _ rfl rfl

/-- A request after which the list has its name fits. -/
theorem fits_of_listed {r : Request}
    (h : (r.run g).1 = 0 → r.makes = true → r.name.bytes ∈ (r.run g).2.texts) : r.Fits g := by
  have hcreate : ∀ (c : CreateCalls) (n : Name) (mode : Nat),
      ((naiveCreate c n mode g).1 = 0 → n.bytes ∈ (naiveCreate c n mode g).2.2.texts) →
      Request.Fits g (.create c n mode) := by
    intro c n mode h hn hi
    rcases naiveCreate_cases c n mode g with ⟨hn', -⟩ | ⟨-, hi', -⟩ | ⟨-, -, hret, -, hl⟩
    · exact absurd hn' hn
    · rw [hi] at hi'
      cases hi'
    · have hmem := h hret
      rw [Globals.texts, hl, List.map_append, List.mem_append] at hmem
      have hmem := hmem.resolve_left hn
      -- the entry appended has the name, so the 29 bytes it stores are all of it
      cases hk : c.kmalloc with
      | false => simp [hk] at hmem
      | true =>
        simp only [hk, if_true, List.map_cons, List.map_nil, FileEntry.text_new,
          List.mem_singleton] at hmem
        have hlen := congrArg List.length hmem
        rw [List.length_take] at hlen
        exact ⟨by omega, rfl⟩
  cases r with
  | create c n mode => exact hcreate c n mode fun hret => h hret rfl
  | mkdir c n mode => exact hcreate c n (sIfdir ||| mode) fun hret => h hret rfl
  | unlink n => trivial
  | rmdir n => trivial

theorem Exact.fits {r : Request} (h : Exact (hist ++ [(r, (r.run g).1)]) (r.run g).2) :
    r.Fits g := by
  apply fits_of_listed
  intro hret hmakes
  rw [h.names, existing_concat, if_pos ⟨rfl, hret⟩]
  exact hmakes

end Step

/-! ## Runs -/

open Request

/-- Requests that fit keep the list exact. -/
theorem Exact.runs {rs : List Request} {hist : List (Request × Int)} {g : Globals}
    (h : Exact hist g) (hfit : AllFit rs g) : Exact (hist ++ history rs g) (runs rs g) := by
  induction rs generalizing hist g with
  | nil =>
    rw [history, List.append_nil]
    exact h
  | cons r rs ih =>
    have := ih (h.step hfit.1) hfit.2
    rwa [List.append_assoc] at this

/-- Requests after each of which the list is exact fit. -/
theorem allFit_of_exact {rs : List Request} {hist : List (Request × Int)} {g : Globals}
    (h : ∀ ps, ps <+: rs → Exact (hist ++ history ps g) (runs ps g)) : AllFit rs g := by
  induction rs generalizing hist g with
  | nil => trivial
  | cons r rs ih =>
    have hrest : ∀ ps, ps <+: rs → Exact (hist ++ [(r, (r.run g).1)] ++ history ps (r.run g).2)
        (runs ps (r.run g).2) := by
      intro ps hps
      have := h (r :: ps) (List.cons_prefix_cons.mpr ⟨rfl, hps⟩)
      rwa [history, List.append_cons] at this
    exact ⟨Exact.fits (h [r] (by simp)), ih hrest⟩

/-! ## From the mount on -/

/-- The creations `naive_fill_super` itself makes. -/
def mountRequests (c : FillCalls) : List Request :=
  (if c.allocReadme then [create c.readme naiveReadme (sIfreg ||| 0o644)] else []) ++
    (if c.allocExample then [mkdir c.dirExample naiveExample 0o755] else [])

theorem naiveFillSuper_globals {c : FillCalls} (h : (naiveFillSuper c).1 = 0) :
    (naiveFillSuper c).2.2 = runs (mountRequests c) cleared := by
  unfold naiveFillSuper at h ⊢
  cases hs : c.setBlocksize with
  | false => simp [hs] at h
  | true =>
    cases hb : c.sbBread with
    | none => simp [hs, hb] at h
    | some nsb =>
      by_cases hm : SuperBlock.magic nsb ≠ naiveMagic
      · simp [hs, hb, hm] at h
      · cases hi : c.newInode with
        | false => simp [hs, hb, hm, hi] at h
        | true =>
          cases hd : c.dMakeRoot with
          | false => simp [hs, hb, hm, hi, hd] at h
          | true =>
            simp only [hm, Bool.not_true, Bool.false_eq_true, if_false]
            unfold mountRequests
            cases c.allocReadme <;> cases c.allocExample <;> rfl

theorem exact_cleared : Exact [] cleared := by
  apply Exact.of_names
  · intro s
    simp [existing_nil, cleared, Globals.texts]
  · exact List.nodup_nil

theorem mem_texts_naiveCreate {c : CreateCalls} {n : Name} {mode : Nat} {g : Globals}
    {s : List Byte} (h : s ∈ (naiveCreate c n mode g).2.2.texts) :
    s ∈ g.texts ∨ s = n.bytes.take (naiveMaxFilenameLen - 1) := by
  rcases naiveCreate_cases c n mode g with ⟨-, hr⟩ | ⟨-, -, hr⟩ | ⟨-, -, -, -, hl⟩
  · rw [hr] at h
    exact .inl h
  · rw [hr] at h
    exact .inl h
  · rw [Globals.texts, hl, List.map_append, List.mem_append] at h
    apply h.imp id
    intro h
    cases hk : c.kmalloc <;> simp_all

/-- A successful mount that leaves the list exact had the memory for its entries. -/
theorem mountRequests_fit {c : FillCalls}
    (h : Exact (history (mountRequests c) cleared) (runs (mountRequests c) cleared)) :
    AllFit (mountRequests c) cleared := by
  unfold mountRequests at h ⊢
  cases hr : c.allocReadme with
  | false =>
    cases he : c.allocExample with
    | false => trivial
    | true =>
      rw [hr, he] at h
      have h : Exact ([] ++ [(mkdir c.dirExample naiveExample 0o755, _)]) _ := h
      exact ⟨h.fits, trivial⟩
  | true =>
    cases he : c.allocExample with
    | false =>
      rw [hr, he] at h
      have h : Exact ([] ++ [(create c.readme naiveReadme (sIfreg ||| 0o644), _)]) _ := h
      exact ⟨h.fits, trivial⟩
    | true =>
      rw [hr, he] at h
      let r := create c.readme naiveReadme (sIfreg ||| 0o644)
      have h : Exact (([] ++ [(r, (r.run cleared).1)]) ++
        [(mkdir c.dirExample naiveExample 0o755, _)]) _ := h
      refine ⟨fits_of_listed ?_, h.fits, trivial⟩
      intro hret _
      -- the second creation cannot list the name of the first
      have hlisted : naiveReadme.bytes ∈ Globals.texts _ := (h.names _).mpr (by
        have hne : naiveExample.bytes ≠ naiveReadme.bytes := by decide
        rw [existing_concat, if_neg (fun hboth => hne hboth.1), existing_concat,
          if_pos ⟨rfl, hret⟩]
        rfl)
      exact (mem_texts_naiveCreate hlisted).resolve_right (by decide)

/-- From a mount on, the list is exact in every state reached exactly when every
creation of the run, the mount's own ones included, fits. -/
theorem exact_iff_allFit (c : FillCalls) (h : (naiveFillSuper c).1 = 0) (rs : List Request) :
    (∀ ps, ps <+: rs →
      Exact (history (mountRequests c ++ ps) cleared) (runs ps (naiveFillSuper c).2.2)) ↔
      AllFit (mountRequests c ++ rs) cleared := by
  rw [naiveFillSuper_globals h, allFit_append]
  constructor
  · intro hall
    have hmount := hall [] List.nil_prefix
    rw [List.append_nil] at hmount
    have hrest : ∀ ps, ps <+: rs → Exact
        (history (mountRequests c) cleared ++ history ps (runs (mountRequests c) cleared))
        (runs ps (runs (mountRequests c) cleared)) := by
      intro ps hps
      rw [← history_append]
      exact hall ps hps
    exact ⟨mountRequests_fit hmount, allFit_of_exact hrest⟩
  · rintro ⟨hmount, hfit⟩ ps ⟨qs, rfl⟩
    rw [allFit_append] at hfit
    rw [history_append]
    exact Exact.runs (exact_cleared.runs hmount) hfit.1

/-- Every call succeeds. -/
def CreateCalls.succeed : CreateCalls := ⟨true, true, default⟩

/-- Every call of the mount succeeds, on a device with the magic. -/
def FillCalls.succeed : FillCalls :=
  ⟨true, some (Bytes.zeros.putLE32 0 naiveMagic), true, true, default, true, .succeed, true,
    .succeed⟩

/-- A file is created with a name of 29 bytes. -/
theorem exact_run :
    Exact (history (mountRequests .succeed ++
        [create .succeed (Name.letters 29 (by decide) (by decide)) sIfreg]) cleared)
      (runs [create .succeed (Name.letters 29 (by decide) (by decide)) sIfreg]
        (naiveFillSuper .succeed).2.2) := by
  apply (exact_iff_allFit .succeed (by decide) _).mpr _ _ (List.prefix_refl _)
  have hfits : ∀ (n : Name) (g : Globals), n.bytes.length ≤ naiveMaxFilenameLen - 1 →
      n.bytes ∉ g.texts → CreateCalls.succeed.newInode = true →
      n.bytes.length ≤ naiveMaxFilenameLen - 1 ∧ CreateCalls.succeed.kmalloc = true :=
    fun _ _ hlen _ _ => ⟨hlen, rfl⟩
  exact ⟨hfits _ _ (by decide), hfits _ _ (by decide), hfits _ _ (by decide), trivial⟩

/-- A file with a name of 30 bytes is created and not in the list. -/
theorem exact_long :
    (naiveFillSuper .succeed).1 = 0 ∧
    ¬ Exact (history (mountRequests .succeed ++
        [create .succeed (Name.letters 30 (by decide) (by decide)) sIfreg]) cleared)
      (runs [create .succeed (Name.letters 30 (by decide) (by decide)) sIfreg]
        (naiveFillSuper .succeed).2.2) := by
  refine ⟨by decide, ?_⟩
  intro h
  have hlisted := (h.names (Name.letters 30 (by decide) (by decide)).bytes).mpr
    ⟨create .succeed (Name.letters 30 (by decide) (by decide)) sIfreg, 0, by rfl, rfl⟩
  have hlen := texts_length hlisted
  revert hlen
  decide

end NaiveFS.Final
