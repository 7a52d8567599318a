import NaiveFS.Lib.Prog

/-!
# Interleaved programs

Tasks `ι` run programs over one state. A task keeps the processor until it makes
a sleeping call; then any task may go on. `Prog.advance` is such a slice and
`Pool.Step` one turn of the scheduler.

A `Discipline` says what holds whenever no task runs: an invariant of the state
and of a ghost value for each task, what call a task with a given ghost value is
paused at, and which turns the scheduler takes. `Safe` is the weakest
precondition of code under a discipline, with the rules for it, and
`Pool.Reach.keeps` says that safe tasks keep the invariant in every interleaving.
-/

namespace Prog

variable {σ E ε α β : Type} {R : E → Type}

/-- Run to the next sleeping call, or to the end. -/
def advance (sleeps : E → Bool) (ans : (e : E) → R e) :
    Prog σ E R ε α → σ → Except ε (Prog σ E R ε α × σ)
  | .ret a, s => .ok (.ret a, s)
  | .fault x, _ => .error x
  | .get k, s => (k s).advance sleeps ans s
  | .set s p, _ => p.advance sleeps ans s
  | .call e k, s =>
    if sleeps e then .ok (.call e k, s) else (k (ans e)).advance sleeps ans s

/-- The sleeping call the code waits for. -/
def pending (sleeps : E → Bool) : Prog σ E R ε α → Option E
  | .call e _ => if sleeps e then some e else none
  | _ => none

/-- The call the code waits for is answered. -/
def answered (sleeps : E → Bool) (ans : (e : E) → R e) : Prog σ E R ε α → Prog σ E R ε α
  | .call e k => if sleeps e then k (ans e) else .call e k
  | p => p

/-- Code that makes no call. -/
def Silent : Prog σ E R ε α → Prop
  | .ret _ => True
  | .fault _ => True
  | .get k => ∀ s, (k s).Silent
  | .set _ p => p.Silent
  | .call _ _ => False

theorem Silent.bind {p : Prog σ E R ε α} {f : α → Prog σ E R ε β} (hp : p.Silent)
    (hf : ∀ a, (f a).Silent) : (p >>= f).Silent := by
  show (p.bind f).Silent
  induction p with
  | ret a => exact hf a
  | fault x => trivial
  | get k ih => exact fun s => ih s (hp s)
  | set s p ih => exact ih hp
  | call e k => exact hp.elim

theorem silent_step (f : σ → Except ε (α × σ)) : (Prog.step f : Prog σ E R ε α).Silent := by
  intro s
  dsimp only
  cases f s <;> trivial

theorem silent_modify (f : σ → σ) : (Prog.modify f : Prog σ E R ε Unit).Silent :=
  fun _ => trivial

theorem silent_read (f : σ → α) : (Prog.read f : Prog σ E R ε α).Silent :=
  fun _ => trivial

theorem silent_pure (a : α) : (pure a : Prog σ E R ε α).Silent := trivial

theorem silent_fault (x : ε) : (Prog.fault x : Prog σ E R ε α).Silent := trivial

end Prog

/-! ## Pools -/

/-- The shared state and what each task has still to run. -/
structure Pool (ι σ E : Type) (R : E → Type) (ε α : Type) where
  state : σ
  tasks : ι → Prog σ E R ε α

namespace Pool

variable {ι σ E ε α : Type} {R : E → Type} [DecidableEq ι]

/-- The calls the tasks wait for. -/
def pending (sleeps : E → Bool) (c : Pool ι σ E R ε α) (i : ι) : Option E :=
  (c.tasks i).pending sleeps

/-- Task `i` goes on: its call is answered and it runs to its next one. -/
def turn (sleeps : E → Bool) (c : Pool ι σ E R ε α) (i : ι) (ans : (e : E) → R e) :
    Except ε (Pool ι σ E R ε α) := do
  let (p, s) ← ((c.tasks i).answered sleeps ans).advance sleeps ans c.state
  pure { state := s, tasks := Function.update c.tasks i p }

/-- `c` leads to `d` by turns that each satisfy `P` (pool before, task, answers). -/
inductive Reach (sleeps : E → Bool) (P : Pool ι σ E R ε α → ι → ((e : E) → R e) → Prop)
    (c : Pool ι σ E R ε α) : Pool ι σ E R ε α → Prop where
  | refl : Reach sleeps P c c
  | step {d d' : Pool ι σ E R ε α} {i : ι} {ans : (e : E) → R e} :
      Reach sleeps P c d → P d i ans → d.turn sleeps i ans = .ok d' → Reach sleeps P c d'

/-- Take a list of turns as long as each passes a test. -/
def turns (sleeps : E → Bool) (ok : Pool ι σ E R ε α → ι → ((e : E) → R e) → Bool)
    (c : Pool ι σ E R ε α) : List (ι × ((e : E) → R e)) → Option (Pool ι σ E R ε α)
  | [] => some c
  | (i, ans) :: ts =>
    if ok c i ans then
      match c.turn sleeps i ans with
      | .ok d => turns sleeps ok d ts
      | .error _ => none
    else none

/-- Turns that are taken are a run. -/
theorem Reach.of_turns {sleeps : E → Bool}
    {P : Pool ι σ E R ε α → ι → ((e : E) → R e) → Prop}
    {ok : Pool ι σ E R ε α → ι → ((e : E) → R e) → Bool} {c d d' : Pool ι σ E R ε α}
    {ts : List (ι × ((e : E) → R e))} (hP : ∀ d i ans, ok d i ans = true → P d i ans)
    (hc : Reach sleeps P c d) (h : turns sleeps ok d ts = some d') : Reach sleeps P c d' := by
  induction ts generalizing d with
  | nil =>
      cases h
      exact hc
  | cons x ts ih =>
      obtain ⟨i, ans⟩ := x
      rw [turns] at h
      split at h
      · rename_i hok
        split at h
        · rename_i e hturn
          exact ih (hc.step (hP d i ans hok) hturn) h
        · cases h
      · cases h

end Pool

/-! ## Disciplines -/

/-- What holds between the slices of the tasks. -/
structure Discipline (ι σ E : Type) (R : E → Type) (G : Type) where
  sleeps : E → Bool
  /-- The invariant of the ghost values and the state. -/
  inv : (ι → G) → σ → Prop
  /-- A task with this ghost value may wait for this call (or for none). -/
  waits : G → Option E → Prop
  /-- The scheduler may give a turn to this task, with these answers. -/
  ok : (ι → Option E) → σ → ι → ((e : E) → R e) → Prop

namespace Discipline

variable {ι σ E ε α β G : Type} {R : E → Type} [DecidableEq ι]
variable (D : Discipline ι σ E R G)

/-- Task `i`, whose ghost value is `x` and which waits for `w`, is given a turn. -/
structure Turn (i : ι) (x : G) (w : Option E) (g : ι → G) (s : σ) (ans : (e : E) → R e) :
    Prop where
  self : g i = x
  inv : D.inv g s
  ok : ∃ pend, (∀ j, D.waits (g j) (pend j)) ∧ pend i = w ∧ D.ok pend s i ans

/-- The code of task `i` keeps the discipline from here to its end, where `Q`
holds. Before a sleeping call the task chooses its ghost value. -/
def Safe (i : ι) (Q : α → (ι → G) → σ → Prop) :
    Prog σ E R ε α → (ι → G) → σ → Prop
  | .ret a, g, s => Q a g s
  | .fault _, _, _ => True
  | .get k, g, s => Safe i Q (k s) g s
  | .set s p, g, _ => Safe i Q p g s
  | .call e k, g, s =>
    if D.sleeps e then
      ∃ x, D.waits x (some e) ∧ D.inv (Function.update g i x) s ∧
        ∀ g' s' ans, D.Turn i x (some e) g' s' ans → Safe i Q (k (ans e)) g' s'
    else ∀ r, Safe i Q (k r) g s

/-- The task ends with a ghost value that waits for nothing. -/
def Ends (i : ι) (_ : α) (g : ι → G) (s : σ) : Prop :=
  ∃ x, D.waits x none ∧ D.inv (Function.update g i x) s

/-- The task, whose ghost value is `x`, rests: whatever the others do before its
next turn, it goes on safely. -/
structure Rests (i : ι) (p : Prog σ E R ε α) (x : G) : Prop where
  waits : D.waits x (p.pending D.sleeps)
  go : ∀ g s ans, D.Turn i x (p.pending D.sleeps) g s ans →
    D.Safe i (D.Ends i) (p.answered D.sleeps ans) g s

variable {D} {i : ι} {g : ι → G} {s : σ} {Q Q' : α → (ι → G) → σ → Prop}
  {p : Prog σ E R ε α}

/-! ### Rules -/

theorem Safe.mono (h : D.Safe i Q p g s) (hQ : ∀ a g s, Q a g s → Q' a g s) :
    D.Safe i Q' p g s := by
  induction p generalizing g s with
  | ret a => exact hQ _ _ _ h
  | fault x => trivial
  | get k ih => exact ih _ h
  | set s' p ih => exact ih h
  | call e k ih =>
      unfold Safe at h ⊢
      split
      · rename_i he
        rw [if_pos he] at h
        obtain ⟨x, hw, hinv, hk⟩ := h
        exact ⟨x, hw, hinv, fun g' s' ans ht => ih _ (hk g' s' ans ht)⟩
      · rename_i he
        rw [if_neg he] at h
        exact fun r => ih r (h r)

/-- A sequence is safe when its first part is, up to where the rest is safe. -/
theorem Safe.bind {f : α → Prog σ E R ε β} {Q : β → (ι → G) → σ → Prop}
    (h : D.Safe i (fun a g s => D.Safe i Q (f a) g s) p g s) : D.Safe i Q (p >>= f) g s := by
  show D.Safe i Q (p.bind f) g s
  induction p generalizing g s with
  | ret a => exact h
  | fault x => trivial
  | get k ih => exact ih _ h
  | set s' p ih => exact ih h
  | call e k ih =>
      unfold Safe at h
      show D.Safe i Q (.call e fun r => (k r).bind f) g s
      unfold Safe
      split
      · rename_i he
        rw [if_pos he] at h
        obtain ⟨x, hw, hinv, hk⟩ := h
        exact ⟨x, hw, hinv, fun g' s' ans ht => ih _ (hk g' s' ans ht)⟩
      · rename_i he
        rw [if_neg he] at h
        exact fun r => ih r (h r)

/-- Code without calls is safe by its sequential meaning. -/
theorem Safe.silent (hp : p.Silent) (ans : (e : E) → R e)
    (h : ∀ a t, p.exec ans s = .ok (a, t) → Q a g t) : D.Safe i Q p g s := by
  induction p generalizing s with
  | ret a => exact h a s rfl
  | fault x => trivial
  | get k ih => exact ih _ (hp _) h
  | set s' p ih => exact ih hp h
  | call e k => exact hp.elim

theorem Safe.of_exec {a : α} {t : σ} (hp : p.Silent) (ans : (e : E) → R e)
    (hexec : p.exec ans s = .ok (a, t)) (hQ : Q a g t) : D.Safe i Q p g s := by
  refine .silent hp ans fun b u hu => ?_
  rw [hexec] at hu
  cases hu
  exact hQ

/-- Run a part without calls first. -/
theorem Safe.silent_bind {f : α → Prog σ E R ε β} {Q : β → (ι → G) → σ → Prop} (hp : p.Silent)
    (ans : (e : E) → R e)
    (h : ∀ a t, p.exec ans s = .ok (a, t) → D.Safe i Q (f a) g t) : D.Safe i Q (p >>= f) g s :=
  .bind (.silent hp ans h)

/-- A call that does not sleep. -/
theorem Safe.ask_bind {e : E} {f : R e → Prog σ E R ε β} {Q : β → (ι → G) → σ → Prop}
    (he : D.sleeps e = false) (h : ∀ r, D.Safe i Q (f r) g s) :
    D.Safe i Q (Prog.ask e >>= f) g s := by
  show D.Safe i Q (.call e f) g s
  unfold Safe
  rw [if_neg (by simp [he])]
  exact h

/-- A sleeping call: the task rests with ghost value `x`. -/
theorem Safe.sleep_bind {e : E} {f : R e → Prog σ E R ε β} {Q : β → (ι → G) → σ → Prop} (x : G)
    (he : D.sleeps e = true) (hw : D.waits x (some e)) (hinv : D.inv (Function.update g i x) s)
    (h : ∀ g' s' ans, D.Turn i x (some e) g' s' ans → D.Safe i Q (f (ans e)) g' s') :
    D.Safe i Q (Prog.ask e >>= f) g s := by
  show D.Safe i Q (.call e f) g s
  unfold Safe
  rw [if_pos he]
  exact ⟨x, hw, hinv, h⟩

theorem Safe.pure {a : α} (h : Q a g s) : D.Safe i Q (Pure.pure a : Prog σ E R ε α) g s := h

/-! ### Soundness -/

/-- A task that has ended stays ended. -/
theorem rests_ret (a : α) {x : G} (hx : D.waits x none) :
    D.Rests i (.ret a : Prog σ E R ε α) x := by
  refine ⟨hx, fun g s _ ht => ⟨x, hx, ?_⟩⟩
  rw [← ht.self, Function.update_eq_self]
  exact ht.inv

/-- A safe slice ends in the invariant, with the task at rest. -/
theorem Safe.advance {ans : (e : E) → R e} {q : Prog σ E R ε α} {t : σ}
    (h : D.Safe i (D.Ends i) p g s) (hrun : p.advance D.sleeps ans s = .ok (q, t)) :
    ∃ x, D.inv (Function.update g i x) t ∧ D.Rests i q x := by
  induction p generalizing s with
  | ret a =>
      cases hrun
      obtain ⟨x, hx, hinv⟩ := h
      exact ⟨x, hinv, rests_ret a hx⟩
  | fault x => cases hrun
  | get k ih => exact ih _ h hrun
  | set s' p ih => exact ih h hrun
  | call e k ih =>
      unfold Safe at h
      unfold Prog.advance at hrun
      split at hrun
      · rename_i he
        rw [if_pos he] at h
        cases hrun
        obtain ⟨x, hw, hinv, hk⟩ := h
        have hpend : (Prog.call e k : Prog σ E R ε α).pending D.sleeps = some e := if_pos he
        refine ⟨x, hinv, ?_, fun g' s' ans' ht => ?_⟩
        · rw [hpend]
          exact hw
        · rw [hpend] at ht
          rw [Prog.answered, if_pos he]
          exact hk g' s' ans' ht
      · rename_i he
        rw [if_neg he] at h
        exact ih _ (h _) hrun

end Discipline

-- from here on code is taken apart by the rules only
attribute [irreducible] Discipline.Safe Prog.Silent

open Discipline in
/-- In every interleaving whose turns the discipline allows, its invariant holds
and every task is at rest. -/
theorem Pool.Reach.keeps {ι σ E ε α G : Type} {R : E → Type} [DecidableEq ι]
    {D : Discipline ι σ E R G} {c d : Pool ι σ E R ε α}
    (h : Reach D.sleeps (fun c i ans => D.ok (c.pending D.sleeps) c.state i ans) c d)
    (h0 : ∃ g, D.inv g c.state ∧ ∀ i, D.Rests i (c.tasks i) (g i)) :
    ∃ g, D.inv g d.state ∧ ∀ i, D.Rests i (d.tasks i) (g i) := by
  induction h with
  | refl => exact h0
  | @step d d' i ans _ hok hturn ih =>
      obtain ⟨g, hinv, hrest⟩ := ih
      have hsafe := (hrest i).go g d.state ans
        ⟨rfl, hinv, d.pending D.sleeps, fun j => (hrest j).waits, rfl, hok⟩
      unfold Pool.turn at hturn
      cases hadv : ((d.tasks i).answered D.sleeps ans).advance D.sleeps ans d.state with
      | error x =>
          rw [hadv] at hturn
          cases hturn
      | ok q =>
          obtain ⟨p, t⟩ := q
          rw [hadv] at hturn
          cases hturn
          obtain ⟨x, hinv', hp⟩ := hsafe.advance hadv
          refine ⟨Function.update g i x, hinv', fun j => ?_⟩
          by_cases hj : j = i
          · subst hj
            simpa using hp
          · simpa [hj] using hrest j
