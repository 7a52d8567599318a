import Mathlib.Data.List.Basic
import Mathlib.Data.List.Induction

/-!
# Several users of one machine

A machine answers each operation and moves to its next state. Users send it
their operations in any order. The replies to one user are those of the run
without the others when no operation of the others moves the machine; when the
replies tell the states apart, in no other case.
-/

/-- The reply and the next state, for an operation in a state. -/
abbrev Machine (Op Reply S : Type) := Op → S → Reply × S

namespace Machine

variable {Op Reply S D : Type}

/-! ## Runs -/

/-- The replies to the operations of one user. -/
def outputs (m : Machine Op Reply S) : List Op → S → List Reply
  | [], _ => []
  | o :: os, s => (m o s).1 :: outputs m os (m o s).2

/-- The state after the operations, each with its user. -/
def final (m : Machine Op Reply S) : List (D × Op) → S → S
  | [], s => s
  | (_, o) :: os, s => final m os (m o s).2

/-- The replies, each with its user. -/
def replies (m : Machine Op Reply S) : List (D × Op) → S → List (D × Reply)
  | [], _ => []
  | (d, o) :: os, s => (d, (m o s).1) :: replies m os (m o s).2

/-- The replies to `d` are those of the run with only its operations. -/
def Separate [DecidableEq D] (m : Machine Op Reply S) (d : D) (os : List (D × Op)) (s : S) : Prop :=
  (m.replies os s).filter (fun r => r.1 = d) = m.replies (os.filter fun o => o.1 = d) s

/-- The operation leaves the state. -/
def Quiet (m : Machine Op Reply S) (s : S) (o : Op) : Prop := (m o s).2 = s

/-- Each operation of a user other than `d` leaves the state it runs in. -/
def AllQuiet (m : Machine Op Reply S) (d : D) : List (D × Op) → S → Prop
  | [], _ => True
  | (e, o) :: os, s => (e ≠ d → m.Quiet s o) ∧ AllQuiet m d os (m o s).2

section Runs

variable {m : Machine Op Reply S} {d : D} {os ps : List (D × Op)} {qs : List Op} {s t : S}

theorem replies_append :
    m.replies (os ++ ps) s = m.replies os s ++ m.replies ps (m.final os s) := by
  induction os generalizing s with
  | nil => rfl
  | cons o os ih => simp [replies, final, ih]

theorem allQuiet_append : m.AllQuiet d (os ++ ps) s ↔
    m.AllQuiet d os s ∧ m.AllQuiet d ps (m.final os s) := by
  induction os generalizing s with
  | nil => simp [AllQuiet, final]
  | cons o os ih => simp [AllQuiet, final, ih, and_assoc]

theorem replies_map : m.replies (qs.map (d, ·)) s = (m.outputs qs s).map (d, ·) := by
  induction qs generalizing s with
  | nil => rfl
  | cons q qs ih => simp [replies, outputs, ih]

theorem allQuiet_map : m.AllQuiet d (qs.map (d, ·)) s := by
  induction qs generalizing s with
  | nil => trivial
  | cons q qs ih => exact ⟨fun h => absurd rfl h, ih⟩

/-- A property that each operation keeps holds after a run. -/
theorem final_keeps {I : S → Prop} (hstep : ∀ o s, I s → I (m o s).2) (h : I s) :
    I (m.final os s) := by
  induction os generalizing s with
  | nil => exact h
  | cons o os ih => exact ih (hstep o.2 s h)

end Runs

/-! ## Separation -/

section Separation

variable [DecidableEq D] {m : Machine Op Reply S} {d : D} {os : List (D × Op)} {s : S}

/-- Quiet operations of the others are not seen. -/
theorem AllQuiet.separate (h : m.AllQuiet d os s) : m.Separate d os s := by
  unfold Separate
  induction os generalizing s with
  | nil => rfl
  | cons o os ih =>
    obtain ⟨e, o⟩ := o
    have htail := ih h.2
    by_cases he : e = d
    · rw [replies, List.filter_cons_of_pos (by simpa using he), htail,
        List.filter_cons_of_pos (by simpa using he), replies]
    · rw [replies, List.filter_cons_of_neg (by simpa using he), htail,
        List.filter_cons_of_neg (by simpa using he), h.1 he]

/-- Where the replies tell the states with `I` apart, an operation of another
user that is not seen in any continuation is quiet. -/
theorem quiet_of_separate {I : S → Prop}
    (htell : ∀ s t, I s → I t → (∀ qs, m.outputs qs s = m.outputs qs t) → s = t)
    {e : D} {o : Op} (he : e ≠ d) (hs : I (m.final os s)) (ht : I (m o (m.final os s)).2)
    (hwithout : ∀ qs : List Op, m.Separate d (os ++ qs.map (d, ·)) s)
    (hwith : ∀ qs : List Op, m.Separate d (os ++ (e, o) :: qs.map (d, ·)) s) :
    m.Quiet (m.final os s) o := by
  apply htell _ _ ht hs
  intro qs
  have hown : ∀ rs : List Reply, (rs.map (d, ·)).filter (fun r => decide (r.1 = d)) =
      rs.map (d, ·) := by
    intro rs
    apply List.filter_eq_self.mpr
    intro r hr
    obtain ⟨_, _, rfl⟩ := List.mem_map.mp hr
    simp
  -- both runs have the same operations of `d`
  have hrun : (m.replies (os ++ (e, o) :: qs.map (d, ·)) s).filter (fun r => decide (r.1 = d)) =
      (m.replies (os ++ qs.map (d, ·)) s).filter (fun r => decide (r.1 = d)) := by
    have hsame : (os ++ (e, o) :: qs.map (d, ·)).filter (fun o => decide (o.1 = d)) =
        (os ++ qs.map (d, ·)).filter (fun o => decide (o.1 = d)) := by
      rw [List.filter_append, List.filter_cons_of_neg (by simpa using he),
        List.filter_append]
    exact (hwith qs).trans (hsame ▸ (hwithout qs).symm)
  rw [replies_append, replies_append, List.filter_append, List.filter_append, replies,
    List.filter_cons_of_neg (by simpa using he), replies_map, replies_map, hown, hown] at hrun
  have hmap := List.append_cancel_left hrun
  exact List.map_injective_iff.mpr (fun _ _ h => (Prod.mk.inj h).2) hmap

/-- In every prefix of a run and every continuation of it by `d`, the replies to
`d` are those of its own operations exactly when the others' are quiet. -/
theorem separate_iff {I : S → Prop} (hstep : ∀ o s, I s → I (m o s).2)
    (htell : ∀ s t, I s → I t → (∀ qs, m.outputs qs s = m.outputs qs t) → s = t) (hs : I s) :
    (∀ ps, ps <+: os → ∀ qs : List Op, m.Separate d (ps ++ qs.map (d, ·)) s) ↔
      m.AllQuiet d os s := by
  constructor
  · intro h
    induction os using List.reverseRecOn with
    | nil => trivial
    | append_singleton os o ih =>
      obtain ⟨e, o⟩ := o
      have hlast : e ≠ d → m.Quiet (m.final os s) o := by
        intro he
        have hfinal : I (m.final os s) := final_keeps hstep hs
        apply quiet_of_separate htell he hfinal (hstep o _ hfinal)
        · exact h os (List.prefix_append _ _)
        · intro qs
          have := h (os ++ [(e, o)]) (List.prefix_refl _) qs
          rwa [List.append_assoc] at this
      exact allQuiet_append.mpr
        ⟨ih fun ps hps => h ps (hps.trans (List.prefix_append _ _)), hlast, trivial⟩
  · rintro h ps ⟨rs, rfl⟩ qs
    apply AllQuiet.separate
    exact allQuiet_append.mpr ⟨(allQuiet_append.mp h).1, allQuiet_map⟩

end Separation

end Machine
