import NaiveFS.Lib.Prog

/-!
# Total correctness

`p.Total ans s Q`: from `s` the code runs to its end without a fault, and `Q` holds of its value
and of the state it leaves. What is known of code that returns is added by `Total.and`.
-/

namespace Prog

variable {σ E ε α β : Type} {R : E → Type} {ans : (e : E) → R e} {s t : σ}

/-- `p` returns from `s`, and what it returns and leaves satisfies `Q`. -/
def Total (p : Prog σ E R ε α) (ans : (e : E) → R e) (s : σ) (Q : α → σ → Prop) : Prop :=
  ∃ a t, p.exec ans s = .ok (a, t) ∧ Q a t

namespace Total

variable {p q : Prog σ E R ε α} {f : α → Prog σ E R ε β} {Q : α → σ → Prop} {P : β → σ → Prop}

theorem of_exec {a : α} (h : p.exec ans s = .ok (a, t)) (hQ : Q a t) : p.Total ans s Q :=
  ⟨a, t, h, hQ⟩

theorem pure {a : α} (hQ : Q a s) : (Pure.pure a : Prog σ E R ε α).Total ans s Q :=
  of_exec rfl hQ

/-- It returns, whatever it leaves. -/
theorem returns (h : p.Total ans s Q) : ∃ a t, p.exec ans s = .ok (a, t) := by
  obtain ⟨a, t, hexec, -⟩ := h
  exact ⟨a, t, hexec⟩

/-- Code that returns satisfies what code satisfies if it returns. -/
theorem of_returns (h : ∃ a t, p.exec ans s = .ok (a, t))
    (hQ : ∀ a t, p.exec ans s = .ok (a, t) → Q a t) : p.Total ans s Q := by
  obtain ⟨a, t, hexec⟩ := h
  exact ⟨a, t, hexec, hQ a t hexec⟩

theorem and {Q' : α → σ → Prop} (h : p.Total ans s Q)
    (hQ : ∀ a t, p.exec ans s = .ok (a, t) → Q' a t) :
    p.Total ans s fun a t => Q a t ∧ Q' a t := by
  obtain ⟨a, t, hexec, h⟩ := h
  exact ⟨a, t, hexec, h, hQ a t hexec⟩

theorem mono {Q' : α → σ → Prop} (h : p.Total ans s Q) (hQ : ∀ a t, Q a t → Q' a t) :
    p.Total ans s Q' := by
  obtain ⟨a, t, hexec, h⟩ := h
  exact ⟨a, t, hexec, hQ a t h⟩

/-- One part after the other. -/
theorem bind (h : p.Total ans s Q) (hf : ∀ a t, Q a t → (f a).Total ans t P) :
    (p >>= f).Total ans s P := by
  obtain ⟨a, t, hexec, h⟩ := h
  obtain ⟨b, u, hrest, hP⟩ := hf a t h
  exact ⟨b, u, (exec_bind_of hexec).trans hrest, hP⟩

/-- The first part is run. -/
theorem bind_of {a : α} (h : p.exec ans s = .ok (a, t)) (hf : (f a).Total ans t P) :
    (p >>= f).Total ans s P :=
  (of_exec (Q := fun b u => b = a ∧ u = t) h ⟨rfl, rfl⟩).bind fun _ _ h => by
    obtain ⟨rfl, rfl⟩ := h
    exact hf

theorem ite {c : Prop} [Decidable c] (hp : c → p.Total ans s Q) (hq : ¬ c → q.Total ans s Q) :
    (if c then p else q).Total ans s Q := by
  split
  · exact hp ‹c›
  · exact hq ‹¬ c›

/-- What runs alike returns alike. -/
theorem congr {p' : Prog σ E R ε α} {s' : σ} (h : p.exec ans s = p'.exec ans s')
    (hp : p'.Total ans s' Q) : p.Total ans s Q := by
  obtain ⟨a, t, hexec, hQ⟩ := hp
  exact ⟨a, t, h.trans hexec, hQ⟩

end Total

end Prog
