import NaiveFS.Lib.Prog

/-!
# A run that another one follows

`Prog.Follows` is a forward simulation: when the first program returns, so does the second, and
the results and the states they leave are related. Nothing is said of a first run that faults.
The rules are those for sequences; what a program does to its state is left to the user.
-/

namespace Prog

variable {σ E ε α β γ δ : Type} {R : E → Type} {ans : (e : E) → R e} {s s' : σ}
  {p : Prog σ E R ε α} {q : Prog σ E R ε β} {Q : α → σ → β → σ → Prop}

/-- When `p` returns from `s`, `q` returns from `s'` as `Q` says. -/
def Follows (ans : (e : E) → R e) (p : Prog σ E R ε α) (s : σ) (q : Prog σ E R ε β) (s' : σ)
    (Q : α → σ → β → σ → Prop) : Prop :=
  ∀ a t, p.exec ans s = .ok (a, t) → ∃ b t', q.exec ans s' = .ok (b, t') ∧ Q a t b t'

namespace Follows

/-- Both are known to return. -/
theorem of_ok {a : α} {b : β} {t t' : σ} (h : p.exec ans s = .ok (a, t))
    (h' : q.exec ans s' = .ok (b, t')) (hQ : Q a t b t') : Follows ans p s q s' Q := by
  intro a' u hu
  obtain ⟨rfl, rfl⟩ := Prod.mk.inj (Except.ok.inj (h.symm.trans hu))
  exact ⟨b, t', h', hQ⟩

/-- A weaker relation, knowing how the first run ends. -/
theorem mono {Q' : α → σ → β → σ → Prop} (h : Follows ans p s q s' Q)
    (hQ : ∀ a t b t', p.exec ans s = .ok (a, t) → Q a t b t' → Q' a t b t') :
    Follows ans p s q s' Q' := by
  intro a t ha
  obtain ⟨b, t', hb, hrel⟩ := h a t ha
  exact ⟨b, t', hb, hQ a t b t' ha hrel⟩

/-- Sequences, knowing how the first part of the first one ends. -/
theorem bind {f : α → Prog σ E R ε γ} {g : β → Prog σ E R ε δ} {Q' : γ → σ → δ → σ → Prop}
    (h : Follows ans p s q s' Q)
    (hf : ∀ a t b t', p.exec ans s = .ok (a, t) → Q a t b t' → Follows ans (f a) t (g b) t' Q') :
    Follows ans (p >>= f) s (q >>= g) s' Q' := by
  intro c u hu
  obtain ⟨a, t, ha, hrest⟩ := exec_bind_ok.mp hu
  obtain ⟨b, t', hb, hrel⟩ := h a t ha
  obtain ⟨d, u', hd, hend⟩ := hf a t b t' ha hrel c u hrest
  exact ⟨d, u', (exec_bind_of hb).trans hd, hend⟩

/-- Sequences whose first parts are known to return. -/
theorem bind_ok {f : α → Prog σ E R ε γ} {g : β → Prog σ E R ε δ} {Q' : γ → σ → δ → σ → Prop}
    {a : α} {b : β} {t t' : σ} (ha : p.exec ans s = .ok (a, t)) (hb : q.exec ans s' = .ok (b, t'))
    (h : Follows ans (f a) t (g b) t' Q') : Follows ans (p >>= f) s (q >>= g) s' Q' := by
  unfold Follows at h ⊢
  rwa [exec_bind_of ha, exec_bind_of hb]

/-- Programs that run like the two. -/
theorem congr {p' : Prog σ E R ε α} {q' : Prog σ E R ε β} {t t' : σ}
    (hp : p.exec ans s = p'.exec ans t) (hq : q.exec ans s' = q'.exec ans t')
    (h : Follows ans p' t q' t' Q) : Follows ans p s q s' Q := by
  unfold Follows at h ⊢
  rwa [hp, hq]

theorem pure {a : α} {b : β} (h : Q a s b s') :
    Follows ans (Pure.pure a : Prog σ E R ε α) s (Pure.pure b : Prog σ E R ε β) s' Q :=
  .of_ok rfl rfl h

/-- A program that does not return. -/
theorem of_error {x : ε} (h : p.exec ans s = .error x) : Follows ans p s q s' Q := by
  intro a t ha
  rw [h] at ha
  cases ha

end Follows

end Prog
