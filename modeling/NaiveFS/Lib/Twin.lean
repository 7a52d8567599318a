import NaiveFS.Lib.Prog

/-!
# Two runs side by side

`Prog.Twin` relates a run of one program to a run of another, with the same answers from the
environment: both end, and the results and the states they leave are related, or both stop at
the same fault. What two states must share for a program to give the same in both is proved
step by step with the rules for sequences and for the ways a program touches its state.
-/

namespace Prog

variable {σ E ε α β γ δ : Type} {R : E → Type} {ans : (e : E) → R e} {s s' : σ}
  {p : Prog σ E R ε α} {q : Prog σ E R ε β} {Q : α → σ → β → σ → Prop}

/-- `p` from `s` and `q` from `s'` end as `Q` says, or stop at the same fault. -/
def Twin (ans : (e : E) → R e) (p : Prog σ E R ε α) (s : σ) (q : Prog σ E R ε β) (s' : σ)
    (Q : α → σ → β → σ → Prop) : Prop :=
  (∃ x, p.exec ans s = .error x ∧ q.exec ans s' = .error x) ∨
    ∃ a t b t', p.exec ans s = .ok (a, t) ∧ q.exec ans s' = .ok (b, t') ∧ Q a t b t'

namespace Twin

theorem of_ok {a : α} {b : β} {t t' : σ} (h : p.exec ans s = .ok (a, t))
    (h' : q.exec ans s' = .ok (b, t')) (hQ : Q a t b t') : Twin ans p s q s' Q :=
  .inr ⟨a, t, b, t', h, h', hQ⟩

/-- A weaker relation, knowing how the first run ends. -/
theorem mono {Q' : α → σ → β → σ → Prop} (h : Twin ans p s q s' Q)
    (hQ : ∀ a t b t', p.exec ans s = .ok (a, t) → Q a t b t' → Q' a t b t') :
    Twin ans p s q s' Q' := by
  rcases h with hx | ⟨a, t, b, t', ha, hb, hrel⟩
  · exact .inl hx
  · exact .of_ok ha hb (hQ a t b t' ha hrel)

/-- Sequences, knowing how the first part of the first one ends. -/
theorem bind {f : α → Prog σ E R ε γ} {g : β → Prog σ E R ε δ} {Q' : γ → σ → δ → σ → Prop}
    (h : Twin ans p s q s' Q)
    (hf : ∀ a t b t', p.exec ans s = .ok (a, t) → Q a t b t' → Twin ans (f a) t (g b) t' Q') :
    Twin ans (p >>= f) s (q >>= g) s' Q' := by
  rcases h with ⟨x, hx, hx'⟩ | ⟨a, t, b, t', ha, hb, hrel⟩
  · refine .inl ⟨x, ?_, ?_⟩
    · rw [exec_bind, hx]
      rfl
    · rw [exec_bind, hx']
      rfl
  · have hrest := hf a t b t' ha hrel
    unfold Twin at hrest ⊢
    rw [exec_bind_of ha, exec_bind_of hb]
    exact hrest

/-- Sequences whose first parts are known to end. -/
theorem bind_ok {f : α → Prog σ E R ε γ} {g : β → Prog σ E R ε δ} {Q' : γ → σ → δ → σ → Prop}
    {a : α} {b : β} {t t' : σ} (ha : p.exec ans s = .ok (a, t)) (hb : q.exec ans s' = .ok (b, t'))
    (h : Twin ans (f a) t (g b) t' Q') : Twin ans (p >>= f) s (q >>= g) s' Q' := by
  unfold Twin at h ⊢
  rwa [exec_bind_of ha, exec_bind_of hb]

/-- Programs that run like the two. -/
theorem congr {p' : Prog σ E R ε α} {q' : Prog σ E R ε β} {t t' : σ}
    (hp : p.exec ans s = p'.exec ans t) (hq : q.exec ans s' = q'.exec ans t')
    (h : Twin ans p' t q' t' Q) : Twin ans p s q s' Q := by
  unfold Twin at h ⊢
  rwa [hp, hq]

theorem pure {a : α} {b : β} (h : Q a s b s') :
    Twin ans (Pure.pure a : Prog σ E R ε α) s (Pure.pure b : Prog σ E R ε β) s' Q :=
  .of_ok rfl rfl h

theorem fault (x : ε) :
    Twin ans (Prog.fault x : Prog σ E R ε α) s (Prog.fault x : Prog σ E R ε β) s' Q :=
  .inl ⟨x, rfl, rfl⟩

end Twin

end Prog
