import NaiveFS.Lib.Prog

/-!
# The stores of a run

`Prog.stores` lists the states a run goes through: one pair for each time the
program replaces the state. What a program may do on the way, and not only where
it ends, is a property of this list. `Prog.Ensures` is about the end only.
-/

namespace Prog

variable {σ E ε α β : Type} {R : E → Type} {ans : (e : E) → R e} {s t : σ}

/-! ## Stores -/

/-- The state before and after each store of the run. -/
def stores (ans : (e : E) → R e) : Prog σ E R ε α → σ → List (σ × σ)
  | .ret _, _ => []
  | .fault _, _ => []
  | .get k, s => (k s).stores ans s
  | .set t p, s => (s, t) :: p.stores ans t
  | .call e k, s => (k (ans e)).stores ans s

@[simp] theorem stores_pure (a : α) : (pure a : Prog σ E R ε α).stores ans s = [] := rfl

@[simp] theorem stores_fault (x : ε) : (Prog.fault x : Prog σ E R ε α).stores ans s = [] := rfl

@[simp] theorem stores_read (f : σ → α) : (Prog.read f : Prog σ E R ε α).stores ans s = [] := rfl

@[simp] theorem stores_ask (e : E) : (Prog.ask e : Prog σ E R ε (R e)).stores ans s = [] := rfl

@[simp] theorem stores_modify (f : σ → σ) :
    (Prog.modify f : Prog σ E R ε Unit).stores ans s = [(s, f s)] := rfl

theorem stores_step {f : σ → Except ε (α × σ)} {x : σ × σ}
    (h : x ∈ (Prog.step f : Prog σ E R ε α).stores ans s) : ∃ a, f s = .ok (a, x.2) ∧ x.1 = s := by
  rw [step, stores] at h
  cases hf : f s with
  | error y =>
    rw [hf] at h
    cases h
  | ok r =>
    rw [hf] at h
    obtain rfl := List.mem_singleton.mp h
    exact ⟨r.1, rfl, rfl⟩

theorem stores_step_ok {f : σ → Except ε (α × σ)} {a : α} (h : f s = .ok (a, t)) :
    (Prog.step f : Prog σ E R ε α).stores ans s = [(s, t)] := by
  rw [step, stores, h]
  rfl

/-- The stores of the first part, then those of the rest. -/
theorem stores_bind {p : Prog σ E R ε α} {f : α → Prog σ E R ε β} :
    (p >>= f).stores ans s = p.stores ans s ++
      match p.exec ans s with
      | .ok r => (f r.1).stores ans r.2
      | .error _ => [] := by
  show (p.bind f).stores ans s = _
  induction p generalizing s with
  | ret a => rfl
  | fault y => rfl
  | get k ih => exact ih s
  | set t p ih => exact congrArg ((s, t) :: ·) ih
  | call e k ih => exact ih (ans e)

theorem stores_bind_of {p : Prog σ E R ε α} {f : α → Prog σ E R ε β} {a : α}
    (h : p.exec ans s = .ok (a, t)) :
    (p >>= f).stores ans s = p.stores ans s ++ (f a).stores ans t := by
  rw [stores_bind, h]

theorem mem_stores_bind {p : Prog σ E R ε α} {f : α → Prog σ E R ε β} {x : σ × σ} :
    x ∈ (p >>= f).stores ans s ↔
      x ∈ p.stores ans s ∨ ∃ a t, p.exec ans s = .ok (a, t) ∧ x ∈ (f a).stores ans t := by
  rw [stores_bind, List.mem_append]
  cases p.exec ans s with
  | error y => simp
  | ok r =>
    constructor
    · rintro (h | h)
      · exact .inl h
      · exact .inr ⟨r.1, r.2, rfl, h⟩
    · rintro (h | ⟨a, t, hr, h⟩)
      · exact .inl h
      · cases hr
        exact .inr h

/-! ## What every store does -/

/-- Each store of each run of `p` satisfies `P`. -/
def Only (ans : (e : E) → R e) (P : σ → σ → Prop) (p : Prog σ E R ε α) : Prop :=
  ∀ s, ∀ x ∈ p.stores ans s, P x.1 x.2

variable {P : σ → σ → Prop}

theorem Only.pure (a : α) : Only ans P (Pure.pure a : Prog σ E R ε α) := by
  intro s x h
  cases h

theorem Only.read (f : σ → α) : Only ans P (Prog.read f : Prog σ E R ε α) := by
  intro s x h
  cases h

theorem Only.ask (e : E) : Only ans P (Prog.ask e : Prog σ E R ε (R e)) := by
  intro s x h
  cases h

theorem Only.modify {f : σ → σ} (h : ∀ s, P s (f s)) :
    Only ans P (Prog.modify f : Prog σ E R ε Unit) := by
  intro s x hx
  obtain rfl := List.mem_singleton.mp hx
  exact h s

theorem Only.step {f : σ → Except ε (α × σ)} (h : ∀ s a t, f s = .ok (a, t) → P s t) :
    Only ans P (Prog.step f : Prog σ E R ε α) := by
  intro s x hx
  obtain ⟨a, hf, rfl⟩ := stores_step hx
  exact h _ a _ hf

theorem Only.bind {p : Prog σ E R ε α} {f : α → Prog σ E R ε β} (hp : Only ans P p)
    (hf : ∀ a, Only ans P (f a)) : Only ans P (p >>= f) := by
  intro s x hx
  rcases mem_stores_bind.mp hx with h | ⟨a, t, -, h⟩
  · exact hp s x h
  · exact hf a t x h

/-! ## What holds at the end -/

/-- Whenever `p` returns, its result and final state satisfy `Q`. -/
def Ensures (ans : (e : E) → R e) (Q : α → σ → Prop) (p : Prog σ E R ε α) : Prop :=
  ∀ s a t, p.exec ans s = .ok (a, t) → Q a t

variable {Q : β → σ → Prop}

theorem Ensures.pure {b : β} (h : ∀ s, Q b s) :
    Ensures ans Q (Pure.pure b : Prog σ E R ε β) := by
  intro s a t ht
  cases ht
  exact h s

theorem Ensures.bind {p : Prog σ E R ε α} {f : α → Prog σ E R ε β}
    (h : ∀ a, Ensures ans Q (f a)) : Ensures ans Q (p >>= f) := by
  intro s b t ht
  obtain ⟨a, u, -, hb⟩ := exec_bind_ok.mp ht
  exact h a u b t hb

theorem Ensures.ask_bind {e : E} {f : R e → Prog σ E R ε β}
    (h : Ensures ans Q (f (ans e))) : Ensures ans Q (Prog.ask e >>= f) := by
  intro s b t ht
  exact h s b t ht

theorem Ensures.ite {c : Prop} [Decidable c] {p q : Prog σ E R ε β}
    (hp : Ensures ans Q p) (hq : Ensures ans Q q) : Ensures ans Q (if c then p else q) := by
  split
  · exact hp
  · exact hq

/-! ## Stores of the runs with a given result -/

/-- Each store of each run of `p` that returns a result with `c` satisfies `P`. -/
def OnlyWhen (ans : (e : E) → R e) (c : β → Prop) (P : σ → σ → Prop) (p : Prog σ E R ε β) : Prop :=
  ∀ s b t, p.exec ans s = .ok (b, t) → c b → ∀ x ∈ p.stores ans s, P x.1 x.2

variable {c : β → Prop}

theorem OnlyWhen.of_only {p : Prog σ E R ε β} (h : Only ans P p) : OnlyWhen ans c P p := by
  intro s b t _ _ x hx
  exact h s x hx

/-- A program that returns no such result has nothing to show. -/
theorem OnlyWhen.never {p : Prog σ E R ε β} (h : Ensures ans (fun b _ => ¬ c b) p) :
    OnlyWhen ans c P p := by
  intro s b t hp hc
  exact absurd hc (h s b t hp)

theorem OnlyWhen.bind {p : Prog σ E R ε α} {f : α → Prog σ E R ε β} (hp : Only ans P p)
    (hf : ∀ a, OnlyWhen ans c P (f a)) : OnlyWhen ans c P (p >>= f) := by
  intro s b t hpf hc x hx
  obtain ⟨a, u, hpa, hfa⟩ := exec_bind_ok.mp hpf
  rw [stores_bind_of hpa] at hx
  rcases List.mem_append.mp hx with h | h
  · exact hp s x h
  · exact hf a u b t hfa hc x h

theorem OnlyWhen.ite {d : Prop} [Decidable d] {p q : Prog σ E R ε β}
    (hp : OnlyWhen ans c P p) (hq : OnlyWhen ans c P q) :
    OnlyWhen ans c P (if d then p else q) := by
  split
  · exact hp
  · exact hq

end Prog
