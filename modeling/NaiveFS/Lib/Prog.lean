import Mathlib.Logic.Function.Basic

/-!
# Programs that call an environment

A `Prog σ E R ε α` is C-like code over a state `σ`: it reads and replaces
the state, calls an environment (`e : E` is the call, `R e` the type of its
answer), and ends with a value or with a fault (undefined behaviour).

One term has two meanings. `Prog.exec` runs it to its end against a fixed
table of answers, which is the sequential meaning. `Prog.advance`
(`Interleave`) runs it only up to its next sleeping call, which is what a
scheduler sees.
-/

/-- Code over a state `σ` that may call an environment and may fault. -/
inductive Prog (σ : Type) (E : Type) (R : E → Type) (ε : Type) (α : Type) : Type where
  | ret (a : α)
  | fault (x : ε)
  | get (k : σ → Prog σ E R ε α)
  | set (s : σ) (p : Prog σ E R ε α)
  | call (e : E) (k : R e → Prog σ E R ε α)

namespace Prog

variable {σ E ε α β γ : Type} {R : E → Type}

/-- Sequencing. -/
def bind : Prog σ E R ε α → (α → Prog σ E R ε β) → Prog σ E R ε β
  | .ret a, f => f a
  | .fault x, _ => .fault x
  | .get k, f => .get fun s => (k s).bind f
  | .set s p, f => .set s (p.bind f)
  | .call e k, f => .call e fun r => (k r).bind f

instance : Monad (Prog σ E R ε) where
  pure := .ret
  bind := .bind

protected theorem pure_bind (a : α) (f : α → Prog σ E R ε β) : pure a >>= f = f a := rfl

protected theorem bind_assoc (p : Prog σ E R ε α) (f : α → Prog σ E R ε β)
    (g : β → Prog σ E R ε γ) : p >>= f >>= g = p >>= fun a => f a >>= g := by
  show (p.bind f).bind g = p.bind fun a => (f a).bind g
  induction p with
  | ret | fault => rfl
  | get k ih => exact congrArg Prog.get (funext ih)
  | set s p ih => exact congrArg (Prog.set s) ih
  | call e k ih => exact congrArg (Prog.call e) (funext ih)

/-- Read a part of the state. -/
def read (f : σ → α) : Prog σ E R ε α := .get fun s => .ret (f s)

/-- Update the state. -/
def modify (f : σ → σ) : Prog σ E R ε Unit := .get fun s => .set (f s) (.ret ())

/-- A piece of code that does not call the environment. -/
def step (f : σ → Except ε (α × σ)) : Prog σ E R ε α := .get fun s =>
  match f s with
  | .ok (a, t) => .set t (.ret a)
  | .error x => .fault x

/-- A computation that neither uses the state nor calls the environment. -/
def lift : Except ε α → Prog σ E R ε α
  | .ok a => .ret a
  | .error x => .fault x

/-- Call the environment and return its answer. -/
def ask (e : E) : Prog σ E R ε (R e) := .call e .ret

/-- Run to the end; `ans` answers every call. -/
def exec (ans : (e : E) → R e) : Prog σ E R ε α → σ → Except ε (α × σ)
  | .ret a, s => .ok (a, s)
  | .fault x, _ => .error x
  | .get k, s => (k s).exec ans s
  | .set s p, _ => p.exec ans s
  | .call e k, s => (k (ans e)).exec ans s

variable {ans : (e : E) → R e} {s t u : σ}

@[simp] theorem exec_ret (a : α) :
    (Prog.ret a : Prog σ E R ε α).exec ans s = .ok (a, s) := rfl

@[simp] theorem exec_pure (a : α) :
    (pure a : Prog σ E R ε α).exec ans s = .ok (a, s) := rfl

@[simp] theorem exec_fault (x : ε) :
    (Prog.fault x : Prog σ E R ε α).exec ans s = .error x := rfl

@[simp] theorem exec_read (f : σ → α) :
    (Prog.read f : Prog σ E R ε α).exec ans s = .ok (f s, s) := rfl

@[simp] theorem exec_modify (f : σ → σ) :
    (Prog.modify f : Prog σ E R ε Unit).exec ans s = .ok ((), f s) := rfl

@[simp] theorem exec_step (f : σ → Except ε (α × σ)) :
    (Prog.step f : Prog σ E R ε α).exec ans s = f s := by
  show (match f s with
    | .ok (a, t) => (Prog.set t (.ret a) : Prog σ E R ε α)
    | .error x => .fault x).exec ans s = f s
  cases f s <;> rfl

theorem exec_lift_ok {x : Except ε α} {a : α} :
    (Prog.lift x : Prog σ E R ε α).exec ans s = .ok (a, t) ↔ x = .ok a ∧ s = t := by
  cases x <;> simp [Prog.lift]

@[simp] theorem exec_ask (e : E) :
    (Prog.ask e : Prog σ E R ε (R e)).exec ans s = .ok (ans e, s) := rfl

@[simp] theorem exec_ite {c : Prop} [Decidable c] {p q : Prog σ E R ε α} :
    (if c then p else q).exec ans s = if c then p.exec ans s else q.exec ans s := by
  split <;> rfl

theorem exec_bind (p : Prog σ E R ε α) (f : α → Prog σ E R ε β) :
    (p >>= f).exec ans s = (p.exec ans s).bind fun r => (f r.1).exec ans r.2 := by
  show (p.bind f).exec ans s = _
  induction p generalizing s with
  | ret a => rfl
  | fault x => rfl
  | get k ih => exact ih s
  | set s' p ih => exact ih
  | call e k ih => exact ih (ans e)

/-- A sequence returns when its first part does and the rest does from there. -/
theorem exec_bind_ok {p : Prog σ E R ε α} {f : α → Prog σ E R ε β} {b : β} :
    (p >>= f).exec ans s = .ok (b, u) ↔
      ∃ a t, p.exec ans s = .ok (a, t) ∧ (f a).exec ans t = .ok (b, u) := by
  rw [exec_bind]
  cases h : p.exec ans s with
  | error x => simp [Except.bind]
  | ok r =>
    obtain ⟨a, t⟩ := r
    simp only [Except.bind, Except.ok.injEq, Prod.mk.injEq]
    exact ⟨fun hb => ⟨a, t, ⟨rfl, rfl⟩, hb⟩, fun ⟨_, _, ⟨rfl, rfl⟩, hb⟩ => hb⟩

/-- Run the first part, knowing how it ends. -/
theorem exec_bind_of {p : Prog σ E R ε α} {f : α → Prog σ E R ε β} {a : α}
    (h : p.exec ans s = .ok (a, t)) : (p >>= f).exec ans s = (f a).exec ans t := by
  rw [exec_bind, h]
  rfl

/-- Sequences run alike when their first parts do and what follows does. -/
theorem exec_bind_congr {p q : Prog σ E R ε α} {f g : α → Prog σ E R ε β}
    (h : p.exec ans s = q.exec ans s)
    (hrest : ∀ a t, p.exec ans s = .ok (a, t) → (f a).exec ans t = (g a).exec ans t) :
    (p >>= f).exec ans s = (q >>= g).exec ans s := by
  rw [exec_bind, exec_bind, ← h]
  cases hp : p.exec ans s with
  | error x => rfl
  | ok r => exact hrest r.1 r.2 hp

/-- A fault of the first part is the fault of the sequence. -/
theorem exec_bind_error {p : Prog σ E R ε α} {f : α → Prog σ E R ε β} {x : ε}
    (h : p.exec ans s = .error x) : (p >>= f).exec ans s = .error x := by
  rw [exec_bind, h]
  rfl

@[simp] theorem exec_read_bind (g : σ → α) (f : α → Prog σ E R ε β) :
    (Prog.read g >>= f).exec ans s = (f (g s)).exec ans s := rfl

@[simp] theorem exec_modify_bind (g : σ → σ) (f : Unit → Prog σ E R ε β) :
    (Prog.modify g >>= f).exec ans s = (f ()).exec ans (g s) := rfl

@[simp] theorem exec_ask_bind (e : E) (f : R e → Prog σ E R ε β) :
    (Prog.ask e >>= f).exec ans s = (f (ans e)).exec ans s := rfl

@[simp] theorem exec_pure_bind (a : α) (f : α → Prog σ E R ε β) :
    ((pure a : Prog σ E R ε α) >>= f).exec ans s = (f a).exec ans s := rfl

@[simp] theorem exec_fault_bind (x : ε) (f : α → Prog σ E R ε β) :
    ((Prog.fault x : Prog σ E R ε α) >>= f).exec ans s = .error x := rfl

/-! ## Partial correctness

`Keeps I p`: whenever `p` starts in a state with `I` and returns, `I` holds
again. The rules follow the constructors of `Prog`. -/

/-- `p` returns to `I` from every state of `I`. -/
def Keeps (ans : (e : E) → R e) (I : σ → Prop) (p : Prog σ E R ε α) : Prop :=
  ∀ s a t, I s → p.exec ans s = .ok (a, t) → I t

variable {I : σ → Prop}

theorem Keeps.pure (a : α) : Keeps ans I (Pure.pure a : Prog σ E R ε α) := by
  intro s b t hs h
  cases h
  exact hs

theorem Keeps.fault (x : ε) : Keeps ans I (Prog.fault x : Prog σ E R ε α) := by
  intro s b t _ h
  cases h

theorem Keeps.read (f : σ → α) : Keeps ans I (Prog.read f : Prog σ E R ε α) := by
  intro s b t hs h
  cases h
  exact hs

theorem Keeps.ask (e : E) : Keeps ans I (Prog.ask e : Prog σ E R ε (R e)) := by
  intro s b t hs h
  cases h
  exact hs

theorem Keeps.modify {f : σ → σ} (hf : ∀ s, I s → I (f s)) :
    Keeps ans I (Prog.modify f : Prog σ E R ε Unit) := by
  intro s b t hs h
  cases h
  exact hf s hs

theorem Keeps.step {f : σ → Except ε (α × σ)}
    (hf : ∀ s a t, I s → f s = .ok (a, t) → I t) :
    Keeps ans I (Prog.step f : Prog σ E R ε α) := by
  intro s b t hs h
  rw [exec_step] at h
  exact hf s b t hs h

theorem Keeps.bind {p : Prog σ E R ε α} {f : α → Prog σ E R ε β}
    (hp : Keeps ans I p) (hf : ∀ a, Keeps ans I (f a)) : Keeps ans I (p >>= f) := by
  intro s b u hs h
  obtain ⟨a, t, ha, hb⟩ := exec_bind_ok.mp h
  exact hf a t b u (hp s a t hs ha) hb

theorem Keeps.ite {c : Prop} [Decidable c] {p q : Prog σ E R ε α}
    (hp : Keeps ans I p) (hq : Keeps ans I q) : Keeps ans I (if c then p else q) := by
  split
  · exact hp
  · exact hq

end Prog
