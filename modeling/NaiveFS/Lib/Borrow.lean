import NaiveFS.Lib.Trace

/-!
# References taken and given back

A program works on counted things: `count s i` is the number of references to
`i`. `Borrows h p k s` says that from `s` on, where the caller's references and
those in `h` are counted, `p` never drops a reference of the caller, and returns
holding `k a` besides them. `Moves g p k` says so for every `s` and whatever is
held besides `g`; its rules follow the program.
-/

namespace Prog

variable {σ E ε α β ι : Type} {R : E → Type} [DecidableEq ι]

/-- From `s`, holding `h`, the run keeps the references of the caller and returns
holding `k` of its result. -/
def Borrows (ans : (e : E) → R e) (count : σ → ι → Int) (h : List ι) (p : Prog σ E R ε α)
    (k : α → List ι) (s : σ) : Prop :=
  ∀ e : ι → Int, (∀ i, count s i = e i + h.count i) →
    (∀ x ∈ p.stores ans s, ∀ i, e i ≤ count x.2 i) ∧
    ∀ a t, p.exec ans s = .ok (a, t) → ∀ i, count t i = e i + (k a).count i

/-- Whatever else is held, the run is given `g` and returns with `k` of its result. -/
def Moves (ans : (e : E) → R e) (count : σ → ι → Int) (g : List ι) (p : Prog σ E R ε α)
    (k : α → List ι) : Prop :=
  ∀ (h : List ι) (s : σ), Borrows ans count (g ++ h) p (fun a => k a ++ h) s

/-- Whatever is held, the run returns with the same. -/
abbrev Neutral (ans : (e : E) → R e) (count : σ → ι → Int) (p : Prog σ E R ε α) : Prop :=
  Moves ans count [] p fun _ => []

variable {ans : (e : E) → R e} {count : σ → ι → Int} {g h : List ι} {s : σ}

/-! ## From one state -/

theorem Borrows.pure {a : α} {k : α → List ι} (hk : k a = h) :
    Borrows ans count h (Pure.pure a : Prog σ E R ε α) k s := by
  intro e he
  constructor
  · intro x hx
    cases hx
  · intro b t hb i
    cases hb
    rw [hk, he]

theorem Borrows.bind {p : Prog σ E R ε α} {f : α → Prog σ E R ε β} {k : α → List ι}
    {k' : β → List ι} (hp : Borrows ans count h p k s)
    (hf : ∀ a t, p.exec ans s = .ok (a, t) → Borrows ans count (k a) (f a) k' t) :
    Borrows ans count h (p >>= f) k' s := by
  intro e he
  obtain ⟨hstores, hend⟩ := hp e he
  constructor
  · intro x hx
    rcases mem_stores_bind.mp hx with hx | ⟨a, t, ha, hx⟩
    · exact hstores x hx
    · exact (hf a t ha e (hend a t ha)).1 x hx
  · intro b u hb
    obtain ⟨a, t, ha, hb⟩ := exec_bind_ok.mp hb
    exact (hf a t ha e (hend a t ha)).2 b u hb

/-- What a run leaves, when all that was there before counts as the caller's. -/
theorem Borrows.count_end {p : Prog σ E R ε α} {k : α → List ι} {a : α} {t : σ}
    (hp : Borrows ans count h p k s) (ht : p.exec ans s = .ok (a, t)) (i : ι) :
    count t i + h.count i = count s i + (k a).count i := by
  have := (hp (fun i => count s i - h.count i) (fun i => by omega)).2 a t ht i
  omega

/-! ## Whatever else is held -/

theorem Moves.pure {a : α} {k : α → List ι} (hk : k a = g) :
    Moves ans count g (Pure.pure a : Prog σ E R ε α) k := by
  intro h s
  apply Borrows.pure
  rw [hk]

/-- With nothing else held. -/
theorem Moves.alone {p : Prog σ E R ε α} {k : α → List ι} (hp : Moves ans count g p k) :
    Borrows ans count g p k s := by
  have := hp [] s
  simpa only [List.append_nil] using this

theorem Moves.bind {p : Prog σ E R ε α} {f : α → Prog σ E R ε β} {k : α → List ι}
    {k' : β → List ι} (hp : Moves ans count g p k) (hf : ∀ a, Moves ans count (k a) (f a) k') :
    Moves ans count g (p >>= f) k' :=
  fun h s => (hp h s).bind fun a t _ => hf a h t

/-- A part that needs nothing leaves what is held for the rest. -/
theorem Moves.after {p : Prog σ E R ε α} {f : α → Prog σ E R ε β} {k : β → List ι}
    (hp : Neutral ans count p) (hf : ∀ a, Moves ans count g (f a) k) :
    Moves ans count g (p >>= f) k :=
  fun h s => (hp (g ++ h) s).bind fun a t _ => hf a h t

/-- The same from a state where the first part is known to return `a`. -/
theorem Borrows.after {p : Prog σ E R ε α} {f : α → Prog σ E R ε β} {k : β → List ι} {a : α}
    {t : σ} (hp : Neutral ans count p) (ha : p.exec ans s = .ok (a, t))
    (hf : Borrows ans count h (f a) k t) : Borrows ans count h (p >>= f) k s := by
  apply (hp h s).bind
  intro b u hb
  rw [ha] at hb
  cases hb
  exact hf

theorem Moves.ite {c : Prop} [Decidable c] {p q : Prog σ E R ε α} {k : α → List ι}
    (hp : Moves ans count g p k) (hq : Moves ans count g q k) :
    Moves ans count g (if c then p else q) k := by
  split
  · exact hp
  · exact hq

/-- The answer of a call decides what follows. -/
theorem Moves.ask {e : E} {f : R e → Prog σ E R ε α} {k : α → List ι}
    (hf : Moves ans count g (f (ans e)) k) : Moves ans count g (Prog.ask e >>= f) k :=
  fun h s => hf h s

private theorem count_cons_append (i j : ι) :
    (i :: g ++ h).count j = [i].count j + (g ++ h).count j := by
  rw [show i :: g ++ h = [i] ++ (g ++ h) from rfl, List.count_append]

/-- A store that adds a reference to `i`. -/
theorem Moves.take {f : σ → σ} {i : ι} (hf : ∀ s j, count (f s) j = count s j + [i].count j) :
    Moves ans count g (Prog.modify f : Prog σ E R ε Unit) fun _ => i :: g := by
  intro h s e he
  have hcount : ∀ j, count (f s) j = e j + (i :: g ++ h).count j := by
    intro j
    rw [hf, he, count_cons_append]
    omega
  constructor
  · intro x hx j
    obtain rfl := List.mem_singleton.mp hx
    show e j ≤ count (f s) j
    rw [hcount]
    omega
  · intro a t ht
    cases ht
    exact hcount

/-- A store that drops a reference held to `i`. -/
theorem Moves.give {f : σ → σ} {i : ι} (hf : ∀ s j, count (f s) j + [i].count j = count s j) :
    Moves ans count (i :: g) (Prog.modify f : Prog σ E R ε Unit) fun _ => g := by
  intro h s e he
  have hcount : ∀ j, count (f s) j = e j + (g ++ h).count j := by
    intro j
    have h1 := hf s j
    have h2 := he j
    rw [count_cons_append] at h2
    omega
  constructor
  · intro x hx j
    obtain rfl := List.mem_singleton.mp hx
    show e j ≤ count (f s) j
    rw [hcount]
    omega
  · intro a t ht
    cases ht
    exact hcount

/-! ## Programs that leave the counts alone -/

theorem Neutral.read (f : σ → α) : Neutral ans count (Prog.read f : Prog σ E R ε α) := by
  intro h s e he
  constructor
  · intro x hx
    cases hx
  · intro a t ht
    cases ht
    exact he

theorem Neutral.ask (e : E) : Neutral ans count (Prog.ask e : Prog σ E R ε (R e)) := by
  intro h s e he
  constructor
  · intro x hx
    cases hx
  · intro a t ht
    cases ht
    exact he

theorem Moves.fault {k : α → List ι} (x : ε) :
    Moves ans count g (Prog.fault x : Prog σ E R ε α) k := by
  intro h s e he
  constructor
  · intro x hx
    cases hx
  · intro a t ht
    cases ht

theorem Neutral.lift (x : Except ε α) : Neutral ans count (Prog.lift x : Prog σ E R ε α) := by
  cases x with
  | ok a => exact Moves.pure rfl
  | error e => exact Moves.fault e

theorem Neutral.modify {f : σ → σ} (hf : ∀ s, count (f s) = count s) :
    Neutral ans count (Prog.modify f : Prog σ E R ε Unit) := by
  intro h s e he
  constructor
  · intro x hx i
    obtain rfl := List.mem_singleton.mp hx
    show e i ≤ count (f s) i
    rw [hf, he]
    omega
  · intro a t ht i
    cases ht
    rw [hf, he]

theorem Neutral.step {f : σ → Except ε (α × σ)}
    (hf : ∀ s a t, f s = .ok (a, t) → count t = count s) :
    Neutral ans count (Prog.step f : Prog σ E R ε α) := by
  intro h s e he
  constructor
  · intro x hx i
    obtain ⟨a, ha, -⟩ := stores_step hx
    rw [hf s a x.2 ha, he]
    omega
  · intro a t ht i
    rw [exec_step] at ht
    rw [hf s a t ht, he]

/-- A store that leaves the counts alone, then the rest. -/
theorem Borrows.modify {f : σ → σ} {p : Unit → Prog σ E R ε α} {k : α → List ι}
    (hf : ∀ s, count (f s) = count s) (hp : Borrows ans count h (p ()) k (f s)) :
    Borrows ans count h (Prog.modify f >>= p) k s :=
  .after (Neutral.modify hf) (exec_modify f) hp

end Prog
