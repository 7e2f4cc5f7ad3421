import TermGraph.Fault

/-!
# Disciplines of computations

The computations of this library keep their state when they fail. A discipline says what is true of a
state between any two steps and how the state may change; that a computation `Yields` something under a
discipline says that it keeps to it whichever way it ends, with one property for the results it gives
and one for the faults it ends with.

Computations are put together by `Yields.bind`; the two forms after it are for computations that carry
a record of their own on top of the state.
-/

namespace TermGraph

/-! ## One computation after another -/

section

variable {σ α β : Type} {x : ExceptT Fault (StateM σ) α} {f : α → ExceptT Fault (StateM σ) β} {s s' : σ}

theorem run_bind_ok {a : α} (h : x s = (.ok a, s')) : (x >>= f) s = f a s' := by
  simp only [Bind.bind, ExceptT.bind, ExceptT.mk, StateT.bind, h]
  rfl

theorem run_bind_error {fault : Fault} (h : x s = (.error fault, s')) : (x >>= f) s = (.error fault, s') := by
  simp only [Bind.bind, ExceptT.bind, ExceptT.mk, StateT.bind, h]
  rfl

end

/-! ## Disciplines -/

/-- What holds of the states that computations start from and leave, and how a state may change. -/
structure Discipline (σ : Type) where
  sound : σ → Prop
  grows : σ → σ → Prop
  refl : ∀ s, grows s s
  trans : ∀ {s s' s''}, grows s s' → grows s' s'' → grows s s''

namespace Discipline

variable {σ τ ρ α β : Type}

/-- From the state `s` the computation keeps to the discipline: a result and the state it is given in
have the property `P`, a fault and the state it leaves the property `F`. -/
def Yields (D : Discipline σ) (x : ExceptT Fault (StateM σ) α) (s : σ) (P : α → σ → Prop)
    (F : Fault → σ → Prop) : Prop :=
  let after : Except Fault α × σ := x s
  D.sound after.2 ∧ D.grows s after.2 ∧
    match after.1 with
    | .ok a => P a after.2
    | .error fault => F fault after.2

namespace Yields

variable {D : Discipline σ} {s : σ} {P : α → σ → Prop} {Q : β → σ → Prop} {F G : Fault → σ → Prop}

theorem of_eq_ok {x : ExceptT Fault (StateM σ) α} {a : α} {s' : σ} (hx : x s = (.ok a, s'))
    (hs : D.sound s') (hg : D.grows s s') (ha : P a s') : D.Yields x s P F := by
  simp only [Yields, hx]
  exact ⟨hs, hg, ha⟩

theorem of_eq_error {x : ExceptT Fault (StateM σ) α} {fault : Fault} {s' : σ}
    (hx : x s = (.error fault, s')) (hs : D.sound s') (hg : D.grows s s') (hf : F fault s') :
    D.Yields x s P F := by
  simp only [Yields, hx]
  exact ⟨hs, hg, hf⟩

theorem sound {x : ExceptT Fault (StateM σ) α} (hx : D.Yields x s P F) : D.sound (x s).2 := hx.1

theorem grows {x : ExceptT Fault (StateM σ) α} (hx : D.Yields x s P F) : D.grows s (x s).2 := hx.2.1

theorem ok {x : ExceptT Fault (StateM σ) α} {a : α} {s' : σ} (hx : D.Yields x s P F)
    (h : x s = (.ok a, s')) : D.sound s' ∧ D.grows s s' ∧ P a s' := by
  simpa only [Yields, h] using hx

theorem error {x : ExceptT Fault (StateM σ) α} {fault : Fault} {s' : σ} (hx : D.Yields x s P F)
    (h : x s = (.error fault, s')) : D.sound s' ∧ D.grows s s' ∧ F fault s' := by
  simpa only [Yields, h] using hx

/-- A computation for which no fault is possible succeeds. -/
theorem succeeds {x : ExceptT Fault (StateM σ) α} (hx : D.Yields x s P fun _ _ => False) :
    ∃ a s', x s = (.ok a, s') ∧ D.sound s' ∧ D.grows s s' ∧ P a s' := by
  rcases h : x s with ⟨fault | a, s'⟩
  · exact (hx.error h).2.2.elim
  · exact ⟨a, s', rfl, hx.ok h⟩

/-- What a computation yields may be weakened. -/
theorem mono {x : ExceptT Fault (StateM σ) α} {P' : α → σ → Prop} (hx : D.Yields x s P F)
    (hP : ∀ a s', D.sound s' → D.grows s s' → P a s' → P' a s')
    (hF : ∀ fault s', D.sound s' → D.grows s s' → F fault s' → G fault s') :
    D.Yields x s P' G := by
  rcases h : x s with ⟨a | a, s'⟩
  · obtain ⟨h1, h2, h3⟩ := hx.error h
    exact of_eq_error h h1 h2 (hF a s' h1 h2 h3)
  · obtain ⟨h1, h2, h3⟩ := hx.ok h
    exact of_eq_ok h h1 h2 (hP a s' h1 h2 h3)

/-- Only what is said of faults is weakened. -/
theorem mono_fault {x : ExceptT Fault (StateM σ) α} (hx : D.Yields x s P F)
    (hF : ∀ fault s', D.sound s' → D.grows s s' → F fault s' → G fault s') : D.Yields x s P G :=
  hx.mono (fun _ _ _ _ hP => hP) hF

/-- Of a computation for which no fault is possible, anything is true of its faults. -/
theorem no_fault {x : ExceptT Fault (StateM σ) α} (hx : D.Yields x s P fun _ _ => False) : D.Yields x s P F :=
  hx.mono_fault fun _ _ _ _ hf => hf.elim

/-- What is known of the state that is left is added to what is said of results and faults. -/
theorem after {x : ExceptT Fault (StateM σ) α} {R : σ → Prop} (hx : D.Yields x s P F) (hR : R (x s).2) :
    D.Yields x s (fun a s' => P a s' ∧ R s') (fun fault s' => F fault s' ∧ R s') := by
  rcases h : x s with ⟨fault | a, s'⟩
  · obtain ⟨h1, h2, h3⟩ := hx.error h
    exact of_eq_error h h1 h2 ⟨h3, by rwa [h] at hR⟩
  · obtain ⟨h1, h2, h3⟩ := hx.ok h
    exact of_eq_ok h h1 h2 ⟨h3, by rwa [h] at hR⟩

/-- The run itself is added to what is said of its result. -/
theorem ran {x : ExceptT Fault (StateM σ) α} (hx : D.Yields x s P F) :
    D.Yields x s (fun a s' => P a s' ∧ x s = (.ok a, s')) F := by
  rcases h : x s with ⟨fault | a, s'⟩
  · obtain ⟨h1, h2, h3⟩ := hx.error h
    exact of_eq_error h h1 h2 h3
  · obtain ⟨h1, h2, h3⟩ := hx.ok h
    exact of_eq_ok h h1 h2 ⟨h3, rfl⟩

/-- What is known of all faults of a computation is added to what is said of them. -/
theorem faults {x : ExceptT Fault (StateM σ) α} {R : Fault → Prop} (hx : D.Yields x s P F)
    (hR : ∀ {fault s'}, x s = (.error fault, s') → R fault) :
    D.Yields x s P fun fault s' => F fault s' ∧ R fault := by
  rcases h : x s with ⟨fault | a, s'⟩
  · obtain ⟨h1, h2, h3⟩ := hx.error h
    exact of_eq_error h h1 h2 ⟨h3, hR h⟩
  · obtain ⟨h1, h2, h3⟩ := hx.ok h
    exact of_eq_ok h h1 h2 h3

/-- What is known of one run in two ways, perhaps under two disciplines, holds at once. -/
theorem and {D' : Discipline σ} {P' : α → σ → Prop} {x : ExceptT Fault (StateM σ) α} (hx : D.Yields x s P F)
    (hx' : D'.Yields x s P' G) :
    D.Yields x s (fun a s' => P a s' ∧ P' a s') (fun fault s' => F fault s' ∧ G fault s') := by
  rcases h : x s with ⟨fault | a, s'⟩
  · obtain ⟨h1, h2, h3⟩ := hx.error h
    exact of_eq_error h h1 h2 ⟨h3, (hx'.error h).2.2⟩
  · obtain ⟨h1, h2, h3⟩ := hx.ok h
    exact of_eq_ok h h1 h2 ⟨h3, (hx'.ok h).2.2⟩

/-- A discipline may be exchanged for one that asks for less. -/
theorem relax {D' : Discipline σ} {x : ExceptT Fault (StateM σ) α} (hx : D.Yields x s P F)
    (hsound : ∀ s', D.sound s' → D'.sound s') (hgrows : ∀ s', D.grows s s' → D'.grows s s') :
    D'.Yields x s P F :=
  ⟨hsound _ hx.1, hgrows _ hx.2.1, hx.2.2⟩

theorem pure {a : α} (hs : D.sound s) (ha : P a s) :
    D.Yields (Pure.pure a : ExceptT Fault (StateM σ) α) s P F :=
  of_eq_ok rfl hs (D.refl s) ha

theorem throw {fault : Fault} (hs : D.sound s) (hf : F fault s) :
    D.Yields (MonadExcept.throw fault : ExceptT Fault (StateM σ) α) s P F :=
  of_eq_error rfl hs (D.refl s) hf

/-- One computation after another. What the first yields is there when the second starts. -/
theorem bind {x : ExceptT Fault (StateM σ) α} {f : α → ExceptT Fault (StateM σ) β}
    (hx : D.Yields x s P F)
    (hf : ∀ a s', D.sound s' → D.grows s s' → P a s' → D.Yields (f a) s' Q F) :
    D.Yields (x >>= f) s Q F := by
  rcases h : x s with ⟨fault | a, s'⟩
  · obtain ⟨h1, h2, h3⟩ := hx.error h
    exact of_eq_error (run_bind_error h) h1 h2 h3
  · obtain ⟨h1, h2, h3⟩ := hx.ok h
    have he : (x >>= f) s = f a s' := run_bind_ok h
    have hfa := hf a s' h1 h2 h3
    rcases hb : f a s' with ⟨fault | b, s''⟩
    · obtain ⟨h4, h5, h6⟩ := hfa.error hb
      exact of_eq_error (he.trans hb) h4 (D.trans h2 h5) h6
    · obtain ⟨h4, h5, h6⟩ := hfa.ok hb
      exact of_eq_ok (he.trans hb) h4 (D.trans h2 h5) h6

/-- The state is read first. -/
theorem read {f : σ → ExceptT Fault (StateM σ) β} (hf : D.Yields (f s) s Q F) :
    D.Yields (MonadState.get >>= f) s Q F :=
  hf

/-- A function of the result. -/
theorem map {x : ExceptT Fault (StateM σ) α} {f : α → β}
    (hx : D.Yields x s (fun a s' => Q (f a) s') F) : D.Yields (f <$> x) s Q F := by
  rcases h : x s with ⟨fault | a, s'⟩
  · obtain ⟨h1, h2, h3⟩ := hx.error h
    have he : (f <$> x) s = (.error fault, s') := by
      simp only [Functor.map, ExceptT.map, ExceptT.mk, Bind.bind, StateT.bind, h]
      rfl
    exact of_eq_error he h1 h2 h3
  · obtain ⟨h1, h2, h3⟩ := hx.ok h
    have he : (f <$> x) s = (.ok (f a), s') := by
      simp only [Functor.map, ExceptT.map, ExceptT.mk, Bind.bind, StateT.bind, h]
      rfl
    exact of_eq_ok he h1 h2 h3

/-- One after another, with a record. -/
theorem bindState {x : StateT τ (ExceptT Fault (StateM σ)) α} {t : τ} {P : α × τ → σ → Prop}
    {f : α → StateT τ (ExceptT Fault (StateM σ)) β} {Q : β × τ → σ → Prop}
    (hx : D.Yields (x t) s P F)
    (hf : ∀ a t' s', D.sound s' → D.grows s s' → P (a, t') s' → D.Yields (f a t') s' Q F) :
    D.Yields ((x >>= f) t) s Q F :=
  hx.bind fun p s' => hf p.1 p.2 s'

/-- The record is read first. -/
theorem readRecord {t : τ} {f : τ → StateT τ (ExceptT Fault (StateM σ)) β} {Q : β × τ → σ → Prop}
    (hf : D.Yields (f t t) s Q F) : D.Yields ((MonadState.get >>= f) t) s Q F :=
  hf

/-- The state below a record is read first. -/
theorem readState {t : τ} {f : σ → StateT τ (ExceptT Fault (StateM σ)) β} {Q : β × τ → σ → Prop}
    (hf : D.Yields (f s t) s Q F) : D.Yields ((getThe σ >>= f) t) s Q F :=
  hf

/-- One after another, with two records. -/
theorem bindState₂ {x : StateT τ (StateT ρ (ExceptT Fault (StateM σ))) α} {t : τ} {r : ρ}
    {P : (α × τ) × ρ → σ → Prop} {f : α → StateT τ (StateT ρ (ExceptT Fault (StateM σ))) β}
    {Q : (β × τ) × ρ → σ → Prop} (hx : D.Yields (x t r) s P F)
    (hf : ∀ a t' r' s', D.sound s' → D.grows s s' → P ((a, t'), r') s' →
      D.Yields (f a t' r') s' Q F) :
    D.Yields ((x >>= f) t r) s Q F :=
  hx.bind fun p s' => hf p.1.1 p.1.2 p.2 s'

/-- The upper of two records is read first. -/
theorem readRecord₂ {t : τ} {r : ρ} {f : τ → StateT τ (StateT ρ (ExceptT Fault (StateM σ))) β}
    {Q : (β × τ) × ρ → σ → Prop} (hf : D.Yields (f t t r) s Q F) :
    D.Yields ((MonadState.get >>= f) t r) s Q F :=
  hf

/-- The record is dropped at the end. -/
theorem dropState {x : StateT τ (ExceptT Fault (StateM σ)) α} {t : τ}
    (hx : D.Yields (x t) s (fun p s' => P p.1 s') F) : D.Yields (x.run' t) s P F :=
  hx.map

/-- Both records are dropped at the end. -/
theorem dropState₂ {x : StateT τ (StateT ρ (ExceptT Fault (StateM σ))) α} {t : τ} {r : ρ}
    (hx : D.Yields (x t r) s (fun p s' => P p.1.1 s') F) :
    D.Yields ((x.run' t).run' r) s P F :=
  dropState (P := fun a s' => P a s') (x := x.run' t) (hx.map (f := fun p : (α × τ) × ρ => (p.1.1, p.2)))

/-- A computation without a record of its own leaves the record alone. -/
theorem liftState {x : ExceptT Fault (StateM σ) α} {t : τ} (hx : D.Yields x s P F) :
    D.Yields ((liftM x : StateT τ (ExceptT Fault (StateM σ)) α) t) s
      (fun p s' => P p.1 s' ∧ p.2 = t) F :=
  hx.bind fun a _ hs _ ha => .pure (a := (a, t)) hs ⟨ha, rfl⟩

/-- A computation without a record of its own leaves both records alone. -/
theorem liftState₂ {x : ExceptT Fault (StateM σ) α} {t : τ} {r : ρ} (hx : D.Yields x s P F) :
    D.Yields ((liftM x : StateT τ (StateT ρ (ExceptT Fault (StateM σ))) α) t r) s
      (fun p s' => P p.1.1 s' ∧ p.1.2 = t ∧ p.2 = r) F :=
  hx.liftState.bind fun p _ hs _ hp =>
    .pure (a := ((p.1, t), p.2)) hs ⟨hp.1, rfl, hp.2⟩

end Yields

end Discipline

/-! ## Outcomes -/

/-- The outcome is a result, and it and the state that is left pass the test. -/
def passes {α σ : Type} (outcome : Except Fault α × σ) (test : α → σ → Bool) : Bool :=
  match outcome with
  | (.ok a, s) => test a s
  | (.error _, _) => false

theorem exists_of_passes {α σ : Type} {outcome : Except Fault α × σ} {test : α → σ → Bool}
    (h : passes outcome test = true) : ∃ a s, outcome = (.ok a, s) ∧ test a s = true := by
  obtain ⟨fault | a, s⟩ := outcome
  · cases h
  · exact ⟨a, s, rfl, h⟩

end TermGraph
