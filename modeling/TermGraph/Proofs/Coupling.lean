import TermGraph.Proofs.Discipline

/-!
# Two runs at once

Two computations on two states are coupled if they end alike: either both give results, and these are related, or both
end in a fault, and of the same kind. A discipline of pairs of states says how the states are related between any two
steps, so what is said of one computation by `Discipline.Yields` is said of two by `Discipline.Couples`.

A broken promise is no way to end alike. Coupled computations break none.
-/

namespace TermGraph

variable {σ τ α β γ δ : Type}

/-- Both faults are cycles, or the steps are used up both times. -/
inductive Fault.Alike : Fault → Fault → Prop
  | cycle (cycle cycle' : Cycle) : Alike (.cycle cycle) (.cycle cycle')
  | outOfSteps : Alike .outOfSteps .outOfSteps

/-- Both outcomes are results, which are related, or both are faults of the same kind. -/
inductive Outcomes (P : α → β → Prop) : Except Fault α → Except Fault β → Prop
  | ok {a : α} {b : β} (related : P a b) : Outcomes P (.ok a) (.ok b)
  | error {fault fault' : Fault} (alike : fault.Alike fault') : Outcomes P (.error fault) (.error fault')

namespace Discipline

/-- From the states `s` and `t` the two computations keep to the discipline and end alike, with results and states
that are related by `P`. -/
def Couples (D : Discipline (σ × τ)) (x : ExceptT Fault (StateM σ) α) (y : ExceptT Fault (StateM τ) β) (s : σ) (t : τ)
    (P : α → β → σ → τ → Prop) : Prop :=
  let left : Except Fault α × σ := x s
  let right : Except Fault β × τ := y t
  D.sound (left.2, right.2) ∧ D.grows (s, t) (left.2, right.2) ∧
    Outcomes (fun a b => P a b left.2 right.2) left.1 right.1

namespace Couples

variable {D : Discipline (σ × τ)} {x : ExceptT Fault (StateM σ) α} {y : ExceptT Fault (StateM τ) β} {s s' : σ}
  {t t' : τ}
  {P Q : α → β → σ → τ → Prop} {R : γ → δ → σ → τ → Prop}

theorem of_eq_ok {a : α} {b : β} (hx : x s = (.ok a, s')) (hy : y t = (.ok b, t')) (hs : D.sound (s', t'))
    (hg : D.grows (s, t) (s', t')) (hP : P a b s' t') : D.Couples x y s t P := by
  simp only [Couples, hx, hy]
  exact ⟨hs, hg, .ok hP⟩

theorem of_eq_error {fault fault' : Fault} (hx : x s = (.error fault, s')) (hy : y t = (.error fault', t'))
    (hs : D.sound (s', t')) (hg : D.grows (s, t) (s', t')) (hf : fault.Alike fault') : D.Couples x y s t P := by
  simp only [Couples, hx, hy]
  exact ⟨hs, hg, .error hf⟩

/-- The two ways in which coupled computations end. -/
theorem ends (h : D.Couples x y s t P) :
    (∃ a s' b t', x s = (.ok a, s') ∧ y t = (.ok b, t') ∧ D.sound (s', t') ∧ D.grows (s, t) (s', t') ∧ P a b s' t') ∨
    ∃ fault s' fault' t', x s = (.error fault, s') ∧ y t = (.error fault', t') ∧ D.sound (s', t') ∧
      D.grows (s, t) (s', t') ∧ fault.Alike fault' := by
  rcases hx : x s with ⟨left, s'⟩
  rcases hy : y t with ⟨right, t'⟩
  simp only [Couples, hx, hy] at h
  obtain ⟨hs, hg, hends⟩ := h
  cases hends with
  | ok hP => exact Or.inl ⟨_, s', _, t', rfl, rfl, hs, hg, hP⟩
  | error hf => exact Or.inr ⟨_, s', _, t', rfl, rfl, hs, hg, hf⟩

theorem mono (h : D.Couples x y s t P)
    (hPQ : ∀ a b s' t', D.sound (s', t') → D.grows (s, t) (s', t') → P a b s' t' → Q a b s' t') :
    D.Couples x y s t Q := by
  rcases h.ends with ⟨a, s', b, t', hx, hy, hs, hg, hP⟩ | ⟨fault, s', fault', t', hx, hy, hs, hg, hf⟩
  · exact .of_eq_ok hx hy hs hg (hPQ a b s' t' hs hg hP)
  · exact .of_eq_error hx hy hs hg hf

/-- That the states are sound is added to what is said of results. -/
theorem sounds (h : D.Couples x y s t P) : D.Couples x y s t fun a b s' t' => D.sound (s', t') ∧ P a b s' t' :=
  h.mono fun _ _ _ _ hs _ hP => ⟨hs, hP⟩

/-- A discipline may be exchanged for one that asks for less. -/
theorem relax {D' : Discipline (σ × τ)} (h : D.Couples x y s t P) (hsound : ∀ p, D.sound p → D'.sound p)
    (hgrows : ∀ p, D.grows (s, t) p → D'.grows (s, t) p) : D'.Couples x y s t P :=
  ⟨hsound _ h.1, hgrows _ h.2.1, h.2.2⟩

theorem pure {a : α} {b : β} (hs : D.sound (s, t)) (hP : P a b s t) :
    D.Couples (Pure.pure a : ExceptT Fault (StateM σ) α) (Pure.pure b : ExceptT Fault (StateM τ) β) s t P :=
  .of_eq_ok rfl rfl hs (D.refl _) hP

theorem throw {fault fault' : Fault} (hs : D.sound (s, t)) (hf : fault.Alike fault') :
    D.Couples (MonadExcept.throw fault : ExceptT Fault (StateM σ) α)
      (MonadExcept.throw fault' : ExceptT Fault (StateM τ) β) s t P :=
  .of_eq_error rfl rfl hs (D.refl _) hf

/-- One pair of computations after another. -/
theorem bind {f : α → ExceptT Fault (StateM σ) γ} {g : β → ExceptT Fault (StateM τ) δ} (h : D.Couples x y s t P)
    (hfg : ∀ a b s' t', D.sound (s', t') → D.grows (s, t) (s', t') → P a b s' t' →
      D.Couples (f a) (g b) s' t' R) : D.Couples (x >>= f) (y >>= g) s t R := by
  rcases h.ends with ⟨a, s', b, t', hx, hy, hs, hg, hP⟩ | ⟨fault, s', fault', t', hx, hy, hs, hg, hf⟩
  · have hxf : (x >>= f) s = f a s' := run_bind_ok hx
    have hyg : (y >>= g) t = g b t' := run_bind_ok hy
    rcases (hfg a b s' t' hs hg hP).ends with
      ⟨c, s'', d, t'', hf, hg', hs', hgrows, hR⟩ | ⟨fault, s'', fault', t'', hf, hg', hs', hgrows, halike⟩
    · exact .of_eq_ok (hxf.trans hf) (hyg.trans hg') hs' (D.trans hg hgrows) hR
    · exact .of_eq_error (hxf.trans hf) (hyg.trans hg') hs' (D.trans hg hgrows) halike
  · exact .of_eq_error (run_bind_error hx) (run_bind_error hy) hs hg hf

/-- What each of two computations yields couples them if it lets only such outcomes stand side by side as are alike. -/
theorem of_yields {D₁ : Discipline σ} {D₂ : Discipline τ} {P₁ : α → σ → Prop} {F₁ : Fault → σ → Prop}
    {P₂ : β → τ → Prop} {F₂ : Fault → τ → Prop} (h₁ : D₁.Yields x s P₁ F₁) (h₂ : D₂.Yields y t P₂ F₂)
    (hD : ∀ s' t', D₁.sound s' → D₁.grows s s' → D₂.sound t' → D₂.grows t t' →
      D.sound (s', t') ∧ D.grows (s, t) (s', t'))
    (hok : ∀ a s' b t', D₁.grows s s' → D₂.grows t t' → P₁ a s' → P₂ b t' → P a b s' t')
    (hleft : ∀ a s' fault t', P₁ a s' → F₂ fault t' → False)
    (hright : ∀ fault s' b t', F₁ fault s' → P₂ b t' → False)
    (herror : ∀ fault s' fault' t', F₁ fault s' → F₂ fault' t' → fault.Alike fault') : D.Couples x y s t P := by
  rcases hx : x s with ⟨fault | a, s'⟩ <;> rcases hy : y t with ⟨fault' | b, t'⟩
  · obtain ⟨hs, hg, hF⟩ := h₁.error hx
    obtain ⟨hs', hg', hF'⟩ := h₂.error hy
    obtain ⟨hsound, hgrows⟩ := hD s' t' hs hg hs' hg'
    exact .of_eq_error hx hy hsound hgrows (herror _ _ _ _ hF hF')
  · exact (hright _ _ _ _ (h₁.error hx).2.2 (h₂.ok hy).2.2).elim
  · exact (hleft _ _ _ _ (h₁.ok hx).2.2 (h₂.error hy).2.2).elim
  · obtain ⟨hs, hg, hP⟩ := h₁.ok hx
    obtain ⟨hs', hg', hP'⟩ := h₂.ok hy
    obtain ⟨hsound, hgrows⟩ := hD s' t' hs hg hs' hg'
    exact .of_eq_ok hx hy hsound hgrows (hok _ _ _ _ hg hg' hP hP')

end Couples

end Discipline

end TermGraph
