import TermGraph.Proofs.Normalizer.Serving

/-!
# Normalization and innermost evaluation

A normalizer shares its work among terms and among calls, follows links and copies what has changed. None of this
shows in its results where no rule runs into a cycle: a call returns the value that innermost evaluation finds
for the tree, and it returns if the evaluation comes to an end.

## Main statements

* `World.Serves.returns_iff_evaluates` — **whatever a normalizer has done before, it returns the value of a term**
-/

namespace TermGraph.World

/-- **Whatever calls came before, a call of a normalizer whose rules are calm returns a term with the value of the
tree, and it returns a term if and only if the tree has a value.** -/
theorem Serves.returns_iff_evaluates {rules : List Rule} {normalizer scope : Nat} {world : World}
    {journal : Journal} {t : Term} (h : Serves (.system rules) normalizer world journal)
    (hcalm : ∀ rule ∈ rules, rule.Calm) (hapart : ∀ rule ∈ rules, rule.scope? ≠ some scope)
    (ht : (world.stores scope).Owns t) (v : Tree Slot) :
    (∃ r session, Reduction.Returns (.system rules) t (world.session scope normalizer journal)
      (.ok r) session ∧ r.tree = v) ↔ Evaluates rules scope t.tree v := by
  have hserving := h.serving
  have hquiet := hserving.calm hcalm
  have hhas : world.Has t := (hserving.sound.holds_iff scope).mp (Or.inl ht)
  constructor
  · rintro ⟨r, session, hreturns, rfl⟩
    have hcall : Call (.system rules) normalizer world journal scope t (.ok r) session :=
      ⟨hhas, hapart, hreturns⟩
    obtain ⟨-, ⟨-, hstill⟩, -⟩ := hserving.answer hcall
    exact hserving.evaluates hcall (hstill hcalm hquiet) ht
  · intro hv
    obtain ⟨r, session, hcall, -, htree⟩ := hserving.completes hquiet hapart ht hv
    exact ⟨r, session, hcall.returns, htree⟩

/-- `g(f(x))` becomes `f(g(x))` at every depth, so `g(f(f(z)))` becomes `f(f(g(z)))`. -/
theorem returns_of_commuting :
    let rules := furniture [⟨.fn "g" [.fn "f" [.var "x"]], .fn "f" [.fn "g" [.var "x"]], none⟩]
    let tree : Tree Index := .fn "g" [.fn "f" [.fn "f" [.fn "z" []]]]
    let value : Tree Slot := .fn "f" [.fn "f" [.fn "g" [.fn "z" []]]]
    let world := (furnished [⟨.fn "g" [.fn "f" [.var "x"]], .fn "f" [.fn "g" [.var "x"]], none⟩]).step 0 0
      (.plant tree)
    Serves (.system rules) 1 world #[] ∧ (∀ rule ∈ rules, rule.Calm) ∧
      (∀ rule ∈ rules, rule.scope? ≠ some 0) ∧
      ∃ t, (world.stores 0).Owns t ∧ ∃ r session,
        Reduction.Returns (.system rules) t (world.session 0 1 #[]) (.ok r) session ∧ r.tree = value := by
  intro rules tree value world
  obtain ⟨hserves, hapart, t, ht, htree⟩ := serves_furnished
    [⟨.fn "g" [.fn "f" [.var "x"]], .fn "f" [.fn "g" [.var "x"]], none⟩] tree (one_ne_zero)
  have hcalm : ∀ rule ∈ rules, rule.Calm := by decide +kernel
  have hplanted : tree.planted 0 = .fn "g" [.fn "f" [.fn "f" [.fn "z" []]]] := by decide +kernel
  have hvalue : Evaluates rules 0 t.tree value := by
    rw [htree, hplanted]
    exact ⟨8, by decide +kernel⟩
  exact ⟨hserves, hcalm, hapart, t, ht,
    (hserves.returns_iff_evaluates hcalm hapart ht value).mpr hvalue⟩

end TermGraph.World
