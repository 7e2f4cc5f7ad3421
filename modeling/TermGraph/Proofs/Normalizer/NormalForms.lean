import TermGraph.Proofs.Normalizer.Idempotence
import TermGraph.Proofs.Rewriting.Reduct

/-!
# Results are normal forms

A term is marked as a normal form once and the mark is never looked at again. Where no rule has a condition or its own
pattern in its template, no rule is ever passed over, so the marks mean what they say: nothing rewrites the term, with
whatever normalizer it is tried and whenever.

## Main statements

* `World.Serves.result_irreducible` — **no rule rewrites a result or any of its subterms**
-/

namespace TermGraph

namespace World

variable {rewriter : Rewriter} {normalizer scope : Nat} {world : World} {journal : Journal} {t r : Term}
  {session : Session}

/-- **No rule rewrites a result or any of its subterms**, whatever the normalizer has done before, if the rules are
calm: each subterm is known to be a normal form, and applying the rules to it finds nothing. -/
theorem Serves.result_irreducible (h : Serves rewriter normalizer world journal)
    (hcalm : ∀ rule ∈ rewriter.rules, rule.Calm)
    (hcall : Call rewriter normalizer world journal scope t (.ok r) session) :
    ∀ u ∈ r.postorder, session.cache.isNormal u = true ∧ ∀ (steps : Nat) (notes : Journal),
      ∃ notes', rewriter.apply steps u ⟨session.bench.store, notes⟩ = (.ok none, ⟨session.bench.store, notes'⟩) := by
  obtain ⟨hs, ⟨hle, hquiet⟩, v, hsettled, -⟩ := h.serving.answer hcall
  have hreads := hs.reads (hquiet hcalm (h.serving.calm hcalm))
  intro u hu
  obtain ⟨hown, hn⟩ := hs.orderly.postorder hs.canonical hsettled.owns hsettled.normal u hu
  have hvalue := hreads.value hs.canonical (Or.inl hown) hn
  rw [hs.canonical.scope_eq hown] at hvalue
  exact ⟨hn, fun steps notes => Rewriter.apply_of_irreducible steps hs.canonical (fun rule hr => (hcalm rule hr).plain)
    hs.within hs.apart hown (hvalue.irreducible hcalm)⟩

/-- `k(x)` becomes `λ.g(x, %0)`. -/
def abstracting : List Rule.Script := [⟨.fn "k" [.var "x"], .lambda (.fn "g" [.var "x", .bound (.clamp 0)]), none⟩]

/-- With contraction, `(λ.k(%0)) z` becomes `λ.g(z, %0)`, and nothing rewrites any part of that. -/
theorem irreducible_by_abstracting :
    let rules := .contraction :: furniture abstracting
    ∃ world t r session, Serves (.system rules) 1 world #[] ∧ (∀ rule ∈ rules, rule.Calm) ∧
      Call (.system rules) 1 world #[] 0 t (.ok r) session ∧
      t.tree = .app (.lambda (.fn "k" [.bound ⟨.clamp 0, 0⟩])) (.fn "z" []) ∧
      r.tree = .lambda (.fn "g" [.fn "z" [], .bound ⟨.clamp 0, 0⟩]) ∧
      ∀ u ∈ r.postorder, session.cache.isNormal u = true ∧ ∀ (steps : Nat) (notes : Journal),
        ∃ notes', Rewriter.apply (.system rules) steps u ⟨session.bench.store, notes⟩ =
          (.ok none, ⟨session.bench.store, notes'⟩) := by
  intro rules
  let tree : Tree Index := .app (.lambda (.fn "k" [.bound (.clamp 0)])) (.fn "z" [])
  have hrun : passes (Work.plant tree { store := .empty 0 }) fun t bench =>
      passes (Reduction.normalize (.system rules) 12 t (.fresh bench.store)) fun r _ =>
        decide (t.tree = .app (.lambda (.fn "k" [.bound ⟨.clamp 0, 0⟩])) (.fn "z" []) ∧
          r.tree = .lambda (.fn "g" [.fn "z" [], .bound ⟨.clamp 0, 0⟩])) := by
    decide +kernel
  obtain ⟨t, bench, hplant, hrun⟩ := exists_of_passes hrun
  obtain ⟨r, session, hreturns, htrees⟩ := exists_of_passes hrun
  obtain ⟨httree, hrtree⟩ := of_decide_eq_true htrees
  have ht := ((Work.plant_empty 0 tree).ok hplant).2.2.1
  have hcalm : ∀ rule ∈ rules, rule.Calm := by decide +kernel
  have hserves := (serves_system (List.Subset.refl rules) tree one_ne_zero).1
  have hcall : Call (.system rules) 1 _ #[] 0 t (.ok r) session :=
    system_call (List.Subset.refl rules) hplant ht hreturns
  exact ⟨_, t, r, session, hserves, hcalm, hcall, httree, hrtree, hserves.result_irreducible hcalm hcall⟩

end World

end TermGraph
