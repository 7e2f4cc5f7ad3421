import TermGraph.Proofs.Furnished

/-!
# No assertion fails within

What a store asserts is about its callers: children come from the store, an application gets two of them and a lambda
one, and a node that is found under its shape stands behind its children. Insertion, rules and normalization call
stores with terms that come from the store of the rule, that of the subject and the one that is worked on, with what
links and normalizers lead to, and with reducts that become children. They keep what they promise: whatever they are
given, no store refuses them, and all terms that they return are nodes of the store that they leave.

## Main statements

* `World.returns_nodes_of_reachable` — **operations on a store break no promise and return nodes of the store**
-/

namespace TermGraph

variable {α σ : Type}

/-- The fault is a cycle. -/
def Fault.IsCycle (fault : Fault) : Prop := ∃ cycle, fault = .cycle cycle

/-- The outcome is a result with the property, or a fault of the kind. -/
def Ends (outcome : Except Fault α × σ) (P : α → σ → Prop) (F : Fault → Prop) : Prop :=
  match outcome with
  | (.ok a, s) => P a s
  | (.error fault, _) => F fault

theorem Discipline.Yields.ends {D : Discipline σ} {x : ExceptT Fault (StateM σ) α} {s : σ} {P : α → σ → Prop}
    {F : Fault → Prop} (hx : D.Yields x s P fun fault _ => F fault) : Ends (x s) P F := by
  rcases h : x s with ⟨fault | a, s'⟩
  · exact (hx.error h).2.2
  · exact (hx.ok h).2.2

/-- Without links, insertion never fails. -/
theorem Work.insert_none_yields {C : Custody} {bench : Bench} {t : Term} (h : bench.store.Canonical)
    (ht : C.has bench.store t) :
    working.Yields (insert .none t) bench (fun u bench' => bench'.store.Owns u) fun _ _ => False :=
  (insert_yields h (fun _ _ hl => by cases hl) ht).mono (fun _ _ _ _ hp => hp.1)
    fun _ _ _ _ hf => hf.2.2 (Links.copied_none _ t)

namespace World

variable {world : World} {t : Term}

/-- **No promise is broken within, and results are nodes of the store.** In every reachable world, take any store,
normalizer and term, wherever the term comes from. Insertion along links that lead to nodes of the stores, rules,
contraction, rewriters, parallel steps and normalization return nodes of the store as they leave it. Where they do not
return, the fault is a cycle, or the steps that they were given are used up; it never is a breach. Without links,
insertion always returns, and so does contraction. -/
theorem returns_nodes_of_reachable (h : world.Reachable) (ht : world.Has t) (scope normalizer steps : Nat)
    (journal : Journal) :
    let bench : Bench := { store := world.stores scope, journal }
    let session : Session := ⟨bench, world.caches normalizer⟩
    Ends (Work.insert .none t bench) (fun u left => left.store.Owns u) (fun _ => False) ∧
    (∀ links : Links, (∀ u next, links.link? u = some next → world.Has next) →
      Ends (Work.insert links t bench) (fun u left => left.store.Owns u) Fault.IsCycle) ∧
    (∀ rule, world.HasRule rule →
      Ends (rule.apply t bench) (fun r left => ∀ u ∈ r, left.store.Owns u) Fault.IsCycle) ∧
    Ends (Rule.contraction.apply t bench) (fun r left => ∀ u ∈ r, left.store.Owns u) (fun _ => False) ∧
    ∀ rewriter : Rewriter, (∀ rule ∈ rewriter.rules, world.HasRule rule) →
      Ends (rewriter.apply steps t bench) (fun r left => ∀ u ∈ r, left.store.Owns u) Fault.Expected ∧
      Ends (Reduction.normalize rewriter steps t session) (fun u left => left.bench.store.Owns u) Fault.Expected ∧
      ∀ conditional : Rewriter, (∀ rule ∈ conditional.rules, world.HasRule rule) →
        Ends (Reduction.rewriteSubterms (rewriter.rewrite (Reduction.reduce conditional steps)) t session)
          (fun r left => ∀ u ∈ r, left.bench.store.Owns u) Fault.Expected := by
  intro bench session
  have hsound := h.sound
  have hcanon : bench.store.Canonical := (hsound.stores scope).1
  have hhas : ∀ {u}, world.Has u → hsound.custody.has bench.store u := (hsound.holds_iff scope).mpr
  refine ⟨(Work.insert_none_yields hcanon (hhas ht)).ends, fun links hlinks => ?_, fun rule hrule => ?_,
    (Work.contract_yields hcanon (hhas ht)).ends, fun rewriter hrules => ⟨?_, ?_, fun conditional hconditional => ?_⟩⟩
  · exact ((Work.insert_yields hcanon (fun u next hl => hhas (hlinks u next hl)) (hhas ht)).mono
      (fun _ _ _ _ hp => hp.1) fun _ _ _ _ hf => hf.1).ends
  · exact (Rule.apply_yields hcanon (hhas ht) (hsound.rule_within scope hrule)).ends
  · exact (Rewriter.apply_yields steps hcanon (hhas ht) fun rule hr => hsound.rule_within scope (hrules rule hr)).ends
  · exact (Reduction.normalize_guarded (List.Subset.refl _) steps (hsound.reducing scope normalizer journal hrules)
      (hhas ht)).ends
  · -- the rules of both rewriters are used in one session
    have hall : ∀ rule ∈ rewriter.rules ++ conditional.rules, world.HasRule rule :=
      List.forall_mem_append.mpr ⟨hrules, hconditional⟩
    have hD := reducing_hosts hsound.custody (rewriter.rules ++ conditional.rules)
    have hrewrites : Reduction.Rewrites _ hsound.custody (rewriter.rewrite (Reduction.reduce conditional steps)) :=
      Reduction.rewrites_guarded hD
        (Reduction.reduce_hosted (List.subset_append_right rewriter.rules conditional.rules) steps)
        fun hs rule hr => hs.rules rule (List.subset_append_left _ _ hr)
    exact (Reduction.rewriteSubterms_guarded hD hrewrites (hsound.reducing scope normalizer journal hall) (hhas ht)).ends

/-- `d(x)` becomes `p(x, x)`, and so does `e(x)` if `d(x)` is some `p(y, y)`. -/
def doubling : List Rule.Script :=
  [⟨.fn "d" [.var "x"], .fn "p" [.var "x", .var "x"], none⟩,
    ⟨.fn "e" [.var "x"], .fn "p" [.var "x", .var "x"], some [(.fn "d" [.var "x"], .fn "p" [.var "y", .var "y"])]⟩]

/-- The term `λ.e(%0)` of store 0 is normalized in store 5, to a node of store 5. -/
theorem returns_nodes_of_doubling :
    ∃ (world : World) (t u : Term) (session : Session), world.Reachable ∧ world.Has t ∧ t.scope = 0 ∧
      Reduction.normalize (.system (furniture doubling)) 20 t ⟨⟨world.stores 5, #[]⟩, world.caches 1⟩ = (.ok u, session) ∧
      session.bench.store.Owns u ∧ u.tree = .lambda (.fn "p" [.bound ⟨.clamp 0, 5⟩, .bound ⟨.clamp 0, 5⟩]) := by
  let tree : Tree Index := .lambda (.fn "e" [.bound (.clamp 0)])
  have hrun : passes (Work.plant tree { store := .empty 0 }) fun t _ =>
      passes (Reduction.normalize (.system (furniture doubling)) 20 t ⟨⟨.empty 5, #[]⟩, .empty⟩) fun u _ =>
        decide (u.tree = .lambda (.fn "p" [.bound ⟨.clamp 0, 5⟩, .bound ⟨.clamp 0, 5⟩])) := by decide +kernel
  obtain ⟨t, bench, hplant, hrun⟩ := exists_of_passes hrun
  obtain ⟨u, session, hnormalize, hrun⟩ := exists_of_passes hrun
  let world : World := (furnished doubling).step 0 0 (.plant tree)
  have hreach : world.Reachable := furnished_plant_reachable doubling tree
  obtain ⟨hcanon, hgrows, ht, -⟩ := (Work.plant_empty 0 tree).ok hplant
  have hscope : t.scope = 0 := (hcanon.scope_eq ht).trans (Store.scope_eq_of_le hgrows.1)
  have hhas : world.Has t := by
    rw [Has, hscope, furnished_plant doubling hplant]
    exact ht
  have hstore : world.stores 5 = .empty 5 := by
    rw [show world.stores 5 = (furnished doubling).stores 5 from put_stores_of_ne _ _ _ (by decide)]
    exact furnished_stores (Or.inr (by decide))
  have hcache : world.caches 1 = .empty := by
    rw [show world.caches 1 = (furnished doubling).caches 1 from put_caches_of_ne _ _ _ one_ne_zero]
    exact furnished_caches one_ne_zero doubling
  have hnormalize : Reduction.normalize (.system (furniture doubling)) 20 t ⟨⟨world.stores 5, #[]⟩, world.caches 1⟩ =
      (.ok u, session) := by
    rw [hstore, hcache]
    exact hnormalize
  have hends := ((returns_nodes_of_reachable hreach hhas 5 1 20 #[]).2.2.2.2 (.system (furniture doubling))
    fun rule hr => furnished_plant_hasRule tree hr).2.1
  rw [hnormalize] at hends
  exact ⟨world, t, u, session, hreach, hhas, hscope, hnormalize, hends, of_decide_eq_true hrun⟩

end World

end TermGraph
