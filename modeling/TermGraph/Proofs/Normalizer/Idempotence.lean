import TermGraph.Proofs.Normalizer.Serving
import TermGraph.Term.Dag

/-!
# Normalizing a normal form

A fresh normalizer that is given the result of another one has no reason to change it, except for one: a term may
have been found to be a normal form because a rule that ran into a cycle was passed over, and the cycle may not come
up where the term is looked at by itself. So normalization is idempotent where nothing has been passed over,
and in general it is as far as the second normalizer rewrites nothing in the result.

## Main statements

* `World.FreshCall.returns_again_iff` — **when a result is returned again**
* `World.not_returned_again` — a result that is not
-/

namespace TermGraph

/-! ## Subterms -/

/-- A subterm is the term itself or a subterm of a child. -/
theorem Term.mem_postorder {t u : Term} : u ∈ t.postorder ↔ u = t ∨ ∃ c ∈ t.children, u ∈ c.postorder := by
  rw [postorder_eq, List.mem_append, List.mem_singleton, List.mem_flatMap, or_comm]

/-- What passes to children holds of all subterms. -/
theorem Term.forall_postorder {P : Term → Prop} (hchild : ∀ t, P t → ∀ c ∈ t.children, P c) (t : Term) :
    P t → ∀ u ∈ t.postorder, P u := by
  induction t using Term.children_induction with
  | _ t ih =>
    intro ht u hu
    rcases Term.mem_postorder.mp hu with rfl | ⟨c, hc, hu⟩
    · exact ht
    · exact ih c hc (hchild t ht c hc) u hu

/-- The subterms of a normal form of the store are normal forms of the store. -/
theorem Cache.Orderly.postorder {C : Custody} {rules : List Rule} {store : Store} {cache : Cache} {t : Term}
    (h : cache.Orderly C rules store) (hcanon : store.Canonical) (ht : store.Owns t)
    (hn : cache.isNormal t = true) : ∀ u ∈ t.postorder, store.Owns u ∧ cache.isNormal u = true :=
  t.forall_postorder (P := fun u => store.Owns u ∧ cache.isNormal u = true)
    (fun _ hu c hc => ⟨hcanon.owns_child hu.1 hc, h.child hcanon (C.of_owns hu.1) hu.2 c hc⟩) ⟨ht, hn⟩

namespace World

/-- A call of a fresh normalizer for a node of the store, which returns a term. -/
structure FreshCall (rewriter : Rewriter) (world : World) (scope : Nat) (t r : Term)
    (session : Session) : Prop where
  reachable : world.Reachable
  rules : ∀ rule ∈ rewriter.rules, world.HasRule rule
  apart : ∀ rule ∈ rewriter.rules, rule.scope? ≠ some scope
  owns : (world.stores scope).Owns t
  returns : Reduction.Returns rewriter t (.fresh (world.stores scope)) (.ok r) session

variable {rewriter : Rewriter} {scope : Nat} {world : World} {t r r' : Term} {session session' : Session}

/-- The world with fresh normalizers only. -/
def renewed (world : World) : World := { world with caches := fun _ => .empty }

theorem Sound.renewed (h : world.Sound) : world.renewed.Sound where
  stores := h.stores
  caches n t next hl := by simp [World.renewed, Cache.empty, Cache.link?] at hl
  keepsScope _ := Cache.keepsScope_empty

/-- All that is known of calls is known of those of fresh normalizers. -/
theorem Sound.serving (hw : world.Sound) (hrules : ∀ rule ∈ rewriter.rules, world.HasRule rule) :
    Serving rewriter.rules 0 world.renewed #[] :=
  .fresh hw.renewed rfl hrules

theorem Sound.call (hw : world.Sound) (hapart : ∀ rule ∈ rewriter.rules, rule.scope? ≠ some scope)
    (ht : (world.stores scope).Owns t)
    (h : Reduction.Returns rewriter t (.fresh (world.stores scope)) (.ok r) session) :
    Call rewriter 0 world.renewed #[] scope t (.ok r) session :=
  ⟨(hw.renewed.holds_iff scope).mp (Or.inl ht), hapart, h⟩

/-- **When a result is returned again.** If a fresh normalizer returns `r`, a second one returns `r` for `r` exactly
if it returns a term at all and has linked no subterm of `r`. It does so without passing over a rule exactly if
`r` is a value, and it does if the first has passed over no rule. -/
theorem FreshCall.returns_again_iff (h : FreshCall rewriter world scope t r session) :
    ((∃ session', Reduction.Returns rewriter r (.fresh session.bench.store) (.ok r) session') ↔
      ∃ r' session', Reduction.Returns rewriter r (.fresh session.bench.store) (.ok r') session' ∧
        ∀ u ∈ r.postorder, session'.cache.link? u = none) ∧
    ((∃ session', Reduction.Returns rewriter r (.fresh session.bench.store) (.ok r) session' ∧
        session'.bench.journal.Quiet) ↔ Evaluates rewriter.rules scope r.tree r.tree) ∧
    (session.bench.journal.Quiet →
      ∃ session', Reduction.Returns rewriter r (.fresh session.bench.store) (.ok r) session') := by
  -- the world that the first call leaves, in which the second begins
  have hserving := h.reachable.sound.serving h.rules
  have hcall := h.reachable.sound.call h.apart h.owns h.returns
  have hafter := hserving.call hcall
  have hstore := put_stores_self world.renewed scope 0 session
  obtain ⟨-, -, _, hsettled, -⟩ := hserving.answer hcall
  have hr := hsettled.owns
  have hvalue := fun hq => hserving.evaluates hcall hq h.owns
  generalize world.renewed.put scope 0 session = world₁ at hafter hstore
  rw [← hstore] at hr ⊢
  have hserving₁ := hafter.sound.serving hafter.has
  have hcall₁ : ∀ {r' session'}, Reduction.Returns rewriter r (.fresh (world₁.stores scope)) (.ok r') session' →
      Call rewriter 0 world₁.renewed #[] scope r (.ok r') session' := hafter.sound.call h.apart hr
  have hagain : Evaluates rewriter.rules scope r.tree r.tree → ∃ session',
      Reduction.Returns rewriter r (.fresh (world₁.stores scope)) (.ok r) session' ∧
        session'.bench.journal.Quiet := by
    intro hv
    obtain ⟨r', session', hcall', hq, htree⟩ := hserving₁.completes .empty h.apart hr hv
    obtain ⟨hs, ⟨hle, -⟩, u, hsettled', -⟩ := hserving₁.answer hcall'
    have hself : r' = r :=
      hs.canonical.eq_of_tree_eq hsettled'.owns (Store.Owns.mono hr hle.1) htree
    exact ⟨session', hself ▸ hcall'.returns, hq⟩
  refine ⟨⟨?_, ?_⟩, ⟨?_, hagain⟩, fun hq => (hagain (hvalue hq).value).imp fun _ h => h.1⟩
  · rintro ⟨session', hreturns⟩
    obtain ⟨hs, -, u, hsettled', -⟩ := hserving₁.answer (hcall₁ hreturns)
    refine ⟨r, session', hreturns, fun v hv => hs.orderly.unlinked v ?_⟩
    exact (hs.orderly.postorder hs.canonical hsettled'.owns hsettled'.normal v hv).2
  · rintro ⟨r', session', hreturns, hunlinked⟩
    obtain ⟨-, -, u, hsettled', -, hsame⟩ := hserving₁.answer (hcall₁ hreturns)
    obtain rfl := hsame ((hafter.sound.stores scope).1.contains hr)
    have hself : r' = u :=
      hsettled'.leads.eq_of_unlinked (hunlinked u (Term.mem_postorder.mpr (Or.inl rfl)))
    exact ⟨session', hself ▸ hreturns⟩
  · rintro ⟨session', hreturns, hq⟩
    exact hserving₁.evaluates (hcall₁ hreturns) hq hr

/-- A run in a world with given rules is such a call. -/
theorem furnished_freshCall (scripts : List Rule.Script) {tree : Tree Index} {bench : Bench} {steps : Nat}
    (hplant : Work.plant tree { store := .empty 0 } = (.ok t, bench))
    (hrun : Reduction.normalize (.system (furniture scripts)) steps t (.fresh bench.store) =
      (.ok r, session)) :
    FreshCall (.system (furniture scripts)) ((furnished scripts).step 0 0 (.plant tree)) 0 t r session := by
  have hadmits := admits_plant (furnished scripts) tree
  have hsound := (furnished_reachable scripts).sound
  have hstore := furnished_plant scripts hplant
  have howns := (Work.plant_empty 0 tree).ok hplant
  exact ⟨.step 0 0 (furnished_reachable scripts) hadmits,
    fun rule hr => (furnished_hasRule hr).mono (hsound.le_step 0 0 hadmits),
    fun rule hr => scope?_furniture_ne hr, hstore ▸ howns.2.2.1, ⟨steps, hstore ▸ hrun⟩⟩

/-- `h(f(z))` becomes `f(h(z))`, and that is returned again. -/
theorem returned_again :
    let scripts : List Rule.Script := [⟨.fn "h" [.fn "f" [.var "x"]], .fn "f" [.fn "h" [.var "x"]], none⟩]
    let rewriter : Rewriter := .system (furniture scripts)
    ∃ world t r session, FreshCall rewriter world 0 t r session ∧ r.id ≠ t.id ∧
      ∃ session', Reduction.Returns rewriter r (.fresh session.bench.store) (.ok r) session' := by
  intro scripts rewriter
  have hrun : passes (Work.plant (.fn "h" [.fn "f" [.fn "z" []]]) { store := .empty 0 }) fun t bench =>
      passes (Reduction.normalize rewriter 12 t (.fresh bench.store)) fun r session =>
        decide (r.id ≠ t.id) && session.bench.journal.all fun event => event.passedOver.isEmpty := by
    decide +kernel
  obtain ⟨t, bench, hplant, hrun⟩ := exists_of_passes hrun
  obtain ⟨r, session, hfirst, hrun⟩ := exists_of_passes hrun
  obtain ⟨hne, hquiet⟩ := Bool.and_eq_true_iff.mp hrun
  have hq : session.bench.journal.Quiet := fun event he =>
    List.isEmpty_iff.mp (Array.all_eq_true_iff_forall_mem.mp hquiet event he)
  have hcall := furnished_freshCall scripts hplant hfirst
  exact ⟨_, t, r, session, hcall, of_decide_eq_true hne, hcall.returns_again_iff.2.2 hq⟩

/-- The sides of two rules each of which has the other's pattern in its condition: `f(x)` becomes `c(h(x))` if `h(x)`
comes to `h(x)`, and `h(x)` becomes `k` if `f(x)` comes to `f(x)`. -/
def entangled : List Rule.Script :=
  [⟨.fn "f" [.var "x"], .fn "c" [.fn "h" [.var "x"]],
      some [(.fn "h" [.var "x"], .fn "h" [.var "x"])]⟩,
    ⟨.fn "h" [.var "x"], .fn "k" [], some [(.fn "f" [.var "x"], .fn "f" [.var "x"])]⟩]

/-- For `f(z)` a fresh normalizer returns `c(h(z))`, where `h(z)` was found to be a normal form while `f(z)` was being
evaluated. A second one returns `c(k)` for that. -/
theorem not_returned_again :
    let rewriter : Rewriter := .system (furniture entangled)
    ∃ world t r session, FreshCall rewriter world 0 t r session ∧
      ¬ ∃ session', Reduction.Returns rewriter r (.fresh session.bench.store) (.ok r) session' := by
  intro rewriter
  have hrun : passes (Work.plant (.fn "f" [.fn "z" []]) { store := .empty 0 }) fun t bench =>
      passes (Reduction.normalize rewriter 12 t (.fresh bench.store)) fun r session =>
        passes (Reduction.normalize rewriter 12 r (.fresh session.bench.store)) fun r' _ =>
          decide (r'.id ≠ r.id) := by decide +kernel
  obtain ⟨t, bench, hplant, hrun⟩ := exists_of_passes hrun
  obtain ⟨r, session, hfirst, hrun⟩ := exists_of_passes hrun
  obtain ⟨r', session', hsecond, hne⟩ := exists_of_passes hrun
  refine ⟨_, t, r, session, furnished_freshCall entangled hplant hfirst, ?_⟩
  rintro ⟨session'', hagain⟩
  have hother : Reduction.Returns rewriter r (.fresh session.bench.store) (.ok r') session' :=
    ⟨12, hsecond⟩
  obtain ⟨hsame, -⟩ := hother.unique hagain
  cases hsame
  exact of_decide_eq_true hne rfl

end World

end TermGraph
