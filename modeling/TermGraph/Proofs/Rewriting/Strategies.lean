import TermGraph.Proofs.Rewriting.ParallelStep

/-!
# Strategies keep terms in custody

Rewriting at the root for as long as a step applies, and rewriting all outermost subterms at once, use a
way to rewrite at the root that is left open. If that way gives nodes of the store, so do they.

## Main statements

* `Reduction.rewriteAll_guarded`, `Reduction.rewriteSubterms_guarded`
* `Rewriter.apply_yields` — one step outside of any normalization
-/

namespace TermGraph

variable {D : Discipline Session} {C : Custody} {rules : List Rule} {α : Type}

/-- A way to rewrite terms in custody at the root that keeps to the discipline and gives nodes of the store. -/
def Reduction.Rewrites (D : Discipline Session) (C : Custody) (rewrite : Term → Reduction (Option Term)) : Prop :=
  ∀ {session : Session} {t : Term}, D.sound session → C.has session.bench.store t →
    D.Yields (rewrite t) session (fun r session' => ∀ u ∈ r, session'.bench.store.Owns u) fun fault _ => fault.Expected

namespace Reduction

variable {rewrite : Term → Reduction (Option Term)}

/-! ## Repeated rewriting -/

theorem rewriteOn_guarded (hD : D.Hosts C) (hr : Rewrites D C rewrite) : ∀ (n : Nat) {t : Term} {session : Session},
    D.sound session → session.bench.store.Owns t →
    D.Yields (rewriteOn rewrite n t) session (fun u session' => session'.bench.store.Owns u)
      fun fault _ => fault.Expected := by
  intro n
  induction n with
  | zero => exact fun hs _ => .throw hs trivial
  | succ n ih =>
    intro t session hs ht
    unfold rewriteOn
    refine .bind (hr hs (C.of_owns ht)) ?_
    rintro result session₁ hs₁ hg₁ hresult
    split
    · exact .pure hs₁ (ht.mono (hD.grows hg₁).1)
    · next reduct =>
      split
      · exact .bind (.throw (P := fun _ _ => True) hs₁ trivial) fun _ _ hs₂ hg₂ _ =>
          ih hs₂ ((hresult reduct rfl).mono (hD.grows hg₂).1)
      · exact ih hs₁ (hresult reduct rfl)

theorem rewriteAll_guarded (hD : D.Hosts C) (hr : Rewrites D C rewrite) (n : Nat) {t : Term} {session : Session}
    (hs : D.sound session) (ht : C.has session.bench.store t) :
    D.Yields (rewriteAll rewrite n t) session
      (fun r session' => ∀ u ∈ r, session'.bench.store.Owns u) fun fault _ => fault.Expected := by
  unfold rewriteAll
  refine .bind (hr hs ht) ?_
  rintro result session₁ hs₁ - hresult
  split
  · exact .pure hs₁ (by simp)
  · next reduct =>
    refine .bind (rewriteOn_guarded hD hr n hs₁ (hresult reduct rfl)) ?_
    rintro u session₂ hs₂ - hu
    exact .pure hs₂ (by simpa using hu)

end Reduction

/-! ## One parallel step -/

/-- The results of a parallel step are nodes of the store. -/
def Outermost.nodes : Account where
  rests _ := True
  gives store _ r := ∀ u ∈ r, store.Owns u
  mono h hle u hu := (h u hu).mono hle
  owns h := h _ rfl
  kept _ _ _ := by simp
  rebuilt _ _ _ hu _ := by simpa using hu

namespace Reduction

variable {rewrite : Term → Reduction (Option Term)}

theorem rewriteSubterms_guarded (hD : D.Hosts C) (hr : Rewrites D C rewrite) {t : Term} {session : Session}
    (hs : D.sound session) (ht : C.has session.bench.store t) :
    D.Yields (rewriteSubterms rewrite t) session
      (fun r session' => ∀ u ∈ r, session'.bench.store.Owns u) fun fault _ => fault.Expected := by
  have hbears : Outermost.nodes.Bears D Fault.Expected rewrite := fun _ _ hs ht => by
    refine (hr hs (C.of_owns ht)).mono ?_ fun _ _ _ _ hf => hf
    rintro (_ | u) session' - - hr
    · trivial
    · exact hr
  refine (rewriteSubterms_yields hD hbears hs ht).mono ?_ fun _ _ _ _ hf => hf
  rintro r session' - - ⟨_, -, hgives⟩
  exact hgives

/-- What a rewriter does at the root, with its conditions reduced in a way that the discipline allows. -/
theorem rewrites_guarded {rewriter : Rewriter} {reduce : Term → Reduction Term} (hD : D.Hosts C)
    (hreduce : Hosted D reduce) (hr : ∀ {session : Session}, D.sound session →
      ∀ rule ∈ rewriter.rules, rule.Within C session.bench.store) :
    Rewrites D C (rewriter.rewrite reduce) :=
  fun hs ht => rewriter_guarded hD hreduce hs ht (hr hs)

end Reduction

/-- A rewriter's reduct outside of any normalization is a node of the store. -/
theorem Rewriter.apply_yields {rewriter : Rewriter} (n : Nat) {bench : Bench} {t : Term}
    (h : bench.store.Canonical) (ht : C.has bench.store t)
    (hr : ∀ rule ∈ rewriter.rules, rule.Within C bench.store) :
    working.Yields (rewriter.apply n t) bench (fun r bench' => ∀ u ∈ r, bench'.store.Owns u)
      fun fault _ => fault.Expected := by
  unfold apply
  refine .bind (Work.adopt_yields h ht).no_fault ?_
  rintro u bench₁ h₁ hle₁ ⟨hu, -⟩
  have hs : (reducing C rewriter.rules).sound { bench := bench₁ } :=
    ⟨h₁, fun t next hl => by simp [Cache.asLinks] at hl, Cache.keepsScope_empty, fun r hrm => (hr r hrm).mono hle₁.1⟩
  have hx := Reduction.rewriter_guarded (reducing_hosts C rewriter.rules)
    (Reduction.reduce_hosted (List.Subset.refl rewriter.rules) n) hs (C.of_owns hu) hs.rules
  rcases he : rewriter.rewrite (Reduction.reduce rewriter n) u { bench := bench₁ } with ⟨fault | r, session⟩
  · obtain ⟨h1, h2, h3⟩ := hx.error he
    have hfresh : Reduction.fresh (rewriter.rewrite (Reduction.reduce rewriter n) u) bench₁ =
        (.error fault, session.bench) := by simp only [Reduction.fresh, he]
    exact .of_eq_error hfresh h1.canonical h2 h3
  · obtain ⟨h1, h2, h3⟩ := hx.ok he
    have hfresh : Reduction.fresh (rewriter.rewrite (Reduction.reduce rewriter n) u) bench₁ =
        (.ok r, session.bench) := by simp only [Reduction.fresh, he]
    exact .of_eq_ok hfresh h1.canonical h2 h3

end TermGraph
