import TermGraph.Insertion.Insert
import TermGraph.Proofs.Insertion.Copy

/-!
# What insertion does

Insertion gives the copy of the term if it has one, and otherwise fails with a cycle and leaves the store
as it was.

## Main statements

* `Work.insert_yields` — **what insertion gives, and when it fails**
* `Work.adopt_yields` — a term of another store is adopted as its copy, without fail
-/

namespace TermGraph

/-- The store of a bench is canonical between any two steps and only grows, and so does the journal. -/
def working : Discipline Bench where
  sound bench := bench.store.Canonical
  grows bench bench' := bench.store ≤ bench'.store ∧ bench.journal.toList <+: bench'.journal.toList
  refl _ := ⟨le_refl _, List.prefix_refl _⟩
  trans h h' := ⟨le_trans h.1 h'.1, h.2.trans h'.2⟩

namespace Work

variable {C : Custody} {bench : Bench} {links : Links} {t : Term} {α : Type}

/-- Work on the store alone keeps to the discipline of the store. -/
theorem build_yields {b : Build α} {P : α → Store → Prop} {F : Fault → Store → Prop}
    (h : building.Yields b bench.store P F) :
    working.Yields (build b) bench (fun a bench' => P a bench'.store)
      fun fault bench' => F fault bench'.store := by
  rcases hb : b bench.store with ⟨fault | a, store⟩
  · obtain ⟨h1, h2, h3⟩ := h.error hb
    have he : build b bench = (.error fault, { bench with store }) := by simp only [build, hb]
    exact .of_eq_error he h1 ⟨h2, List.prefix_refl _⟩ h3
  · obtain ⟨h1, h2, h3⟩ := h.ok hb
    have he : build b bench = (.ok a, { bench with store }) := by simp only [build, hb]
    exact .of_eq_ok he h1 ⟨h2, List.prefix_refl _⟩ h3

theorem record_yields (h : bench.store.Canonical) (event : Event) :
    working.Yields (record event) bench
      (fun _ bench' => bench'.store = bench.store ∧ bench'.journal = bench.journal.push event)
      fun _ _ => False := by
  have he : record event bench = (.ok (), { bench with journal := bench.journal.push event }) := rfl
  refine .of_eq_ok he h ⟨le_refl _, ?_⟩ ⟨rfl, rfl⟩
  rw [Array.toList_push]
  exact List.prefix_append _ _

/-- **Insertion gives the copy of the term. It fails only if there is none, and then with a cycle and
without a change of the store.** -/
theorem insert_yields (h : bench.store.Canonical) (hw : links.Within C bench.store)
    (ht : C.has bench.store t) :
    working.Yields (insert links t) bench
      (fun u bench' => bench'.store.Owns u ∧ links.Copied bench.store.scope t u.tree)
      fun fault bench' => (∃ cycle, fault = .cycle cycle) ∧ bench'.store = bench.store ∧
        ¬ ∃ tree, links.Copied bench.store.scope t tree := by
  unfold insert
  cases hrun : Survey.run links t with
  | error cycle =>
    refine .bind (record_yields h _).no_fault ?_
    rintro - bench' h' - ⟨hs, -⟩
    exact .throw h' ⟨⟨cycle, rfl⟩, hs, (Survey.run_eq_error_iff hw h ht).mp ⟨cycle, hrun⟩⟩
  | ok known =>
    obtain ⟨hk, tree, hcopied⟩ := Survey.run_ok hw h ht hrun
    refine .bind (build_yields (Copy.run_yields h hw ht hcopied hk)).no_fault ?_
    rintro u bench' h' - ⟨hu, htree⟩
    refine .bind (record_yields h' _).no_fault ?_
    rintro - bench'' h'' - ⟨hs, -⟩
    exact .pure h'' ⟨hs ▸ hu, htree ▸ hcopied⟩

/-- A term of the store stays what it is, and any other is adopted as its copy. -/
theorem adopt_yields (h : bench.store.Canonical) (ht : C.has bench.store t) :
    working.Yields (adopt t) bench
      (fun u bench' => bench'.store.Owns u ∧
        (bench.store.contains t = true → u = t ∧ bench' = bench) ∧
        (bench.store.contains t = false → Links.none.Copied bench.store.scope t u.tree))
      fun _ _ => False := by
  unfold adopt
  refine .bind (P := fun owned bench' => owned = bench.store.contains t ∧ bench' = bench)
    (.of_eq_ok rfl h (working.refl _) ⟨rfl, rfl⟩) ?_
  rintro owned bench' - - ⟨howned, hbench⟩
  subst howned hbench
  split
  · next hown =>
    exact .pure h ⟨C.owns ht hown, fun _ => ⟨rfl, rfl⟩, fun hno => by rw [hown] at hno; cases hno⟩
  · next hown =>
    refine (insert_yields h (fun _ _ hl => by cases hl) ht).mono ?_ ?_
    · rintro u bench' - - ⟨hu, hcopied⟩
      exact ⟨hu, fun hyes => absurd hyes hown, fun _ => hcopied⟩
    · rintro fault bench' - - ⟨-, -, hno⟩
      exact hno (Links.copied_none _ t)

end Work

end TermGraph
