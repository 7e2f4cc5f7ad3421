import Mathlib.Data.Set.Card
import Mathlib.Data.Set.Finite.Lattice
import TermGraph.Proofs.Rewriting.Termination

/-!
# Explorations

Whoever rewrites a tree from the inside outwards goes down to a child, or on to a tree that the tree rewrites to. The
same tree may be come to again and again, but it need not be rewritten more than once: it is known from then on what
becomes of it. So the way cannot get arbitrarily long where there are finitely many trees to come to: every step on
uses up one of them, and between two such steps trees only get smaller.

A rule whose template contains its own pattern below the root applies again and again, each time further below. So it
applies to no tree from which only finitely many trees can be come to.

## Main statements

* `Explores` — ways down and on, on which no tree is rewritten twice
* `Explores.not_bounded` — on a tree that terminates they are bounded like any other
* `exists_forall_not_explores` — **they are bounded where finitely many trees can be come to**
* `PatternRule.eq_of_finite` — there, **a rule that runs into itself replaces its pattern by the pattern**
-/

namespace TermGraph

open Relation

/-- A way of so many steps from the tree, each of them down to a child or on to a tree that it rewrites to. No tree is
rewritten that has been before. -/
inductive Explores (rules : List Rule) (own : Nat) : Nat → Set (Tree Slot) → Tree Slot → Prop
  | stop {done : Set (Tree Slot)} {t : Tree Slot} : Explores rules own 0 done t
  | down {n : Nat} {done : Set (Tree Slot)} {t c : Tree Slot} (mem : c ∈ t.children)
      (rest : Explores rules own n done c) : Explores rules own (n + 1) done t
  | on {n : Nat} {done : Set (Tree Slot)} {t u : Tree Slot} (fresh : t ∉ done)
      (steps : TransGen (Reduces rules own) t u) (rest : Explores rules own n (insert t done) u) :
      Explores rules own (n + 1) done t

variable {rules : List Rule} {own n : Nat} {done done' trees : Set (Tree Slot)} {t u : Tree Slot}

namespace Explores

/-- A way on which more has been rewritten before may be gone with less. -/
theorem anti (h : Explores rules own n done' t) (hsub : done ⊆ done') : Explores rules own n done t := by
  induction h generalizing done with
  | stop => exact .stop
  | down mem _ ih => exact .down mem (ih hsub)
  | on fresh steps _ ih => exact .on (fun hmem => fresh (hsub hmem)) steps (ih (Set.insert_subset_insert hsub))

/-- Where the number of steps and descents is bounded, so is the length of a way. -/
theorem not_bounded (h : Explores rules own n done t) : ¬ Bounded rules own n t := by
  induction h with
  | stop => exact id
  | down mem _ ih => exact fun hb => ih (hb _ (Or.inr mem))
  | on _ steps _ ih => exact fun hb => ih (hb.descends (descends_of_reduces steps))

/-- Whatever a tree rewrites to can be come to as well. -/
theorem mem_of_reduces (hclosed : ∀ s ∈ trees, ∀ u, Descends rules own s u → u ∈ trees) (ht : t ∈ trees)
    (h : TransGen (Reduces rules own) t u) : u ∈ trees := by
  induction h with
  | single step => exact hclosed _ ht _ (Or.inl step)
  | tail _ step ih => exact hclosed _ ih _ (Or.inl step)

/-- **A way is no longer than the trees that are left to rewrite allow**, if no tree on it is greater than some size. -/
theorem le (trees : Set (Tree Slot)) {size : Nat} (hfinite : trees.Finite)
    (hclosed : ∀ s ∈ trees, ∀ u, Descends rules own s u → u ∈ trees) (hsize : ∀ s ∈ trees, sizeOf s ≤ size)
    (h : Explores rules own n done t) (ht : t ∈ trees) :
    n ≤ (trees \ done).ncard * (size + 1) + sizeOf t := by
  induction h with
  | stop => exact Nat.zero_le _
  | down mem _ ih =>
    have hle := ih (hclosed _ ht _ (Or.inr mem))
    have hlt := Tree.sizeOf_child mem
    omega
  | @on n done t u fresh steps _ ih =>
    have hu := mem_of_reduces hclosed ht steps
    have hle := ih hu
    have hu_size := hsize u hu
    -- there is one tree less to rewrite
    have hfewer : (trees \ insert t done).ncard < (trees \ done).ncard := by
      refine Set.ncard_lt_ncard ?_ hfinite.sdiff
      refine ⟨Set.sdiff_subset_sdiff_right (Set.subset_insert t done), fun hsub => ?_⟩
      exact (hsub ⟨ht, fresh⟩).2 (Set.mem_insert t done)
    have hroom := Nat.mul_le_mul_right (size + 1) hfewer
    rw [Nat.succ_mul] at hroom
    omega

end Explores

/-! ## Finitely many trees -/

/-- Finitely many trees are not arbitrarily great. -/
theorem exists_sizeOf_le (h : {u | ReflTransGen (Descends rules own) t u}.Finite) :
    ∃ size, ∀ s, ReflTransGen (Descends rules own) t s → sizeOf s ≤ size := by
  obtain ⟨size, hsize⟩ := (h.image sizeOf).bddAbove
  exact ⟨size, fun s hs => hsize (Set.mem_image_of_mem sizeOf hs)⟩

/-- **Where finitely many trees can be come to, there is a bound on the length of every way.** -/
theorem exists_forall_not_explores (h : {u | ReflTransGen (Descends rules own) t u}.Finite) :
    ∃ n, ∀ done, ¬ Explores rules own n done t := by
  let trees : Set (Tree Slot) := {u | ReflTransGen (Descends rules own) t u}
  obtain ⟨size, hsize⟩ := exists_sizeOf_le h
  refine ⟨trees.ncard * (size + 1) + sizeOf t + 1, fun done hexplores => ?_⟩
  have hle := hexplores.le trees h (fun _ hs _ hu => hs.tail hu) hsize ReflTransGen.refl
  have hfewer : (trees \ done).ncard ≤ trees.ncard := Set.ncard_le_ncard Set.sdiff_subset h
  have hcard := Nat.mul_le_mul_right (size + 1) hfewer
  omega

/-- A rule with its pattern below the root of its template applies further and further below. -/
theorem Tree.Contains.deepen {rule : PatternRule} {k : Nat} (hr : .pattern rule ∈ rules)
    (hne : rule.store.scope ≠ own) (hocc : rule.pattern.tree.occurs rule.template.tree = true)
    (hother : rule.pattern.tree ≠ rule.template.tree) (h : rule.pattern.tree.Contains k t) (n : Nat) :
    ∃ u m, ReflTransGen (Descends rules own) t u ∧ rule.pattern.tree.Contains m u ∧ n ≤ m := by
  induction n with
  | zero => exact ⟨t, k, .refl, h, Nat.zero_le k⟩
  | succ n ih =>
    obtain ⟨u, m, hway, hm, hle⟩ := ih
    obtain ⟨v, m', hstep, hm', hle', hroot⟩ := hm.step hr hne hocc
    have hlt : m < m' := Nat.lt_of_le_of_ne hle' fun heq => hother (hroot heq.symm)
    exact ⟨v, m', hway.tail (Or.inl hstep), hm', by omega⟩

/-- **A rule that runs into itself replaces its pattern by the pattern**, if it applies where finitely many trees can
be come to. -/
theorem PatternRule.eq_of_finite {rule : PatternRule} (hr : .pattern rule ∈ rules) (hne : rule.store.scope ≠ own)
    (hocc : rule.pattern.tree.occurs rule.template.tree = true)
    (hm : (rule.pattern.tree.match? t .empty).isSome = true)
    (hfinite : {u | ReflTransGen (Descends rules own) t u}.Finite) : rule.pattern.tree = rule.template.tree := by
  by_contra hother
  obtain ⟨σ, hσ⟩ := Tree.match?_isSome_iff_instance?.mp hm
  obtain ⟨size, hsize⟩ := exists_sizeOf_le hfinite
  obtain ⟨u, m, hway, hcontains, hlt⟩ := (Tree.Contains.here hσ).deepen hr hne hocc hother (size + 1)
  have hle := hcontains.le_sizeOf.trans (hsize u hway)
  omega

end TermGraph
