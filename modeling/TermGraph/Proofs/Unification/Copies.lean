import TermGraph.Proofs.Insertion.Copied
import TermGraph.Proofs.Unification.Groups

/-!
# Copies along bindings

A term is copied along bindings by following the links from node to node. Where the bindings stand for an agreement, the
copy of one term goes the way of its whole group: it comes to an end exactly if the group is grounded, and then it is
the copy of every other term of the group too.

## Main statements

* `Bindings.Groups.exists_copied_iff` — a term has a copy exactly if its group is grounded
* `Bindings.Groups.copied_congr` — **terms of one group have the same copies**
-/

namespace TermGraph

/-- A term with children is no variable. -/
theorem Term.isVar_of_mem_children {t c : Term} (hc : c ∈ t.children) : t.isVar = false := by
  cases t with
  | var => cases hc
  | _ => rfl

namespace Bindings.Groups

variable {P : Term → Prop} {b : Bindings} {R : Term → Term → Prop} {s t u v : Term} {own : Nat} {tree : Tree Slot}

/-- A group below that of a node which is not bound is the group of one of its children. -/
theorem exists_child_of_below (h : b.Groups P R) (hP : Term.Family P) (hs : P s) (hb : b.binding? s = none)
    (hbelow : Below R s t) : ∃ c ∈ s.children, R c t := by
  obtain ⟨u, d, hu, hd, ht⟩ := hbelow
  have hnu : u.isVar = false := Term.isVar_of_mem_children hd
  cases hns : s.isVar with
  | true =>
    rw [h.isVar_of_free hns hb hu] at hnu
    cases hnu
  | false =>
    have halike := h.agreement.alike hu hns hnu
    obtain ⟨c, hc, hcd⟩ := exists_of_forall₂ (halike.children fun c hc => h.agreement.refl (hP.child hs hc)) hd
    exact ⟨c, hc, h.agreement.trans hcd ht⟩

/-- If the way of a copy comes to an end, the group is grounded. -/
theorem grounded_of_copied (h : b.Groups P R) (hP : Term.Family P) (hacc : Acc (fun u t => b.links.Step t u) s) :
    P s → Grounded R s := by
  induction hacc with
  | intro s _ ih =>
    intro hs
    cases hb : b.binding? s with
    | some next =>
      have hnext : R s next := h.linked ⟨hs, hb⟩
      exact h.agreement.grounded_congr hnext (ih next (Or.inl hb) (h.agreement.inside_right hnext))
    | none =>
      refine ⟨s, fun t ht => ?_⟩
      obtain ⟨c, hc, hct⟩ := h.exists_child_of_below hP hs hb ht
      exact h.agreement.grounded_congr (h.agreement.symm hct) (ih c (Or.inr ⟨hb, hc⟩) (hP.child hs hc))

/-- A term has a copy exactly if its group is grounded. -/
theorem exists_copied_iff (h : b.Groups P R) (hP : Term.Family P) (hs : P s) :
    (∃ tree, b.links.Copied own s tree) ↔ Grounded R s := by
  constructor
  · rintro ⟨tree, hcopied⟩
    exact h.grounded_of_copied hP hcopied.acc hs
  · intro hground
    have hgroup : ∀ u, R s u → ∃ tree, b.links.Copied own u tree := by
      refine h.descend hP (fun u hu hlinked hchildren => ?_) hground
      cases hb : b.binding? u with
      | some v =>
        obtain ⟨tree, hcopied⟩ := hlinked v ⟨hu, hb⟩
        exact ⟨tree, .linked rfl hb hcopied⟩
      | none => exact Links.Copied.of_children rfl hb hchildren
    exact hgroup s (h.agreement.refl hs)

/-- The copy of a bound node is the copy of what it is bound to. -/
theorem copied_link (hl : b.Link P u v) : b.links.Copied own u tree ↔ b.links.Copied own v tree :=
  ⟨fun hu => hu.next hl.2, fun hv => .linked rfl hl.2 hv⟩

/-- **Terms of one group have the same copies.** -/
theorem copied_congr (h : b.Groups P R) (hP : Term.Family P) (hst : R s t) (hs : b.links.Copied own s tree) :
    b.links.Copied own t tree := by
  have hground := h.grounded_of_copied hP hs.acc (h.agreement.inside hst)
  have hconnected := (h.connected hst).resolve_right (Agreement.not_recurs hground)
  have hiff : b.links.Copied own s tree ↔ b.links.Copied own t tree := by
    clear hs hground hst
    induction hconnected with
    | rel _ _ hl => exact copied_link hl
    | refl _ => exact Iff.rfl
    | symm _ _ _ ih => exact ih.symm
    | trans _ _ _ _ _ ih ih' => exact ih.trans ih'
  exact hiff.mp hs

end Bindings.Groups

end TermGraph
