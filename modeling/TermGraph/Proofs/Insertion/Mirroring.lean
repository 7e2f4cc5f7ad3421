import TermGraph.Proofs.Insertion.Copied
import TermGraph.Proofs.Store.Mirroring

/-!
# Copies that mirror each other

Two copies are made in two stores, of two terms and along two sources of links. If the terms are twins wherever the
copies go, are pending alike and have links alike, then there are both copies or none, and the one mirrors the other.

## Main statements

* `Links.Copied.mates` — **copies of mates are the same up to the renaming**
-/

namespace TermGraph

variable {ρ : Equiv.Perm Nat} {T : Term → Term → Prop} {own : Nat} {t u v : Term} {links links' : Links}
  {tree tree' : Tree Slot}

/-- The copies of the two terms take the same step next, to related terms. -/
structure Links.Mates (ρ : Equiv.Perm Nat) (T : Term → Term → Prop) (links links' : Links) (t u : Term) : Prop where
  scope : u.scope = ρ t.scope
  twins : Term.Twins ρ T t u
  pending : links.isPending t = links'.isPending u
  link : Option.Rel T (links.link? t) (links'.link? u)

theorem Links.Mates.symm (h : Mates ρ T links links' t u) : Mates ρ.symm (flip T) links' links u t where
  scope := by rw [h.scope, Equiv.symm_apply_apply]
  twins := h.twins.symm
  pending := h.pending.symm
  link := rel_flip h.link

namespace Links.Copied

/-- **Copies of mates are the same up to the renaming.** -/
theorem mates (hT : ∀ t u, T t u → Mates ρ T links links' t u) (h : links.Copied own t tree) :
    ∀ u, T t u → links'.Copied (ρ own) u (tree.rename ρ) := by
  induction h with
  | @linked t next tree pending link _ ih =>
    intro u hu
    have hmates := hT t u hu
    obtain ⟨next', hnext', hT'⟩ := exists_of_rel_some (link ▸ hmates.link)
    exact .linked (hmates.pending ▸ pending) hnext' (ih next' hT')
  | @node t f pending link _ ih =>
    intro u hu
    have hmates := hT t u hu
    have hpending : links'.isPending u = false := hmates.pending ▸ pending
    have hlink : links'.link? u = Option.none := eq_none_of_rel (link ▸ hmates.link)
    -- whatever has a mate below `t` is copied, and there is only one copy of it
    obtain ⟨tree', hcopied⟩ := of_children hpending hlink fun c' hc' => by
      obtain ⟨c, hc, hcc'⟩ := exists_of_forall₂ hmates.twins.children hc'
      exact ⟨_, ih c hc c' hcc'⟩
    obtain ⟨f', rfl, hf'⟩ := hcopied.children hlink
    have htwins : Term.Twins ρ (fun c c' => f' c' = (f c).rename ρ) t u :=
      hmates.twins.mono fun c hc c' hc' hcc' => (hf' c' hc').unique (ih c hc c' hcc')
    rw [Tree.adopted_rename, ← htwins.shape_map, ← hmates.scope]
    exact hcopied

/-- There is a copy of a term exactly if there is one of its mate. -/
theorem mates_iff (hT : ∀ t u, T t u → Mates ρ T links links' t u) (htu : T t u) :
    (∃ tree, links.Copied own t tree) ↔ ∃ tree, links'.Copied (ρ own) u tree := by
  constructor
  · rintro ⟨tree, h⟩
    exact ⟨_, h.mates hT u htu⟩
  · rintro ⟨tree, h⟩
    have hback := h.mates (fun t u hut => (hT u t hut).symm) t htu
    rw [Equiv.symm_apply_apply] at hback
    exact ⟨_, hback⟩

end Links.Copied

end TermGraph
