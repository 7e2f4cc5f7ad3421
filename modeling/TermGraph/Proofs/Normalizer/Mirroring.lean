import TermGraph.Normalizer.Session
import TermGraph.Proofs.Insertion.Mirroring
import TermGraph.Proofs.Matching.Mirroring

/-!
# What two normalizers know of mirrored nodes

Two normalizers work on two stores. What they know is the same if each has links for the mirror images of the nodes
that the other has links for, these lead to mirror images, and the same holds of normal forms and of terms that are
being evaluated. Neither may know more: a node that one of the stores has of old may come to be mirrored later, and then
nothing is to be known of it on either side.

## Main statements

* `Cache.Mirror.resolve` — **following links leads to mirrored nodes, or to a cycle both times**
-/

namespace TermGraph

variable {ρ : Equiv.Perm Nat} {M M' : Term → Term → Prop} {t u v w : Term}

/-! ## Marked nodes -/

/-- Every mark is on one of two related terms, and the other has a mark as well. -/
structure Paired (M : Term → Term → Prop) (P P' : NodeId → Prop) : Prop where
  image : ∀ {id : NodeId}, P id → ∃ t u, M t u ∧ t.id = id ∧ P' u.id
  preimage : ∀ {id : NodeId}, P' id → ∃ t u, M t u ∧ u.id = id ∧ P t.id

namespace Paired

variable {P P' Q Q' : NodeId → Prop}

theorem mono (h : Paired M P P') (hM : ∀ t u, M t u → M' t u) : Paired M' P P' where
  image hid := by
    obtain ⟨t, u, htu, ht, hu⟩ := h.image hid
    exact ⟨t, u, hM t u htu, ht, hu⟩
  preimage hid := by
    obtain ⟨t, u, htu, hu, ht⟩ := h.preimage hid
    exact ⟨t, u, hM t u htu, hu, ht⟩

/-- Of two related terms both are marked or none. -/
theorem iff (h : Paired M P P') (hM : Term.Mirroring ρ M) (htu : M t u) : P t.id ↔ P' u.id := by
  constructor
  · intro ht
    obtain ⟨t', u', htu', hid, hu'⟩ := h.image ht
    rwa [← (hM.id_eq_iff htu' htu).mp hid]
  · intro hu
    obtain ⟨t', u', htu', hid, ht'⟩ := h.preimage hu
    rwa [← (hM.id_eq_iff htu' htu).mpr hid]

/-- Nothing else is marked. -/
theorem not_marked (h : Paired M P P') {id : NodeId} (hne : ∀ t u, M t u → id ≠ t.id ∧ id ≠ u.id) :
    ¬ P id ∧ ¬ P' id := by
  constructor
  · intro hid
    obtain ⟨t, u, htu, he, -⟩ := h.image hid
    exact (hne t u htu).1 he.symm
  · intro hid
    obtain ⟨t, u, htu, he, -⟩ := h.preimage hid
    exact (hne t u htu).2 he.symm

/-- Two related terms may be marked. -/
theorem insert (h : Paired M P P') (htu : M t u) (hQ : ∀ id, Q id ↔ t.id = id ∨ P id)
    (hQ' : ∀ id, Q' id ↔ u.id = id ∨ P' id) : Paired M Q Q' where
  image hid := by
    rcases (hQ _).mp hid with rfl | hid
    · exact ⟨t, u, htu, rfl, (hQ' _).mpr (Or.inl rfl)⟩
    · obtain ⟨t', u', htu', ht', hu'⟩ := h.image hid
      exact ⟨t', u', htu', ht', (hQ' _).mpr (Or.inr hu')⟩
  preimage hid := by
    rcases (hQ' _).mp hid with rfl | hid
    · exact ⟨t, u, htu, rfl, (hQ _).mpr (Or.inl rfl)⟩
    · obtain ⟨t', u', htu', hu', ht'⟩ := h.preimage hid
      exact ⟨t', u', htu', hu', (hQ _).mpr (Or.inr ht')⟩

/-- The marks of two related terms may be taken away. -/
theorem erase (h : Paired M P P') (hM : Term.Mirroring ρ M) (htu : M t u) (hQ : ∀ id, Q id ↔ t.id ≠ id ∧ P id)
    (hQ' : ∀ id, Q' id ↔ u.id ≠ id ∧ P' id) : Paired M Q Q' where
  image hid := by
    obtain ⟨hne, hid⟩ := (hQ _).mp hid
    obtain ⟨t', u', htu', rfl, hu'⟩ := h.image hid
    exact ⟨t', u', htu', rfl, (hQ' _).mpr ⟨fun he => hne ((hM.id_eq_iff htu htu').mpr he), hu'⟩⟩
  preimage hid := by
    obtain ⟨hne, hid⟩ := (hQ' _).mp hid
    obtain ⟨t', u', htu', rfl, ht'⟩ := h.preimage hid
    exact ⟨t', u', htu', rfl, (hQ _).mpr ⟨fun he => hne ((hM.id_eq_iff htu htu').mp he), ht'⟩⟩

end Paired

/-! ## Knowledge -/

namespace Cache

/-- The same is known of related terms, and of no others. -/
structure Mirror (M : Term → Term → Prop) (cache cache' : Cache) : Prop where
  linked : Paired M (· ∈ cache.links) (· ∈ cache'.links)
  link : ∀ {t u v w : Term}, M t u → cache.link? t = some v → cache'.link? u = some w → M v w
  normal : Paired M (· ∈ cache.normalForms) (· ∈ cache'.normalForms)
  evaluating : Paired M (· ∈ cache.evaluating) (· ∈ cache'.evaluating)
  size : cache.links.size = cache'.links.size

variable {cache cache' : Cache}

/-- The terms are linked that have a link. -/
theorem mem_links_iff : t.id ∈ cache.links ↔ ∃ next, cache.link? t = some next := by
  rw [Std.ExtTreeMap.mem_iff_isSome_getElem?, Option.isSome_iff_exists]
  rfl

namespace Mirror

theorem empty : Mirror M .empty .empty where
  linked := ⟨fun h => absurd h (by simp [Cache.empty]), fun h => absurd h (by simp [Cache.empty])⟩
  link _ h _ := by simp [Cache.empty, Cache.link?] at h
  normal := ⟨fun h => absurd h (by simp [Cache.empty]), fun h => absurd h (by simp [Cache.empty])⟩
  evaluating := ⟨fun h => absurd h (by simp [Cache.empty]), fun h => absurd h (by simp [Cache.empty])⟩
  size := rfl

/-- More terms may be related. -/
theorem mono (h : Mirror M cache cache') (hM : Term.Mirroring ρ M') (hle : ∀ t u, M t u → M' t u) :
    Mirror M' cache cache' where
  linked := h.linked.mono hle
  link {t u v w} htu ht hu := by
    obtain ⟨t', u', htu', hid, -⟩ := h.linked.image (mem_links_iff.mpr ⟨v, ht⟩)
    have hid' : u'.id = u.id := (hM.id_eq_iff (hle _ _ htu') htu).mp hid
    rw [link?, ← hid] at ht
    rw [link?, ← hid'] at hu
    exact hle _ _ (h.link htu' ht hu)
  normal := h.normal.mono hle
  evaluating := h.evaluating.mono hle
  size := h.size

variable (h : Mirror M cache cache') (hM : Term.Mirroring ρ M)

include h hM

theorem link_rel (htu : M t u) : Option.Rel M (cache.link? t) (cache'.link? u) := by
  have hiff := h.linked.iff hM htu
  rw [mem_links_iff, mem_links_iff] at hiff
  cases ht : cache.link? t with
  | some v =>
    obtain ⟨w, hw⟩ := hiff.mp ⟨v, ht⟩
    exact hw ▸ .some (h.link htu ht hw)
  | none =>
    cases hu : cache'.link? u with
    | some w =>
      obtain ⟨v, hv⟩ := hiff.mpr ⟨w, hu⟩
      rw [ht] at hv
      cases hv
    | none => exact .none

/-- Of two related terms both are linked or none. -/
theorem isSome_link_eq (htu : M t u) : (cache.link? t).isSome = (cache'.link? u).isSome := by
  rw [Bool.eq_iff_iff, Option.isSome_iff_exists, Option.isSome_iff_exists, ← mem_links_iff, ← mem_links_iff]
  exact h.linked.iff hM htu

theorem isNormal_eq (htu : M t u) : cache.isNormal t = cache'.isNormal u := by
  rw [Bool.eq_iff_iff, isNormal, isNormal, Std.ExtTreeSet.contains_iff_mem, Std.ExtTreeSet.contains_iff_mem]
  exact h.normal.iff hM htu

theorem isEvaluating_eq (htu : M t u) : cache.isEvaluating t = cache'.isEvaluating u := by
  rw [Bool.eq_iff_iff, isEvaluating, isEvaluating, Std.ExtTreeSet.contains_iff_mem, Std.ExtTreeSet.contains_iff_mem]
  exact h.evaluating.iff hM htu

theorem setLink (htu : M t u) (hvw : M v w) : Mirror M (cache.setLink t v) (cache'.setLink u w) where
  linked := h.linked.insert htu
    (fun id => by rw [Cache.setLink, Std.ExtTreeMap.mem_insert]; simp)
    (fun id => by rw [Cache.setLink, Std.ExtTreeMap.mem_insert]; simp)
  link {t' u' v' w'} htu' ht' hu' := by
    rw [link?_setLink] at ht' hu'
    by_cases hid : t.id = t'.id
    · rw [if_pos hid, Option.some.injEq] at ht'
      rw [if_pos ((hM.id_eq_iff htu htu').mp hid), Option.some.injEq] at hu'
      exact ht' ▸ hu' ▸ hvw
    · rw [if_neg hid] at ht'
      rw [if_neg fun he => hid ((hM.id_eq_iff htu htu').mpr he)] at hu'
      exact h.link htu' ht' hu'
  normal := h.normal
  evaluating := h.evaluating
  size := by
    rw [Cache.setLink, Cache.setLink, Std.ExtTreeMap.size_insert, Std.ExtTreeMap.size_insert, h.size]
    exact if_congr (h.linked.iff hM htu) rfl rfl

omit hM in
theorem addNormal (htu : M t u) : Mirror M (cache.addNormal t) (cache'.addNormal u) where
  linked := h.linked
  link := h.link
  normal := h.normal.insert htu (fun _ => NodeSet.mem_insert _ _ _) fun _ => NodeSet.mem_insert _ _ _
  evaluating := h.evaluating
  size := h.size

omit hM in
theorem beginEvaluating (htu : M t u) : Mirror M (cache.beginEvaluating t) (cache'.beginEvaluating u) where
  linked := h.linked
  link := h.link
  normal := h.normal
  evaluating := h.evaluating.insert htu (fun _ => NodeSet.mem_insert _ _ _) fun _ => NodeSet.mem_insert _ _ _
  size := h.size

theorem endEvaluating (htu : M t u) : Mirror M (cache.endEvaluating t) (cache'.endEvaluating u) where
  linked := h.linked
  link := h.link
  normal := h.normal
  evaluating := h.evaluating.erase hM htu (fun _ => NodeSet.mem_erase _ _ _) fun _ => NodeSet.mem_erase _ _ _
  size := h.size

theorem followIdle (n : Nat) (htu : M t u) : M (cache.followIdle n t) (cache'.followIdle n u) := by
  induction n generalizing t u with
  | zero => exact htu
  | succ n ih =>
    have hlink := h.link_rel hM htu
    unfold Cache.followIdle
    cases ht : cache.link? t with
    | none =>
      have hu : cache'.link? u = none := eq_none_of_rel (ht ▸ hlink)
      rw [hu]
      exact htu
    | some v =>
      obtain ⟨w, hw, hvw⟩ := exists_of_rel_some (ht ▸ hlink)
      rw [hw, ← h.isEvaluating_eq hM htu]
      dsimp only
      split
      · exact htu
      · exact ih hvw

/-- **Following links leads to mirrored nodes, or to a cycle both times.** -/
theorem resolve (htu : M t u) :
    (∃ v w next next', cache.resolve t = .ok (v, next) ∧ cache'.resolve u = .ok (w, next') ∧ M v w ∧
      Mirror M next next') ∨
    ∃ cycle cycle', cache.resolve t = .error cycle ∧ cache'.resolve u = .error cycle' := by
  unfold Cache.resolve
  rw [← h.isEvaluating_eq hM htu, ← h.size]
  split
  · exact Or.inr ⟨_, _, rfl, rfl⟩
  · cases ht : cache.link? t with
    | none =>
      have hu : cache'.link? u = none := eq_none_of_rel (ht ▸ h.link_rel hM htu)
      rw [hu]
      exact Or.inl ⟨t, u, cache, cache', rfl, rfl, htu, h⟩
    | some v =>
      obtain ⟨w, hw, hvw⟩ := exists_of_rel_some (ht ▸ h.link_rel hM htu)
      have hlast := h.followIdle hM cache.links.size hvw
      rw [hw]
      dsimp only
      rw [← h.isNormal_eq hM hlast]
      split
      · exact Or.inl ⟨_, _, _, _, rfl, rfl, hlast, h.setLink hM htu hlast⟩
      · exact Or.inr ⟨_, _, rfl, rfl⟩

end Mirror

end Cache

end TermGraph
