import TermGraph.Proofs.Normalizer.Chains
import TermGraph.Proofs.Rewriting.Custody
import TermGraph.Proofs.Rewriting.Evaluate

/-!
# Order in what a normalizer knows

Between any two steps of a normalization every chain of links comes to an end, normal forms are not linked and
consist of normal forms, and a term that is being evaluated is neither linked nor a normal form. This is so
whatever happens. What the links and normal forms mean is a matter of its own: they agree with the evaluation
of trees as long as no rule has run into a cycle that was passed over.

Each change that a normalizer makes to its knowledge has one lemma for the order and one for the meaning.

## Main statements

* `Cache.Orderly` — the order that is kept
* `Cache.Related.leads` — what relates terms to what they are linked to relates them to the ends of their chains
* `Cache.Reads` — **links and normal forms say what the evaluation of trees says**
-/

namespace TermGraph

/-- The scope of the store that the sides of the rule belong to. -/
def Rule.scope? : Rule → Option Nat
  | .pattern rule => some rule.store.scope
  | .conditional rule _ _ => some rule.store.scope
  | .contraction => none

namespace Cache

variable {C : Custody} {rules : List Rule} {store store' : Store} {cache cache' : Cache}
  {t u e next : Term}

/-! ## Normal forms and terms under evaluation -/

theorem isNormal_congr (cache : Cache) (h : t.id = u.id) : cache.isNormal t = cache.isNormal u := by
  rw [isNormal, isNormal, h]

theorem isEvaluating_congr (cache : Cache) (h : t.id = u.id) :
    cache.isEvaluating t = cache.isEvaluating u := by
  rw [isEvaluating, isEvaluating, h]

theorem isEvaluating_beginEvaluating (cache : Cache) (t u : Term) :
    (cache.beginEvaluating t).isEvaluating u = true ↔ t.id = u.id ∨ cache.isEvaluating u = true := by
  simp only [isEvaluating, beginEvaluating, Std.ExtTreeSet.contains_iff_mem, NodeSet.mem_insert]

theorem isEvaluating_endEvaluating (cache : Cache) (t u : Term) :
    (cache.endEvaluating t).isEvaluating u = true ↔ t.id ≠ u.id ∧ cache.isEvaluating u = true := by
  simp only [isEvaluating, endEvaluating, Std.ExtTreeSet.contains_iff_mem, NodeSet.mem_erase]

theorem isEvaluating_discardUnfinished (cache : Cache) (t : Term) :
    cache.discardUnfinished.isEvaluating t = false := by
  simp [isEvaluating, discardUnfinished]

/-! ## Order -/

/-- Chains come to an end, normal forms and terms that are being evaluated are not linked, normal forms consist
of normal forms, and links stay within a scope that is none of the rules'. -/
structure Orderly (cache : Cache) (C : Custody) (rules : List Rule) (store : Store) : Prop where
  ends : ∀ t, ∃ e, cache.Leads t e
  unlinked : ∀ t, cache.isNormal t = true → cache.link? t = none
  normal : ∀ t, cache.isNormal t = true →
    ∃ u, C.has store u ∧ u.id = t.id ∧ ∀ c ∈ u.children, cache.isNormal c = true
  idle : ∀ t, cache.isEvaluating t = true → cache.link? t = none ∧ cache.isNormal t = false
  linked : ∀ t next, cache.link? t = some next → C.has store next ∧ next.scope = t.scope ∧
    ∀ rule ∈ rules, rule.scope? ≠ some t.scope

namespace Orderly

theorem empty : Cache.empty.Orderly C rules store where
  ends t := ⟨t, .stay (by simp [link?, Cache.empty])⟩
  unlinked t h := by simp [isNormal, Cache.empty] at h
  normal t h := by simp [isNormal, Cache.empty] at h
  idle t h := by simp [isEvaluating, Cache.empty] at h
  linked t next h := by simp [link?, Cache.empty] at h

/-- Another custody may do as well. -/
theorem transfer {C' : Custody} (h : cache.Orderly C rules store)
    (hhas : ∀ t, C.has store t → C'.has store' t) : cache.Orderly C' rules store' where
  ends := h.ends
  unlinked := h.unlinked
  normal t ht := by
    obtain ⟨u, hu, hid, hc⟩ := h.normal t ht
    exact ⟨u, hhas u hu, hid, hc⟩
  idle := h.idle
  linked t next hl := ⟨hhas next (h.linked t next hl).1, (h.linked t next hl).2⟩

theorem mono (h : cache.Orderly C rules store) (hle : store ≤ store') : cache.Orderly C rules store' :=
  h.transfer fun _ ht => C.mono hle ht

variable (h : cache.Orderly C rules store)

include h

theorem within : cache.asLinks.Within C store := fun t next hl => (h.linked t next hl).1

/-- A normal form consists of normal forms. -/
theorem child (hcanon : store.Canonical) (ht : C.has store t) (hn : cache.isNormal t = true) :
    ∀ c ∈ t.children, cache.isNormal c = true := by
  obtain ⟨u, hu, hid, hc⟩ := h.normal t hn
  rwa [C.unique hcanon hu ht hid] at hc

/-- A normal form is not being evaluated. -/
theorem not_evaluating (hn : cache.isNormal t = true) : cache.isEvaluating t = false := by
  cases he : cache.isEvaluating t with
  | false => rfl
  | true =>
    rw [(h.idle t he).2] at hn
    cases hn

/-- Links lead to terms in custody, of the same scope. -/
theorem leads_has (ht : C.has store t) (hl : cache.Leads t e) : C.has store e ∧ e.scope = t.scope := by
  obtain ⟨n, hl⟩ := hl
  induction hl with
  | stay _ => exact ⟨ht, rfl⟩
  | @follow n t next e link _ ih =>
    obtain ⟨hn, hs, -⟩ := h.linked t next link
    exact ⟨(ih hn).1, (ih hn).2.trans hs⟩

/-! ### Changes -/

theorem setLink (hl : cache.link? t = none) (hn : cache.isNormal t = false)
    (he : cache.isEvaluating t = false) (hnext : C.has store next) (hscope : next.scope = t.scope)
    (hapart : ∀ rule ∈ rules, rule.scope? ≠ some t.scope) (hlead : cache.Leads next e)
    (hne : e.id ≠ t.id) : (cache.setLink t next).Orderly C rules store where
  ends u := by
    obtain ⟨x, hx⟩ := h.ends u
    exact ⟨_, leads_setLink hl hlead hne hx⟩
  unlinked u hu := by
    have hu' : cache.isNormal u = true := hu
    have hid : u.id ≠ t.id := by
      intro hid
      rw [cache.isNormal_congr hid, hn] at hu'
      cases hu'
    rw [link?_setLink_of_ne cache next hid]
    exact h.unlinked u hu
  normal := h.normal
  idle u hu := by
    have hu' : cache.isEvaluating u = true := hu
    have hid : u.id ≠ t.id := by
      intro hid
      rw [cache.isEvaluating_congr hid, he] at hu'
      cases hu'
    rw [link?_setLink_of_ne cache next hid]
    exact h.idle u hu
  linked u v hv := by
    by_cases hid : u.id = t.id
    · rw [link?_congr _ hid, link?_setLink_self] at hv
      cases hv
      rw [Term.scope_congr hid]
      exact ⟨hnext, hscope, hapart⟩
    · rw [link?_setLink_of_ne cache next hid] at hv
      exact h.linked u v hv

/-- A chain may be cut short. -/
theorem setLink_end (hl : cache.link? t ≠ none) (hlead : cache.Leads t e) :
    (cache.setLink t e).Orderly C rules store where
  ends u := by
    obtain ⟨x, hx⟩ := h.ends u
    exact ⟨x, leads_setLink_end hl hlead hx⟩
  unlinked u hu := by
    have hu' : cache.link? u = none := h.unlinked u hu
    have hid : u.id ≠ t.id := fun hid => hl (by rw [← cache.link?_congr hid, hu'])
    rw [link?_setLink_of_ne cache e hid, hu']
  normal := h.normal
  idle u hu := by
    have hu' := h.idle u hu
    have hid : u.id ≠ t.id := fun hid => hl (by rw [← cache.link?_congr hid, hu'.1])
    rw [link?_setLink_of_ne cache e hid]
    exact hu'
  linked u v hv := by
    by_cases hid : u.id = t.id
    · rw [link?_congr _ hid, link?_setLink_self] at hv
      cases hv
      obtain ⟨next, hnext⟩ := Option.ne_none_iff_exists'.mp hl
      obtain ⟨hhas, hscope, hapart⟩ := h.linked t next hnext
      obtain ⟨hend, hends⟩ := h.leads_has hhas (hlead.tail hnext)
      rw [Term.scope_congr hid]
      exact ⟨hend, hends.trans hscope, hapart⟩
    · rw [link?_setLink_of_ne cache e hid] at hv
      exact h.linked u v hv

theorem addNormal (hl : cache.link? t = none) (he : cache.isEvaluating t = false)
    (ht : C.has store t) (hc : ∀ c ∈ t.children, cache.isNormal c = true) :
    (cache.addNormal t).Orderly C rules store where
  ends u := by
    obtain ⟨x, hx⟩ := h.ends u
    exact ⟨x, hx.congr fun _ => rfl⟩
  unlinked u hu := by
    rcases (isNormal_addNormal cache t u).mp hu with hid | hu
    · exact (cache.link?_congr hid.symm).trans hl
    · exact h.unlinked u hu
  normal u hu := by
    have hmore : ∀ c, cache.isNormal c = true → (cache.addNormal t).isNormal c = true :=
      fun c hc => (isNormal_addNormal cache t c).mpr (Or.inr hc)
    rcases (isNormal_addNormal cache t u).mp hu with hid | hu
    · exact ⟨t, ht, hid, fun c hcm => hmore c (hc c hcm)⟩
    · obtain ⟨v, hv, hid, hvc⟩ := h.normal u hu
      exact ⟨v, hv, hid, fun c hcm => hmore c (hvc c hcm)⟩
  idle u hu := by
    have hu' : cache.isEvaluating u = true := hu
    refine ⟨(h.idle u hu').1, Bool.eq_false_iff.mpr fun hn => ?_⟩
    rcases (isNormal_addNormal cache t u).mp hn with hid | hn
    · rw [← cache.isEvaluating_congr hid, he] at hu'
      cases hu'
    · rw [(h.idle u hu').2] at hn
      cases hn
  linked := h.linked

theorem beginEvaluating (hl : cache.link? t = none) (hn : cache.isNormal t = false) :
    (cache.beginEvaluating t).Orderly C rules store where
  ends u := by
    obtain ⟨x, hx⟩ := h.ends u
    exact ⟨x, hx.congr fun _ => rfl⟩
  unlinked := h.unlinked
  normal := h.normal
  idle u hu := by
    rcases (cache.isEvaluating_beginEvaluating t u).mp hu with hid | hu
    · exact ⟨(cache.link?_congr hid.symm).trans hl, (cache.isNormal_congr hid.symm).trans hn⟩
    · exact h.idle u hu
  linked := h.linked

theorem endEvaluating (t : Term) : (cache.endEvaluating t).Orderly C rules store where
  ends u := by
    obtain ⟨x, hx⟩ := h.ends u
    exact ⟨x, hx.congr fun _ => rfl⟩
  unlinked := h.unlinked
  normal := h.normal
  idle u hu := h.idle u ((cache.isEvaluating_endEvaluating t u).mp hu).2
  linked := h.linked

theorem discardUnfinished : cache.discardUnfinished.Orderly C rules store where
  ends u := by
    obtain ⟨e, he⟩ := h.ends u
    obtain ⟨hkept, hlost⟩ := leads_discardUnfinished he
    cases hn : cache.isNormal e with
    | true => exact ⟨e, hkept hn⟩
    | false => exact ⟨u, .stay (hlost hn)⟩
  unlinked u hu := by
    rw [link?_discardUnfinished, h.unlinked u hu, Option.filter_none]
  normal := h.normal
  idle u hu := by
    rw [isEvaluating_discardUnfinished] at hu
    cases hu
  linked u v hv := h.linked u v (cache.link?_of_discardUnfinished hv)

end Orderly

/-! ## Ends that are not normal forms -/

/-- Every chain of links ends in a normal form or in one of the terms. -/
def Accounts (cache : Cache) (P : Term → Prop) : Prop :=
  ∀ t next e, cache.link? t = some next → cache.Leads t e → cache.isNormal e = true ∨ P e

theorem Accounts.mono {P Q : Term → Prop} (h : cache.Accounts P) (hPQ : ∀ e, P e → Q e) :
    cache.Accounts Q := by
  intro t next e hl he
  rcases h t next e hl he with hn | hp
  · exact Or.inl hn
  · exact Or.inr (hPQ e hp)

/-- A chain may be cut short. -/
theorem Accounts.setLink_end {P : Term → Prop} (h : cache.Accounts P) (ho : cache.Orderly C rules store)
    (hl : cache.link? t ≠ none) (hlead : cache.Leads t e) : (cache.setLink t e).Accounts P := by
  intro u v x hv hx
  obtain ⟨y, hy⟩ := ho.ends u
  have hxy : x = y := hx.unique (leads_setLink_end hl hlead hy)
  subst hxy
  have hu : cache.link? u ≠ none := by
    by_cases hid : u.id = t.id
    · rw [cache.link?_congr hid]
      exact hl
    · rw [link?_setLink_of_ne cache e hid] at hv
      rw [hv]
      exact Option.some_ne_none v
  obtain ⟨w, hw⟩ := Option.ne_none_iff_exists'.mp hu
  exact h u w x hw hy

/-- A term is linked to another that is not linked: the other may be an end from now on, the term no more. -/
theorem Accounts.setLink {P : Term → Prop} (h : cache.Accounts P) (ho : cache.Orderly C rules store)
    (hl : cache.link? t = none) (hnext : cache.link? next = none) (hne : next.id ≠ t.id) :
    (cache.setLink t next).Accounts fun x => (P x ∧ x.id ≠ t.id) ∨ x = next := by
  intro u v x hv hx
  obtain ⟨y, hy⟩ := ho.ends u
  have hxy := hx.unique (leads_setLink hl (.stay hnext) hne hy)
  by_cases hyt : y.id = t.id
  · rw [if_pos hyt] at hxy
    exact Or.inr (Or.inr hxy)
  · rw [if_neg hyt] at hxy
    subst hxy
    have hid : u.id ≠ t.id := by
      intro hid
      have hu : cache.link? u = none := (cache.link?_congr hid).trans hl
      exact hyt (hy.eq_of_unlinked hu ▸ hid)
    rw [link?_setLink_of_ne cache next hid] at hv
    rcases h u v x hv hy with hn | hp
    · exact Or.inl hn
    · exact Or.inr (Or.inl ⟨hp, hyt⟩)

/-- Another term turns out to be a normal form. -/
theorem Accounts.addNormal {P : Term → Prop} (h : cache.Accounts P) (t : Term) :
    (cache.addNormal t).Accounts fun x => P x ∧ x.id ≠ t.id := by
  intro u v x hv hx
  by_cases hid : x.id = t.id
  · exact Or.inl ((isNormal_addNormal cache t x).mpr (Or.inl hid.symm))
  · rcases h u v x hv (hx.congr fun _ => rfl) with hn | hp
    · exact Or.inl ((isNormal_addNormal cache t x).mpr (Or.inr hn))
    · exact Or.inr ⟨hp, hid⟩

/-- What is left when unfinished work is forgotten leads to normal forms. -/
theorem accounts_discardUnfinished (h : cache.Orderly C rules store) :
    cache.discardUnfinished.Accounts fun _ => False := by
  intro t next e hl he
  obtain ⟨x, hx⟩ := h.ends t
  obtain ⟨hkept, hlost⟩ := leads_discardUnfinished hx
  cases hn : cache.isNormal x with
  | true =>
    rw [he.unique (hkept hn)]
    exact Or.inl hn
  | false =>
    rw [hlost hn] at hl
    cases hl

/-! ## Meaning -/

/-- Every linked term is related to what it is linked to, as trees. -/
def Related (cache : Cache) (C : Custody) (R : Nat → Tree Slot → Tree Slot → Prop) (store : Store) : Prop :=
  ∀ t next, cache.link? t = some next →
    ∃ u, C.has store u ∧ u.id = t.id ∧ R u.scope u.tree next.tree

namespace Related

variable {R : Nat → Tree Slot → Tree Slot → Prop}

theorem empty : Cache.empty.Related C R store := fun t next h => by simp [link?, Cache.empty] at h

/-- Another custody may do as well. -/
theorem transfer {C' : Custody} (h : cache.Related C R store) (hhas : ∀ t, C.has store t → C'.has store' t) :
    cache.Related C' R store' := by
  intro t next hl
  obtain ⟨u, hu, hid, hr⟩ := h t next hl
  exact ⟨u, hhas u hu, hid, hr⟩

variable (h : cache.Related C R store)

include h

/-- A term is related to the end of its chain of links, unless there is no link. -/
theorem leads (hcanon : store.Canonical) (ho : cache.Orderly C rules store)
    (htrans : ∀ {own s t u}, R own s t → R own t u → R own s u) (ht : C.has store t) (hl : cache.Leads t e) :
    e = t ∨ R t.scope t.tree e.tree := by
  obtain ⟨n, hl⟩ := hl
  induction hl with
  | stay _ => exact Or.inl rfl
  | @follow n t next e link _ ih =>
    obtain ⟨u, hu, hid, hfirst⟩ := h t next link
    rw [C.unique hcanon hu ht hid] at hfirst
    obtain ⟨hnext, hscope, -⟩ := ho.linked t next link
    rcases ih hnext with rfl | hrest
    · exact Or.inr hfirst
    · rw [hscope] at hrest
      exact Or.inr (htrans hfirst hrest)

theorem setLink (ht : C.has store t) (hr : R t.scope t.tree next.tree) :
    (cache.setLink t next).Related C R store := by
  intro u v hv
  by_cases hid : u.id = t.id
  · rw [link?_congr _ hid, link?_setLink_self] at hv
    cases hv
    exact ⟨t, ht, hid.symm, hr⟩
  · rw [link?_setLink_of_ne cache next hid] at hv
    exact h u v hv

theorem discardUnfinished : cache.discardUnfinished.Related C R store :=
  fun u v hv => h u v (cache.link?_of_discardUnfinished hv)

end Related

/-- A linked term has the value of what it is linked to, and a normal form is a value. -/
structure Reads (cache : Cache) (C : Custody) (rules : List Rule) (store : Store) : Prop where
  link : cache.Related C (Leap rules) store
  normal : ∀ t, cache.isNormal t = true →
    ∃ u, C.has store u ∧ u.id = t.id ∧ Evaluates rules u.scope u.tree u.tree

namespace Reads

theorem empty : Cache.empty.Reads C rules store where
  link := .empty
  normal t h := by simp [isNormal, Cache.empty] at h

/-- Another custody may do as well. -/
theorem transfer {C' : Custody} (h : cache.Reads C rules store)
    (hhas : ∀ t, C.has store t → C'.has store' t) : cache.Reads C' rules store' where
  link := h.link.transfer hhas
  normal t ht := by
    obtain ⟨u, hu, hid, hv⟩ := h.normal t ht
    exact ⟨u, hhas u hu, hid, hv⟩

theorem mono (h : cache.Reads C rules store) (hle : store ≤ store') : cache.Reads C rules store' :=
  h.transfer fun _ ht => C.mono hle ht

variable (h : cache.Reads C rules store) (hcanon : store.Canonical)

include h hcanon

/-- A normal form is a value. -/
theorem value (ht : C.has store t) (hn : cache.isNormal t = true) :
    Evaluates rules t.scope t.tree t.tree := by
  obtain ⟨u, hu, hid, hv⟩ := h.normal t hn
  rwa [C.unique hcanon hu ht hid] at hv

/-- A chain of links is a single leap, unless there is no link. -/
theorem leads (ho : cache.Orderly C rules store) (ht : C.has store t) (hl : cache.Leads t e) :
    e = t ∨ Leap rules t.scope t.tree e.tree := h.link.leads hcanon ho Leap.trans ht hl

/-- A term that leads to a normal form has the value that the normal form is. -/
theorem evaluates (ho : cache.Orderly C rules store) (ht : C.has store t) (hl : cache.Leads t e)
    (hn : cache.isNormal e = true) : Evaluates rules t.scope t.tree e.tree := by
  obtain ⟨he, hscope⟩ := ho.leads_has ht hl
  have hv := h.value hcanon he hn
  rw [hscope] at hv
  rcases h.leads hcanon ho ht hl with rfl | hleap
  · exact hv
  · exact hleap.back hv

omit hcanon

theorem setLink (ht : C.has store t) (hleap : Leap rules t.scope t.tree next.tree) :
    (cache.setLink t next).Reads C rules store where
  link := h.link.setLink ht hleap
  normal := h.normal

theorem addNormal (ht : C.has store t) (hv : Evaluates rules t.scope t.tree t.tree) :
    (cache.addNormal t).Reads C rules store where
  link := h.link
  normal u hu := by
    rcases (isNormal_addNormal cache t u).mp hu with hid | hu
    · exact ⟨t, ht, hid, hv⟩
    · exact h.normal u hu

theorem discardUnfinished : cache.discardUnfinished.Reads C rules store where
  link := h.link.discardUnfinished
  normal := h.normal

end Reads

end Cache

end TermGraph
