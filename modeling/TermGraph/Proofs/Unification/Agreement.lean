import Mathlib.Logic.Relation
import Mathlib.Order.Basic
import TermGraph.Matching.Unify
import TermGraph.Proofs.Related

/-!
# Terms that agree

That two terms have a unifier can be said without trees: it means that terms can be grouped so that the two are in one
group and that the terms of a group, variables apart, have the same root and their children in the same groups
pairwise. Such a grouping is an `Agreement`. Nothing in it forbids a term to be grouped with something below itself, so
it speaks of infinite trees as well as of finite ones.

`Below` leads from a group to the groups of the children. A group that comes back below itself `Recurs`, and what it
stands for is infinite. A group is `Grounded` if every path down from it ends.

## Main statements

* `Agreement.joined` — **two groups may be made one where the roots are alike or there are only variables in one**
* `Agreement.not_recurs` — a grounded group does not recur
-/

namespace TermGraph

/-! ## Families -/

/-- Terms that come with their children and are told apart by their ids. -/
structure Term.Family (P : Term → Prop) : Prop where
  child : ∀ {t c : Term}, P t → c ∈ t.children → P c
  unique : ∀ {t u : Term}, P t → P u → t.id = u.id → t = u

/-! ## Alike roots -/

/-- The terms are the same, or have the same root and children that are related pairwise. Lambdas and bound variables
are alike only if they are the same. -/
inductive Term.Alike (R : Term → Term → Prop) : Term → Term → Prop
  | same (t : Term) : Alike R t t
  | const {stamp stamp' : Stamp} (value : Literal) : Alike R (.const stamp value) (.const stamp' value)
  | fn {stamp stamp' : Stamp} (symbol : String) {args args' : List Term} (related : List.Forall₂ R args args') :
    Alike R (.fn stamp symbol args) (.fn stamp' symbol args')
  | app {stamp stamp' : Stamp} {function function' argument argument' : Term} (functions : R function function')
      (arguments : R argument argument') :
    Alike R (.app stamp function argument) (.app stamp' function' argument')

namespace Term.Alike

variable {R S : Term → Term → Prop} {s t u : Term}

theorem mono (h : Alike R s t) (hle : R ≤ S) : Alike S s t := by
  cases h with
  | same => exact .same _
  | const value => exact .const value
  | fn symbol related => exact .fn symbol (related.imp hle)
  | app functions arguments => exact .app (hle _ _ functions) (hle _ _ arguments)

theorem symm (h : Alike R s t) (hR : ∀ {s t}, R s t → R t s) : Alike R t s := by
  cases h with
  | same => exact .same _
  | const value => exact .const value
  | fn symbol related => exact .fn symbol (related.imp fun _ _ => hR).flip
  | app functions arguments => exact .app (hR functions) (hR arguments)

theorem trans (h : Alike R s t) (h' : Alike R t u) (hR : ∀ {s t u}, R s t → R t u → R s u) : Alike R s u := by
  cases h with
  | same => exact h'
  | const value =>
    cases h' with
    | same => exact .const value
    | const => exact .const value
  | fn symbol related =>
    cases h' with
    | same => exact .fn symbol related
    | fn _ related' => exact .fn symbol (forall₂_trans @hR related related')
  | app functions arguments =>
    cases h' with
    | same => exact .app functions arguments
    | app functions' arguments' => exact .app (hR functions functions') (hR arguments arguments')

/-- The children are related pairwise, if each is related to itself. -/
theorem children (h : Alike R s t) (hrefl : ∀ c ∈ s.children, R c c) : List.Forall₂ R s.children t.children := by
  cases h with
  | same => exact List.forall₂_same.mpr hrefl
  | const => exact .nil
  | fn _ related => exact related
  | app functions arguments => exact .cons functions (.cons arguments .nil)

end Term.Alike

/-! ### The pairs to compare -/

namespace Bindings

variable {R : Term → Term → Prop} {s t : Term} {pairs : List (Term × Term)}

/-- Terms with variables aside are alike if their children are related as they are compared. -/
theorem alike_of_alike? (h : alike? s t = some pairs) (hs : s.isVar = false) (hR : ∀ p ∈ pairs, R p.1 p.2) :
    Term.Alike R s t := by
  cases s with
  | var => cases hs
  | const _ a =>
    cases t with
    | const _ b =>
      rw [alike?] at h
      split at h
      · next he => exact he ▸ .const a
      · cases h
    | _ => cases h
  | fn _ f ss =>
    cases t with
    | fn _ g ts =>
      rw [alike?] at h
      split at h
      · next he =>
        cases h
        obtain ⟨rfl, hlen⟩ := he
        exact .fn f (List.forall₂_iff_zip.mpr ⟨hlen, fun {a b} hab => hR (a, b) hab⟩)
      · cases h
    | _ => cases h
  | app _ f a =>
    cases t with
    | app _ g b =>
      cases h
      exact .app (hR (f, g) List.mem_cons_self) (hR (a, b) (List.mem_cons_of_mem _ List.mem_cons_self))
    | _ => cases h
  | lambda => cases h
  | bound => cases h

/-- Different nodes that are alike are compared by their children, which are related. -/
theorem alike?_of_alike (h : Term.Alike R s t) (hne : s ≠ t) :
    ∃ pairs, alike? s t = some pairs ∧ ∀ p ∈ pairs, R p.1 p.2 := by
  cases h with
  | same => exact absurd rfl hne
  | const value => exact ⟨[], by rw [alike?, if_pos rfl], fun p hp => absurd hp List.not_mem_nil⟩
  | fn symbol related =>
    obtain ⟨hlen, hzip⟩ := List.forall₂_iff_zip.mp related
    exact ⟨_, by rw [alike?, if_pos ⟨rfl, hlen⟩], fun p hp => hzip hp⟩
  | app functions arguments =>
    refine ⟨_, rfl, fun p hp => ?_⟩
    simp only [List.mem_cons, List.not_mem_nil, or_false] at hp
    rcases hp with rfl | rfl
    · exact functions
    · exact arguments

/-- What is compared are children of the two. -/
theorem mem_children_of_alike? (h : alike? s t = some pairs) :
    ∀ p ∈ pairs, p.1 ∈ s.children ∧ p.2 ∈ t.children := by
  intro p hp
  cases s with
  | var =>
    cases h
    cases hp
  | const _ a =>
    cases t with
    | const _ b =>
      rw [alike?] at h
      split at h
      · cases h
        cases hp
      · cases h
    | _ => cases h
  | fn _ f ss =>
    cases t with
    | fn _ g ts =>
      rw [alike?] at h
      split at h
      · cases h
        exact List.of_mem_zip hp
      · cases h
    | _ => cases h
  | app _ f a =>
    cases t with
    | app _ g b =>
      cases h
      simp only [List.mem_cons, List.not_mem_nil, or_false] at hp
      rcases hp with rfl | rfl
      · exact ⟨List.mem_cons_self, List.mem_cons_self⟩
      · exact ⟨List.mem_cons_of_mem _ List.mem_cons_self, List.mem_cons_of_mem _ List.mem_cons_self⟩
    | _ => cases h
  | lambda => cases h
  | bound => cases h

end Bindings

/-! ## Agreements -/

/-- A grouping of the family in which terms of one group, variables apart, have the same root and their children in the
same groups pairwise. -/
structure Agreement (P : Term → Prop) (R : Term → Term → Prop) : Prop where
  refl : ∀ {t : Term}, P t → R t t
  symm : ∀ {s t : Term}, R s t → R t s
  trans : ∀ {s t u : Term}, R s t → R t u → R s u
  inside : ∀ {s t : Term}, R s t → P s
  alike : ∀ {s t : Term}, R s t → s.isVar = false → t.isVar = false → Term.Alike R s t

/-- The grouping in which the groups of `s` and `t` are made one. -/
def Joined (R : Term → Term → Prop) (s t u v : Term) : Prop := R u v ∨ R u s ∧ R t v ∨ R u t ∧ R s v

/-- A child of a term of one group is in the other group. -/
def Below (R : Term → Term → Prop) (s t : Term) : Prop := ∃ u c, R s u ∧ c ∈ u.children ∧ R c t

/-- The group comes back below itself. -/
def Recurs (R : Term → Term → Prop) (t : Term) : Prop := Relation.TransGen (Below R) t t

/-- Every path down from the group ends. -/
def Grounded (R : Term → Term → Prop) (t : Term) : Prop := Acc (fun v u => Below R u v) t

/-- The other group is the same or comes below it. -/
def Covers (R : Term → Term → Prop) (s t : Term) : Prop := R s t ∨ Relation.TransGen (Below R) s t

variable {P : Term → Prop} {R S : Term → Term → Prop} {s t u v : Term}

theorem le_joined : R ≤ Joined R s t := fun _ _ h => Or.inl h

/-- The joined grouping is the finest in which the two are in one group. -/
theorem joined_le (hS : Agreement P S) (hle : R ≤ S) (hst : S s t) : Joined R s t ≤ S := by
  rintro u v (h | ⟨hu, hv⟩ | ⟨hu, hv⟩)
  · exact hle u v h
  · exact hS.trans (hS.trans (hle u s hu) hst) (hle t v hv)
  · exact hS.trans (hS.trans (hle u t hu) (hS.symm hst)) (hle s v hv)

theorem Below.mono (h : Below R s t) (hle : R ≤ S) : Below S s t := by
  obtain ⟨u, c, hu, hc, ht⟩ := h
  exact ⟨u, c, hle _ _ hu, hc, hle _ _ ht⟩

theorem below_transGen_mono (h : Relation.TransGen (Below R) s t) (hle : R ≤ S) :
    Relation.TransGen (Below S) s t :=
  Relation.TransGen.mono (fun _ _ hb => Below.mono hb hle) _ _ h

theorem Recurs.mono (h : Recurs R t) (hle : R ≤ S) : Recurs S t := below_transGen_mono h hle

theorem Covers.mono (h : Covers R s t) (hle : R ≤ S) : Covers S s t := by
  rcases h with h | h
  · exact Or.inl (hle _ _ h)
  · exact Or.inr (below_transGen_mono h hle)

namespace Agreement

variable (h : Agreement P R)

include h

theorem inside_right (hst : R s t) : P t := h.inside (h.symm hst)

/-- What is said of a group is said of each of its terms. -/
theorem below_left (hst : R s t) (hb : Below R t u) : Below R s u := by
  obtain ⟨v, c, hv, hc, hu⟩ := hb
  exact ⟨v, c, h.trans hst hv, hc, hu⟩

theorem below_right (hb : Below R s t) (htu : R t u) : Below R s u := by
  obtain ⟨v, c, hv, hc, ht⟩ := hb
  exact ⟨v, c, hv, hc, h.trans ht htu⟩

theorem below_child (hP : Term.Family P) (ht : P t) {c : Term} (hc : c ∈ t.children) : Below R t c :=
  ⟨t, c, h.refl ht, hc, h.refl (hP.child ht hc)⟩

theorem transGen_left (hst : R s t) (hb : Relation.TransGen (Below R) t u) : Relation.TransGen (Below R) s u := by
  obtain ⟨v, hv, hvu⟩ := Relation.TransGen.head'_iff.mp hb
  exact Relation.TransGen.head' (h.below_left hst hv) hvu

theorem transGen_right (hb : Relation.TransGen (Below R) s t) (htu : R t u) : Relation.TransGen (Below R) s u := by
  obtain ⟨v, hsv, hv⟩ := Relation.TransGen.tail'_iff.mp hb
  exact Relation.TransGen.tail' hsv (h.below_right hv htu)

theorem recurs_congr (hst : R s t) (hs : Recurs R s) : Recurs R t :=
  h.transGen_left (h.symm hst) (h.transGen_right hs hst)

theorem covers_left (hst : R s t) (hc : Covers R t u) : Covers R s u := by
  rcases hc with hc | hc
  · exact Or.inl (h.trans hst hc)
  · exact Or.inr (h.transGen_left hst hc)

/-- What a child of a term covers is below the term. -/
theorem transGen_of_child (hP : Term.Family P) (ht : P t) {c : Term} (hc : c ∈ t.children) (hu : Covers R c u) :
    Relation.TransGen (Below R) t u := by
  have hb : Below R t c := h.below_child hP ht hc
  rcases hu with hu | hu
  · exact .single (h.below_right hb hu)
  · exact .head hb hu

theorem grounded_congr (hst : R s t) (ht : Grounded R t) : Grounded R s :=
  ⟨s, fun _ hb => ht.inv (h.below_left (h.symm hst) hb)⟩

/-- What a grounded group covers is grounded. -/
theorem grounded_of_covers (ht : Grounded R s) (hc : Covers R s t) : Grounded R t := by
  rcases hc with hc | hc
  · exact h.grounded_congr (h.symm hc) ht
  · induction hc with
    | single hb => exact ht.inv hb
    | tail _ hb ih => exact ih.inv hb

omit h in
/-- A grounded group does not recur. -/
theorem not_recurs (ht : Grounded R t) : ¬ Recurs R t := by
  intro hr
  have hloop : Relation.TransGen (fun v u => Below R u v) t t := Relation.transGen_swap.mpr hr
  have hacc := ht.transGen
  clear hr ht
  induction hacc with
  | intro t _ ih => exact ih t hloop hloop

/-- **Two groups may be made one** if their terms are alike, or if there are only variables in the one. -/
theorem joined (hst : Term.Alike R s t ∧ s.isVar = false ∧ t.isVar = false ∨ ∀ u, R s u → u.isVar = true) :
    Agreement P (Joined R s t) where
  refl hp := Or.inl (h.refl hp)
  symm := by
    rintro u v (huv | ⟨hu, hv⟩ | ⟨hu, hv⟩)
    · exact Or.inl (h.symm huv)
    · exact Or.inr (Or.inr ⟨h.symm hv, h.symm hu⟩)
    · exact Or.inr (Or.inl ⟨h.symm hv, h.symm hu⟩)
  trans := by
    rintro u v w (huv | ⟨hu, hv⟩ | ⟨hu, hv⟩) (hvw | ⟨hv', hw⟩ | ⟨hv', hw⟩)
    · exact Or.inl (h.trans huv hvw)
    · exact Or.inr (Or.inl ⟨h.trans huv hv', hw⟩)
    · exact Or.inr (Or.inr ⟨h.trans huv hv', hw⟩)
    · exact Or.inr (Or.inl ⟨hu, h.trans hv hvw⟩)
    · exact Or.inr (Or.inl ⟨hu, hw⟩)
    · exact Or.inl (h.trans hu hw)
    · exact Or.inr (Or.inr ⟨hu, h.trans hv hvw⟩)
    · exact Or.inl (h.trans hu hw)
    · exact Or.inr (Or.inr ⟨hu, hw⟩)
  inside := by
    rintro u v (huv | ⟨hu, -⟩ | ⟨hu, -⟩)
    · exact h.inside huv
    · exact h.inside hu
    · exact h.inside hu
  alike := by
    -- the terms of the two groups are alike because `s` and `t` are, unless one group has variables only
    have hcross : ∀ {u v : Term}, R u s → R t v → u.isVar = false → v.isVar = false → Term.Alike R u v := by
      intro u v hu hv hnu hnv
      rcases hst with ⟨halike, hns, hnt⟩ | hvars
      · exact ((h.alike hu hnu hns).trans halike h.trans).trans (h.alike hv hnt hnv) h.trans
      · exact absurd ((hvars u (h.symm hu)).symm.trans hnu) Bool.noConfusion
    rintro u v (huv | ⟨hu, hv⟩ | ⟨hu, hv⟩) hnu hnv
    · exact (h.alike huv hnu hnv).mono le_joined
    · exact (hcross hu hv hnu hnv).mono le_joined
    · exact ((hcross (h.symm hv) (h.symm hu) hnv hnu).symm h.symm).mono le_joined

end Agreement

/-! ### Every term for itself -/

/-- The terms of the family are in one group only if they are the same. -/
def Alone (P : Term → Prop) (s t : Term) : Prop := P s ∧ s = t

theorem Agreement.alone (P : Term → Prop) : Agreement P (Alone P) where
  refl hp := ⟨hp, rfl⟩
  symm := by
    rintro s t ⟨hs, rfl⟩
    exact ⟨hs, rfl⟩
  trans := by
    rintro s t u ⟨hs, rfl⟩ ⟨-, rfl⟩
    exact ⟨hs, rfl⟩
  inside hst := hst.1
  alike := by
    rintro s t ⟨-, rfl⟩ - -
    exact .same s

/-- No agreement is finer. -/
theorem Agreement.alone_le (h : Agreement P S) : Alone P ≤ S := by
  rintro s t ⟨hs, rfl⟩
  exact h.refl hs

end TermGraph
