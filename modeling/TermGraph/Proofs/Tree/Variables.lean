import Mathlib.Data.List.Forall2
import TermGraph.Proofs.Tree.Filling

/-!
# Variables of patterns

A substitution matters to a tree at the tree's variables only. On a pattern without binders, substituting and
matching are inverse to each other: matching finds the one substitution of the pattern's variables that makes the
pattern the subject, whenever there is one.

## Main statements

* `Tree.match?_of_solution` — **matching finds the substitution that makes the pattern the subject**
* `Tree.fill_of_instance?` — what matching finds does make the pattern the subject
-/

namespace TermGraph

/-- The substitution as an assignment to all names. -/
def Assignment.of (θ : Substitution) : Assignment := fun x => some (θ x)

namespace Tree

variable {ν : Type}

/-! ## Variables and binders of a tree -/

mutual

/-- The names of the variables, from left to right. -/
def vars : Tree ν → List String
  | .var x => [x]
  | .const _ | .bound _ => []
  | .fn _ args => varsAll args
  | .app f a => vars f ++ vars a
  | .lambda body => vars body

/-- The names of the variables of each of the trees. -/
def varsAll : List (Tree ν) → List String
  | [] => []
  | t :: ts => vars t ++ varsAll ts

end

theorem mem_varsAll {x : String} {ts : List (Tree ν)} : x ∈ varsAll ts ↔ ∃ t ∈ ts, x ∈ t.vars := by
  induction ts with
  | nil => simp [varsAll]
  | cons t ts ih => simp [varsAll, ih]

mutual

/-- The tree has neither lambdas nor bound variables. -/
def binderFree : Tree ν → Bool
  | .var _ | .const _ => true
  | .fn _ args => binderFreeAll args
  | .app f a => binderFree f && binderFree a
  | .lambda _ | .bound _ => false

/-- None of the trees has lambdas or bound variables. -/
def binderFreeAll : List (Tree ν) → Bool
  | [] => true
  | t :: ts => binderFree t && binderFreeAll ts

end

theorem binderFreeAll_iff {ts : List (Tree ν)} :
    binderFreeAll ts = true ↔ ∀ t ∈ ts, t.binderFree = true := by
  induction ts with
  | nil => simp [binderFreeAll]
  | cons t ts ih => simp [binderFreeAll, ih]

theorem every_true {t : Tree ν} {depth : Nat} : t.Every (fun _ _ => True) depth := by
  induction t using Tree.induction generalizing depth with
  | fn _ args ih => exact everyAll_iff.mpr fun t ht => ih t ht
  | app f a ihf iha => exact ⟨ihf, iha⟩
  | lambda body ih => exact ih
  | _ => trivial

/-! ## Instances -/

section

variable {σ τ : Assignment} {p s : Tree Slot}

theorem instanceAll?_eq_some_iff {ps ss : List (Tree Slot)} :
    instanceAll? σ ps = some ss ↔ List.Forall₂ (fun p s => instance? σ p = some s) ps ss := by
  induction ps generalizing ss with
  | nil => cases ss <;> simp [instanceAll?]
  | cons p ps ih =>
    simp only [instanceAll?, Option.bind_eq_some_iff, Option.map_eq_some_iff]
    constructor
    · rintro ⟨t, ht, ts, hts, rfl⟩
      exact .cons ht (ih.mp hts)
    · intro h
      cases h with
      | cons ht hts => exact ⟨_, ht, _, ih.mpr hts, rfl⟩

/-- Only a pattern without binders has an instance. -/
theorem binderFree_of_instance? (h : instance? σ p = some s) : p.binderFree = true := by
  induction p using Tree.induction generalizing s with
  | var _ => rfl
  | const _ => rfl
  | fn f ps ih =>
    rw [instance?, Option.map_eq_some_iff] at h
    obtain ⟨ss, hss, rfl⟩ := h
    refine binderFreeAll_iff.mpr fun q hq => ?_
    obtain ⟨u, -, hu⟩ := exists_of_instanceAll? hss q hq
    exact ih q hq hu
  | app f a ihf iha =>
    simp only [instance?, Option.bind_eq_some_iff, Option.map_eq_some_iff] at h
    obtain ⟨g, hg, b, hb, rfl⟩ := h
    rw [binderFree, ihf hg, iha hb, Bool.and_true]
  | lambda _ _ => cases h
  | bound _ => cases h

/-- Every variable of a pattern that has an instance stands for a part of the instance. -/
theorem assigned_of_instance? {P : Nat → Slot → Prop} {depth : Nat} (h : instance? σ p = some s)
    (hs : s.Every P depth) : ∀ x ∈ p.vars, ∃ u, σ x = some u ∧ u.Every P depth := by
  induction p using Tree.induction generalizing s with
  | var x =>
    intro y hy
    rw [List.mem_singleton.mp hy]
    exact ⟨s, h, hs⟩
  | const _ => exact fun y hy => absurd hy List.not_mem_nil
  | fn f ps ih =>
    rw [instance?, Option.map_eq_some_iff] at h
    obtain ⟨ss, hss, rfl⟩ := h
    intro y hy
    obtain ⟨q, hq, hyq⟩ := mem_varsAll.mp hy
    obtain ⟨u, hu, hi⟩ := exists_of_instanceAll? hss q hq
    exact ih q hq hi (everyAll_iff.mp hs u hu) y hyq
  | app f a ihf iha =>
    simp only [instance?, Option.bind_eq_some_iff, Option.map_eq_some_iff] at h
    obtain ⟨g, hg, b, hb, rfl⟩ := h
    intro y hy
    rcases List.mem_append.mp hy with hy | hy
    · exact ihf hg hs.1 y hy
    · exact iha hb hs.2 y hy
  | lambda _ _ => cases h
  | bound _ => cases h

/-! ## Substitutions -/

variable {own scope : Nat} {θ θ' : Substitution}

/-- What variables stand for matters at the variables of the tree only. -/
theorem fill_congr {t : Tree Slot} (h : ∀ x ∈ t.vars, θ x = θ' x) (depth : Nat) :
    t.fill own scope θ depth = t.fill own scope θ' depth := by
  induction t using Tree.induction generalizing depth with
  | var x => rw [fill, fill, h x (List.mem_singleton.mpr rfl)]
  | const _ => rfl
  | fn f args ih =>
    simp only [fill, fillAll_eq_map]
    exact congrArg _ (List.map_congr_left fun t ht => ih t ht (fun x hx => h x (mem_varsAll.mpr ⟨t, ht, hx⟩)) depth)
  | app f a ihf iha =>
    rw [fill, fill, ihf (fun x hx => h x (List.mem_append_left _ hx)),
      iha fun x hx => h x (List.mem_append_right _ hx)]
  | lambda body ih => exact congrArg _ (ih h (depth + 1))
  | bound _ => rfl

/-- Without binders, filling in is making an instance. -/
theorem instance?_of_binderFree (h : p.binderFree = true) :
    instance? (.of θ) p = some (p.fill own scope θ 0) := by
  induction p using Tree.induction with
  | var x => rw [instance?, fill, raise_zero, Assignment.of]
  | const _ => rfl
  | fn f ps ih =>
    have hall : instanceAll? (.of θ) ps = some (fillAll own scope θ 0 ps) := by
      rw [instanceAll?_eq_some_iff, fillAll_eq_map, List.forall₂_map_right_iff, List.forall₂_same]
      exact fun q hq => ih q hq (binderFreeAll_iff.mp h q hq)
    rw [instance?, hall, fill, Option.map_some]
  | app f a ihf iha =>
    rw [binderFree, Bool.and_eq_true] at h
    rw [instance?, ihf h.1, iha h.2, fill, Option.bind_some, Option.map_some]
  | lambda _ _ => cases h
  | bound _ => cases h

theorem extends_total (σ : Assignment) : σ.Extends (.of σ.total) := by
  intro x t hx
  rw [Assignment.of, Assignment.total, hx, Option.getD_some]

/-- The instance of a pattern is what filling in makes of it. -/
theorem fill_of_instance? (h : instance? σ p = some s) : p.fill own scope σ.total 0 = s := by
  have hfill : instance? (.of σ.total) p = some (p.fill own scope σ.total 0) :=
    instance?_of_binderFree (binderFree_of_instance? h)
  exact Option.some.inj (hfill.symm.trans (instance?_of_extends (extends_total σ) h))

/-! ## What matching finds -/

mutual

/-- Matching assigns variables of the pattern only. -/
theorem eq_of_match? {x : String} : ∀ {p s : Tree Slot} {σ σ' : Assignment}, match? p s σ = some σ' →
    x ∉ p.vars → σ' x = σ x
  | .var y, s, σ, σ', h, hx => by
    rw [match?] at h
    split at h
    · split at h
      · cases h
        rfl
      · cases h
    · cases h
      exact if_neg fun hyx => hx (List.mem_singleton.mpr hyx.symm)
  | .const a, s, σ, σ', h, hx => by
    cases s with
    | const b =>
      rw [match?] at h
      split at h
      · cases h
        rfl
      · cases h
    | _ => simp [match?] at h
  | .fn f ps, s, σ, σ', h, hx => by
    cases s with
    | fn g ss =>
      rw [match?] at h
      split at h
      · exact eq_of_matchAll? h hx
      · cases h
    | _ => simp [match?] at h
  | .app f a, s, σ, σ', h, hx => by
    cases s with
    | app g b =>
      rw [match?, Option.bind_eq_some_iff] at h
      obtain ⟨τ, hf, ha⟩ := h
      rw [eq_of_match? ha fun hxa => hx (List.mem_append_right _ hxa),
        eq_of_match? hf fun hxf => hx (List.mem_append_left _ hxf)]
    | _ => simp [match?] at h
  | .lambda _, _, _, _, h, _ => by simp [match?] at h
  | .bound _, _, _, _, h, _ => by simp [match?] at h

theorem eq_of_matchAll? {x : String} : ∀ {ps ss : List (Tree Slot)} {σ σ' : Assignment},
    matchAll? ps ss σ = some σ' → x ∉ varsAll ps → σ' x = σ x
  | [], _, _, _, h, _ => by
    simp only [matchAll?, Option.some.injEq] at h
    rw [h]
  | _ :: _, [], _, _, h, _ => by
    simp only [matchAll?, Option.some.injEq] at h
    rw [h]
  | p :: ps, s :: ss, σ, σ', h, hx => by
    rw [matchAll?, Option.bind_eq_some_iff] at h
    obtain ⟨τ, hp, hps⟩ := h
    rw [eq_of_matchAll? hps fun hxs => hx (List.mem_append_right _ hxs),
      eq_of_match? hp fun hxp => hx (List.mem_append_left _ hxp)]

end

mutual

/-- A pattern matches its instance, and no variable comes to stand for anything else than in the instance. -/
theorem match?_of_extends : ∀ {p s : Tree Slot} {σ : Assignment}, σ.Extends τ → instance? τ p = some s →
    ∃ σ', match? p s σ = some σ' ∧ σ'.Extends τ
  | .var x, s, σ, hext, h => by
    cases hx : σ x with
    | some t =>
      have ht : t = s := Option.some.inj ((hext x t hx).symm.trans h)
      exact ⟨σ, by rw [match?, hx, ht]; exact if_pos rfl, hext⟩
    | none =>
      refine ⟨σ.set x s, by rw [match?, hx], fun y u hy => ?_⟩
      rw [Assignment.set] at hy
      split at hy
      · next hxy =>
        cases hy
        exact hxy ▸ h
      · exact hext y u hy
  | .const a, s, σ, hext, h => by
    cases h
    exact ⟨σ, by rw [match?, if_pos rfl], hext⟩
  | .fn f ps, s, σ, hext, h => by
    rw [instance?, Option.map_eq_some_iff] at h
    obtain ⟨ss, hss, rfl⟩ := h
    obtain ⟨σ', hm, hext'⟩ := matchAll?_of_extends hext hss
    exact ⟨σ', by rw [match?, if_pos ⟨rfl, length_of_instanceAll? hss⟩, hm], hext'⟩
  | .app f a, s, σ, hext, h => by
    simp only [instance?, Option.bind_eq_some_iff, Option.map_eq_some_iff] at h
    obtain ⟨g, hg, b, hb, rfl⟩ := h
    obtain ⟨σ', hf, hext'⟩ := match?_of_extends hext hg
    obtain ⟨σ'', ha, hext''⟩ := match?_of_extends hext' hb
    exact ⟨σ'', by rw [match?, hf, Option.bind_some, ha], hext''⟩
  | .lambda _, _, _, _, h => by cases h
  | .bound _, _, _, _, h => by cases h

theorem matchAll?_of_extends : ∀ {ps ss : List (Tree Slot)} {σ : Assignment}, σ.Extends τ →
    instanceAll? τ ps = some ss → ∃ σ', matchAll? ps ss σ = some σ' ∧ σ'.Extends τ
  | [], ss, σ, hext, _ => ⟨σ, by rw [matchAll?]; simp, hext⟩
  | p :: ps, ss, σ, hext, h => by
    simp only [instanceAll?, Option.bind_eq_some_iff, Option.map_eq_some_iff] at h
    obtain ⟨t, ht, ts, hts, rfl⟩ := h
    obtain ⟨σ', hp, hext'⟩ := match?_of_extends hext ht
    obtain ⟨σ'', hps, hext''⟩ := matchAll?_of_extends hext' hts
    exact ⟨σ'', by rw [matchAll?, hp, Option.bind_some, hps], hext''⟩

end

/-- **Matching finds the substitution that makes the pattern the subject.** -/
theorem match?_of_solution (hp : p.binderFree = true) (hrest : ∀ x, x ∉ p.vars → θ x = .var x)
    (heq : p.fill own scope θ 0 = s) : ∃ σ, match? p s .empty = some σ ∧ σ.total = θ := by
  have hi : instance? (.of θ) p = some (p.fill own scope θ 0) := instance?_of_binderFree hp
  rw [heq] at hi
  have hempty : Assignment.empty.Extends (.of θ) := fun x t hx => by cases hx
  obtain ⟨σ, hm, hext⟩ := match?_of_extends hempty hi
  refine ⟨σ, hm, funext fun x => ?_⟩
  rw [Assignment.total]
  cases hx : σ x with
  | some t => exact (Option.some.inj (hext x t hx)).symm
  | none =>
    refine (hrest x fun hxp => ?_).symm
    obtain ⟨t, ht, -⟩ := assigned_of_instance? (instance?_of_match? hm).2 (every_true : s.Every _ 0) x hxp
    rw [hx] at ht
    cases ht

end

end Tree

end TermGraph
