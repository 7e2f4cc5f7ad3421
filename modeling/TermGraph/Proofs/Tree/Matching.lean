import Mathlib.Data.List.Basic
import TermGraph.Proofs.Insertion.Copied

/-!
# Matching of trees

Matching and instantiation as plain functions on trees. A variable of a pattern stands for a tree once it
has been met; nothing is shared and no node is remembered. A pattern that has matched is the subject once
its variables are replaced, so matching it again succeeds with that subject only, and that is why a matcher
may remember whole nodes of the pattern.

## Main statements

* `Tree.instance?_of_match?` — a pattern that has matched has the subject as its instance
* `Tree.match?_of_instance?` — **a pattern that has an instance matches that instance only**
-/

namespace TermGraph

/-- What the variables of a pattern stand for. -/
abbrev Assignment := String → Option (Tree Slot)

namespace Assignment

/-- No variable stands for anything. -/
def empty : Assignment := fun _ => none

/-- The assignment with one more variable. -/
def set (σ : Assignment) (x : String) (t : Tree Slot) : Assignment :=
  fun y => if x = y then some t else σ y

/-- Whatever stands for something stands for the same in the larger assignment. -/
def Extends (σ σ' : Assignment) : Prop := ∀ (x : String) (t : Tree Slot), σ x = some t → σ' x = some t

variable {σ σ' σ'' : Assignment} {x : String} {t : Tree Slot}

theorem Extends.refl (σ : Assignment) : σ.Extends σ := fun _ _ h => h

theorem Extends.trans (h : σ.Extends σ') (h' : σ'.Extends σ'') : σ.Extends σ'' :=
  fun x t hx => h' x t (h x t hx)

theorem Extends.set (h : σ x = none) : σ.Extends (σ.set x t) := by
  intro y u hy
  unfold Assignment.set
  split
  · next he =>
    rw [← he, h] at hy
    cases hy
  · exact hy

end Assignment

namespace Tree

/-! ## Matching and instances -/

mutual

/-- Matches a pattern against a subject: what the variables stand for afterwards. -/
def match? : Tree Slot → Tree Slot → Assignment → Option Assignment
  | .var x, s, σ =>
    match σ x with
    | some t => if s = t then some σ else none
    | none => some (σ.set x s)
  | .const a, .const b, σ => if a = b then some σ else none
  | .fn f ps, .fn g ss, σ => if f = g ∧ ps.length = ss.length then matchAll? ps ss σ else none
  | .app f a, .app g b, σ => (match? f g σ).bind (match? a b)
  | _, _, _ => none

/-- Matches patterns against subjects pairwise, from left to right. -/
def matchAll? : List (Tree Slot) → List (Tree Slot) → Assignment → Option Assignment
  | p :: ps, s :: ss, σ => (match? p s σ).bind (matchAll? ps ss)
  | _, _, σ => some σ

end

mutual

/-- The instance of a pattern all of whose variables stand for something. Lambdas and bound variables are no
patterns. -/
def instance? (σ : Assignment) : Tree Slot → Option (Tree Slot)
  | .var x => σ x
  | .const a => some (.const a)
  | .fn f args => (instanceAll? σ args).map (.fn f)
  | .app f a => (instance? σ f).bind fun g => (instance? σ a).map (.app g)
  | .lambda _ | .bound _ => none

/-- The instances of patterns. -/
def instanceAll? (σ : Assignment) : List (Tree Slot) → Option (List (Tree Slot))
  | [] => some []
  | t :: ts => (instance? σ t).bind fun u => (instanceAll? σ ts).map (u :: ·)

end

mutual

/-- The tree with its variables replaced by what they stand for, made in the store `own` of a term of the store
`scope`. Variables that stand for nothing stay, and lambdas are bound anew. -/
def instantiate (own scope : Nat) (σ : Assignment) : Tree Slot → Tree Slot
  | .var x => (σ x).getD (.var x)
  | .const a => .const a
  | .fn f args => .fn f (instantiateAll own scope σ args)
  | .app f a => .app (instantiate own scope σ f) (instantiate own scope σ a)
  | .lambda body => rebind own scope (instantiate own scope σ body)
  | .bound slot => .bound slot

/-- Each of the trees with its variables replaced. -/
def instantiateAll (own scope : Nat) (σ : Assignment) : List (Tree Slot) → List (Tree Slot)
  | [] => []
  | t :: ts => instantiate own scope σ t :: instantiateAll own scope σ ts

end

theorem instantiateAll_eq_map (own scope : Nat) (σ : Assignment) (ts : List (Tree Slot)) :
    instantiateAll own scope σ ts = ts.map (instantiate own scope σ) := by
  induction ts with
  | nil => rfl
  | cons t ts ih => rw [instantiateAll, List.map_cons, ih]

/-! ### Instances -/

section

variable {σ σ' : Assignment}

mutual

theorem instance?_of_extends (h : σ.Extends σ') : ∀ {p s : Tree Slot},
    instance? σ p = some s → instance? σ' p = some s
  | .var x, s, hs => h x s hs
  | .const _, _, hs => hs
  | .fn f args, s, hs => by
    rw [instance?, Option.map_eq_some_iff] at hs ⊢
    obtain ⟨ss, hss, he⟩ := hs
    exact ⟨ss, instanceAll?_of_extends h hss, he⟩
  | .app f a, s, hs => by
    simp only [instance?, Option.bind_eq_some_iff, Option.map_eq_some_iff] at hs ⊢
    obtain ⟨g, hg, b, hb, he⟩ := hs
    exact ⟨g, instance?_of_extends h hg, b, instance?_of_extends h hb, he⟩
  | .lambda _, _, hs => by cases hs
  | .bound _, _, hs => by cases hs

theorem instanceAll?_of_extends (h : σ.Extends σ') : ∀ {ps ss : List (Tree Slot)},
    instanceAll? σ ps = some ss → instanceAll? σ' ps = some ss
  | [], _, hs => hs
  | p :: ps, ss, hs => by
    simp only [instanceAll?, Option.bind_eq_some_iff, Option.map_eq_some_iff] at hs ⊢
    obtain ⟨t, ht, ts, hts, he⟩ := hs
    exact ⟨t, instance?_of_extends h ht, ts, instanceAll?_of_extends h hts, he⟩

end

mutual

/-- The instance of a pattern is the pattern with its variables replaced. -/
theorem instantiate_of_instance? (own scope : Nat) : ∀ {p s : Tree Slot},
    instance? σ p = some s → instantiate own scope σ p = s
  | .var x, s, hs => by
    rw [instance?] at hs
    rw [instantiate, hs, Option.getD_some]
  | .const _, _, hs => by
    cases hs
    rfl
  | .fn f args, s, hs => by
    rw [instance?, Option.map_eq_some_iff] at hs
    obtain ⟨ss, hss, rfl⟩ := hs
    rw [instantiate, instantiateAll_of_instanceAll? own scope hss]
  | .app f a, s, hs => by
    simp only [instance?, Option.bind_eq_some_iff, Option.map_eq_some_iff] at hs
    obtain ⟨g, hg, b, hb, rfl⟩ := hs
    rw [instantiate, instantiate_of_instance? own scope hg, instantiate_of_instance? own scope hb]
  | .lambda _, _, hs => by cases hs
  | .bound _, _, hs => by cases hs

theorem instantiateAll_of_instanceAll? (own scope : Nat) : ∀ {ps ss : List (Tree Slot)},
    instanceAll? σ ps = some ss → instantiateAll own scope σ ps = ss
  | [], ss, hs => by
    cases hs
    rfl
  | p :: ps, ss, hs => by
    simp only [instanceAll?, Option.bind_eq_some_iff, Option.map_eq_some_iff] at hs
    obtain ⟨t, ht, ts, hts, rfl⟩ := hs
    rw [instantiateAll, instantiate_of_instance? own scope ht,
      instantiateAll_of_instanceAll? own scope hts]

end

/-- There are as many instances as patterns. -/
theorem length_of_instanceAll? : ∀ {ps ss : List (Tree Slot)},
    instanceAll? σ ps = some ss → ps.length = ss.length
  | [], _, hs => by
    cases hs
    rfl
  | p :: ps, ss, hs => by
    simp only [instanceAll?, Option.bind_eq_some_iff, Option.map_eq_some_iff] at hs
    obtain ⟨t, -, ts, hts, rfl⟩ := hs
    rw [List.length_cons, List.length_cons, length_of_instanceAll? hts]

end

/-! ### What matching does -/

mutual

/-- **A pattern that has matched has the subject as its instance**, and no variable stands for anything else
than before. -/
theorem instance?_of_match? : ∀ {p s : Tree Slot} {σ σ' : Assignment},
    match? p s σ = some σ' → σ.Extends σ' ∧ instance? σ' p = some s
  | .var x, s, σ, σ', h => by
    rw [match?] at h
    split at h
    · next t ht =>
      split at h
      · next he =>
        cases h
        exact ⟨.refl σ, by rw [instance?, ht, he]⟩
      · cases h
    · next hnone =>
      cases h
      exact ⟨.set hnone, by simp [instance?, Assignment.set]⟩
  | .const a, s, σ, σ', h => by
    cases s with
    | const b =>
      rw [match?] at h
      split at h
      · next he =>
        cases h
        exact ⟨.refl σ, by rw [instance?, he]⟩
      · cases h
    | _ => simp [match?] at h
  | .fn f ps, s, σ, σ', h => by
    cases s with
    | fn g ss =>
      rw [match?] at h
      split at h
      · next he =>
        obtain ⟨hext, hinst⟩ := instanceAll?_of_matchAll? he.2 h
        exact ⟨hext, by rw [instance?, hinst, he.1, Option.map_some]⟩
      · cases h
    | _ => simp [match?] at h
  | .app f a, s, σ, σ', h => by
    cases s with
    | app g b =>
      rw [match?, Option.bind_eq_some_iff] at h
      obtain ⟨τ, hf, ha⟩ := h
      obtain ⟨hext, hinst⟩ := instance?_of_match? hf
      obtain ⟨hext', hinst'⟩ := instance?_of_match? ha
      refine ⟨hext.trans hext', ?_⟩
      rw [instance?, instance?_of_extends hext' hinst, hinst', Option.bind_some, Option.map_some]
    | _ => simp [match?] at h
  | .lambda _, _, _, _, h => by simp [match?] at h
  | .bound _, _, _, _, h => by simp [match?] at h

theorem instanceAll?_of_matchAll? : ∀ {ps ss : List (Tree Slot)} {σ σ' : Assignment},
    ps.length = ss.length → matchAll? ps ss σ = some σ' →
    σ.Extends σ' ∧ instanceAll? σ' ps = some ss
  | [], [], σ, σ', _, h => by
    cases h
    exact ⟨.refl σ, rfl⟩
  | [], _ :: _, _, _, hlen, _ => by cases hlen
  | _ :: _, [], _, _, hlen, _ => by cases hlen
  | p :: ps, s :: ss, σ, σ', hlen, h => by
    rw [matchAll?, Option.bind_eq_some_iff] at h
    obtain ⟨τ, hp, hps⟩ := h
    obtain ⟨hext, hinst⟩ := instance?_of_match? hp
    obtain ⟨hext', hinst'⟩ := instanceAll?_of_matchAll? (Nat.succ.inj hlen) hps
    refine ⟨hext.trans hext', ?_⟩
    rw [instanceAll?, instance?_of_extends hext' hinst, hinst', Option.bind_some, Option.map_some]

end

mutual

/-- **A pattern that has an instance matches that instance only**, and nothing is assigned on the way. -/
theorem match?_of_instance? : ∀ {p t : Tree Slot} {σ : Assignment} (s : Tree Slot),
    instance? σ p = some t → match? p s σ = if s = t then some σ else none
  | .var x, t, σ, s, h => by
    rw [instance?] at h
    rw [match?, h]
  | .const a, t, σ, s, h => by
    cases h
    cases s with
    | const b => simp only [match?, Tree.const.injEq, eq_comm]
    | _ => simp [match?]
  | .fn f ps, t, σ, s, h => by
    rw [instance?, Option.map_eq_some_iff] at h
    obtain ⟨ts, hts, rfl⟩ := h
    cases s with
    | fn g ss =>
      rw [match?]
      by_cases he : f = g ∧ ps.length = ss.length
      · rw [if_pos he, matchAll?_of_instanceAll? he.2 hts]
        simp only [Tree.fn.injEq, he.1, true_and]
      · have hne : Tree.fn g ss ≠ .fn f ts := by
          rintro hfn
          cases hfn
          exact he ⟨rfl, length_of_instanceAll? hts⟩
        rw [if_neg he, if_neg hne]
    | _ => simp [match?]
  | .app f a, t, σ, s, h => by
    simp only [instance?, Option.bind_eq_some_iff, Option.map_eq_some_iff] at h
    obtain ⟨g, hg, b, hb, rfl⟩ := h
    cases s with
    | app g' b' =>
      rw [match?, match?_of_instance? g' hg]
      by_cases he : g' = g
      · rw [if_pos he, Option.bind_some, match?_of_instance? b' hb]
        simp only [Tree.app.injEq, he, true_and]
      · rw [if_neg he, Option.bind_none, if_neg (by simp [he])]
    | _ => simp [match?]
  | .lambda _, _, _, _, h => by cases h
  | .bound _, _, _, _, h => by cases h

theorem matchAll?_of_instanceAll? : ∀ {ps ss ts : List (Tree Slot)} {σ : Assignment},
    ps.length = ss.length → instanceAll? σ ps = some ts →
    matchAll? ps ss σ = if ss = ts then some σ else none
  | [], [], _, _, _, h => by
    cases h
    rfl
  | [], _ :: _, _, _, hlen, _ => by cases hlen
  | _ :: _, [], _, _, hlen, _ => by cases hlen
  | p :: ps, s :: ss, ts, σ, hlen, h => by
    simp only [instanceAll?, Option.bind_eq_some_iff, Option.map_eq_some_iff] at h
    obtain ⟨u, hu, us, hus, rfl⟩ := h
    rw [matchAll?, match?_of_instance? s hu]
    by_cases he : s = u
    · rw [if_pos he, Option.bind_some, matchAll?_of_instanceAll? (Nat.succ.inj hlen) hus]
      simp only [List.cons.injEq, he, true_and]
    · rw [if_neg he, Option.bind_none, if_neg (by simp [he])]

end

/-! ## Occurrences -/

mutual

/-- The tree is `p` or has it below. -/
def occurs (p : Tree Slot) : Tree Slot → Bool
  | .var x => p = .var x
  | .const a => p = .const a
  | .fn f args => p = .fn f args || occursAny p args
  | .app f a => p = .app f a || (occurs p f || occurs p a)
  | .lambda body => p = .lambda body || occurs p body
  | .bound slot => p = .bound slot

/-- One of the trees is `p` or has it below. -/
def occursAny (p : Tree Slot) : List (Tree Slot) → Bool
  | [] => false
  | t :: ts => occurs p t || occursAny p ts

end

theorem occursAny_iff {p : Tree Slot} {ts : List (Tree Slot)} :
    occursAny p ts = true ↔ ∃ t ∈ ts, occurs p t = true := by
  induction ts with
  | nil => simp [occursAny]
  | cons t ts ih => simp [occursAny, ih]

end Tree

theorem Tree.exists_of_instanceAll? {σ : Assignment} : ∀ {ps ss : List (Tree Slot)},
    instanceAll? σ ps = some ss → ∀ p ∈ ps, ∃ s ∈ ss, instance? σ p = some s
  | [], _, _, p, hp => absurd hp (by simp)
  | q :: ps, ss, h, p, hp => by
    simp only [instanceAll?, Option.bind_eq_some_iff, Option.map_eq_some_iff] at h
    obtain ⟨t, ht, ts, hts, rfl⟩ := h
    rcases List.mem_cons.mp hp with rfl | hp
    · exact ⟨t, List.mem_cons_self, ht⟩
    · obtain ⟨s, hs, hi⟩ := exists_of_instanceAll? hts p hp
      exact ⟨s, List.mem_cons_of_mem _ hs, hi⟩

/-- Where a pattern has a term as its instance, each child of the pattern has a child of the term. -/
theorem Term.instance?_child {σ : Assignment} {q v : Term} (h : q.tree.instance? σ = some v.tree) :
    ∀ c ∈ q.children, ∃ w ∈ v.children, c.tree.instance? σ = some w.tree := by
  intro c hc
  cases q with
  | fn _ f args =>
    rw [tree, Tree.instance?, Option.map_eq_some_iff] at h
    obtain ⟨ss, hss, hv⟩ := h
    cases v with
    | fn _ g args' =>
      rw [tree, Tree.fn.injEq] at hv
      rw [hv.2] at hss
      have hmem : c.tree ∈ trees args := by
        rw [trees_eq_map]
        exact List.mem_map_of_mem hc
      obtain ⟨s, hs, hi⟩ := Tree.exists_of_instanceAll? hss c.tree hmem
      rw [trees_eq_map, List.mem_map] at hs
      obtain ⟨w, hw, rfl⟩ := hs
      exact ⟨w, hw, hi⟩
    | _ => simp [tree] at hv
  | app _ f a =>
    simp only [tree, Tree.instance?, Option.bind_eq_some_iff, Option.map_eq_some_iff] at h
    obtain ⟨g, hg, b, hb, hv⟩ := h
    cases v with
    | app _ g' b' =>
      rw [tree, Tree.app.injEq] at hv
      simp only [children, shape, Shape.children, List.mem_cons, List.not_mem_nil, or_false] at hc ⊢
      rcases hc with rfl | rfl
      · exact ⟨g', Or.inl rfl, hv.1 ▸ hg⟩
      · exact ⟨b', Or.inr rfl, hv.2 ▸ hb⟩
    | _ => simp [tree] at hv
  | lambda _ body => cases h
  | _ => simp [children, shape, Shape.children] at hc

/-- What occurs in a term is the term or occurs in a child. -/
theorem Term.occurs_tree_iff {p : Tree Slot} {t : Term} :
    p.occurs t.tree = true ↔ p = t.tree ∨ ∃ c ∈ t.children, p.occurs c.tree = true := by
  cases t <;> simp [tree, Tree.occurs, children, shape, Shape.children, trees_eq_map,
    Tree.occursAny_iff]

/-! ## Copies as instances -/

/-- One level of an instance is one level of a copy. -/
theorem Term.instantiate_tree {σ : Assignment} {own : Nat} {q : Term} (hne : q.scope ≠ own)
    (hvar : ∀ x, q.tree = .var x → σ x = none) :
    q.tree.instantiate own q.scope σ =
      .adopted own q.scope (q.shape.map fun c => c.tree.instantiate own q.scope σ) := by
  cases q with
  | var _ x =>
    have hx := hvar x rfl
    simp [tree, Tree.instantiate, shape, Shape.map, Tree.adopted, Tree.ofShape, hx]
  | fn _ f args =>
    simp [tree, Tree.instantiate, shape, Shape.map, Tree.adopted, Tree.ofShape,
      Tree.instantiateAll_eq_map, trees_eq_map]
  | lambda _ body =>
    simp [tree, Tree.instantiate, shape, Shape.map, Tree.adopted, hne]
  | _ => simp [tree, Tree.instantiate, shape, Shape.map, Tree.adopted, Tree.ofShape]

/-- A term of another store is copied as its instance if its linked nodes are. -/
theorem Links.Copied.instantiate {links : Links} {own scope : Nat} {σ : Assignment} {P : Term → Prop}
    (hne : scope ≠ own) (hscope : ∀ q, P q → q.scope = scope) (hchild : ∀ q, P q → ∀ c ∈ q.children, P c)
    (hpending : ∀ q, P q → links.isPending q = false)
    (hlinked : ∀ q v, P q → links.link? q = some v →
      q.tree.instance? σ = some v.tree ∧ links.Copied own v v.tree)
    (hvar : ∀ q x, P q → links.link? q = Option.none → q.tree = .var x → σ x = Option.none) (q : Term) :
    P q → links.Copied own q (q.tree.instantiate own scope σ) := by
  induction q using Term.children_induction with
  | _ q ih =>
    intro hq
    cases hl : links.link? q with
    | some v =>
      obtain ⟨hi, hv⟩ := hlinked q v hq hl
      rw [Tree.instantiate_of_instance? own scope hi]
      exact .linked (hpending q hq) hl hv
    | none =>
      have hqs := hscope q hq
      subst hqs
      rw [Term.instantiate_tree hne fun x hx => hvar q x hq hl hx]
      exact .node _ (hpending q hq) hl fun c hc => ih c hc (hchild q hq c hc)

end TermGraph
