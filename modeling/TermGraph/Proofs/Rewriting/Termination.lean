import Mathlib.Order.WellFounded
import TermGraph.Proofs.Rewriting.Reduct

/-!
# Termination of rewriting

One step rewrites a tree anywhere by any rule, whatever the rule's conditions. There are finitely many trees that one
step makes of a tree, and they can be listed. A tree terminates if no sequence of steps from it goes on forever.

A tree that terminates stays so if going down to a child counts as a step as well: steps of a child are steps of the
tree. So there is a bound on how many steps and descents can follow each other, and the tree is not met again on the
way. A tree that a pattern matches does not terminate if the rule has the pattern in its template.

## Main statements

* `Reduces`, `Terminates` — the relation, and the absence of endless sequences
* `not_terminates_iff` — **a tree that does not terminate starts an endless sequence**
* `Terminates.descends`, `Terminates.exists_bounded` — descents may be counted as steps
* `PatternRule.not_terminates` — **a rule with its own pattern in its template never comes to an end**
-/

namespace TermGraph

open Relation

/-! ## One step -/

namespace Tree

mutual

/-- The trees that one step makes of a tree, where `root` lists what becomes of a tree at its root. -/
def reducts (root : Tree Slot → List (Tree Slot)) : Tree Slot → List (Tree Slot)
  | .fn f args => root (.fn f args) ++ (reductsAll root args).map (.fn f)
  | .app f a => root (.app f a) ++ ((reducts root f).map (.app · a) ++ (reducts root a).map (.app f))
  | .lambda body => root (.lambda body) ++ (reducts root body).map .lambda
  | .var x => root (.var x)
  | .const a => root (.const a)
  | .bound slot => root (.bound slot)

/-- The lists that one step in one of the trees makes of the list. -/
def reductsAll (root : Tree Slot → List (Tree Slot)) : List (Tree Slot) → List (List (Tree Slot))
  | [] => []
  | t :: ts => (reducts root t).map (· :: ts) ++ (reductsAll root ts).map (t :: ·)

end

variable {root : Tree Slot → List (Tree Slot)} {t u c d : Tree Slot}

theorem mem_reductsAll {ts us : List (Tree Slot)} : us ∈ reductsAll root ts ↔
    ∃ before t after u, ts = before ++ t :: after ∧ u ∈ reducts root t ∧ us = before ++ u :: after := by
  induction ts generalizing us with
  | nil => simp [reductsAll]
  | cons t ts ih =>
    simp only [reductsAll, List.mem_append, List.mem_map, ih]
    constructor
    · rintro (⟨u, hu, rfl⟩ | ⟨_, ⟨before, v, after, u, rfl, hu, rfl⟩, rfl⟩)
      · exact ⟨[], t, ts, u, rfl, hu, rfl⟩
      · exact ⟨t :: before, v, after, u, rfl, hu, rfl⟩
    · rintro ⟨before, v, after, u, hts, hu, rfl⟩
      cases before with
      | nil =>
        cases hts
        exact Or.inl ⟨u, hu, rfl⟩
      | cons w before =>
        cases hts
        exact Or.inr ⟨_, ⟨before, v, after, u, rfl, hu, rfl⟩, rfl⟩

theorem mem_reducts_of_root (h : u ∈ root t) : u ∈ t.reducts root := by
  cases t <;> simp only [reducts, List.mem_append] <;> first | exact Or.inl h | exact h

theorem mem_reducts_fn {f : String} {before after : List (Tree Slot)} (h : u ∈ t.reducts root) :
    .fn f (before ++ u :: after) ∈ (fn f (before ++ t :: after)).reducts root := by
  rw [reducts, List.mem_append]
  exact Or.inr (List.mem_map_of_mem (mem_reductsAll.mpr ⟨before, t, after, u, rfl, h, rfl⟩))

theorem mem_reducts_function {a : Tree Slot} (h : u ∈ t.reducts root) : .app u a ∈ (app t a).reducts root := by
  rw [reducts, List.mem_append, List.mem_append]
  exact Or.inr (Or.inl (List.mem_map_of_mem h))

theorem mem_reducts_argument {f : Tree Slot} (h : u ∈ t.reducts root) : .app f u ∈ (app f t).reducts root := by
  rw [reducts, List.mem_append, List.mem_append]
  exact Or.inr (Or.inr (List.mem_map_of_mem h))

theorem mem_reducts_body (h : u ∈ t.reducts root) : .lambda u ∈ (lambda t).reducts root := by
  rw [reducts, List.mem_append]
  exact Or.inr (List.mem_map_of_mem h)

/-- A step of a child is a step of the tree. -/
theorem exists_reduct_of_child (hc : c ∈ t.children) (hd : d ∈ c.reducts root) :
    ∃ u ∈ t.reducts root, d ∈ u.children := by
  cases t with
  | fn f args =>
    obtain ⟨before, after, rfl⟩ := List.append_of_mem hc
    exact ⟨_, mem_reducts_fn hd, List.mem_append_right _ List.mem_cons_self⟩
  | app f a =>
    rcases List.mem_cons.mp hc with rfl | hc
    · exact ⟨_, mem_reducts_function hd, List.mem_cons_self⟩
    · rw [List.mem_singleton] at hc
      subst hc
      exact ⟨_, mem_reducts_argument hd, List.mem_cons_of_mem _ List.mem_cons_self⟩
  | lambda body =>
    rw [List.mem_singleton.mp hc] at hd
    exact ⟨_, mem_reducts_body hd, List.mem_cons_self⟩
  | _ => exact absurd hc List.not_mem_nil

/-- The children of a tree are smaller. -/
theorem sizeOf_child (hc : c ∈ t.children) : sizeOf c < sizeOf t := by
  cases t with
  | fn f args =>
    have hsize : sizeOf c < sizeOf args := List.sizeOf_lt_of_mem hc
    simp only [fn.sizeOf_spec]
    omega
  | app f a =>
    rcases List.mem_cons.mp hc with rfl | hc
    · simp only [app.sizeOf_spec]
      omega
    · rw [List.mem_singleton.mp hc]
      simp only [app.sizeOf_spec]
      omega
  | lambda body =>
    rw [List.mem_singleton.mp hc]
    simp only [lambda.sizeOf_spec]
    omega
  | _ => exact absurd hc List.not_mem_nil

end Tree

/-- One step by one of the rules makes the other tree of the tree, in the store `own`. -/
def Reduces (rules : List Rule) (own : Nat) (t u : Tree Slot) : Prop :=
  u ∈ t.reducts fun s => rules.filterMap fun rule => rule.reduct? own s

instance (rules : List Rule) (own : Nat) (t u : Tree Slot) : Decidable (Reduces rules own t u) :=
  inferInstanceAs (Decidable (_ ∈ _))

variable {rules : List Rule} {own n m : Nat} {t u v c : Tree Slot}

theorem Reduces.of_rule {rule : Rule} (hr : rule ∈ rules) (h : rule.reduct? own t = some u) :
    Reduces rules own t u :=
  Tree.mem_reducts_of_root (List.mem_filterMap.mpr ⟨rule, hr, h⟩)

/-! ## Several steps -/

/-- Zero or more steps. -/
def Reaches (rules : List Rule) (own : Nat) : Tree Slot → Tree Slot → Prop := ReflTransGen (Reduces rules own)

/-- Steps may be taken in any context that allows each of them. -/
theorem Reaches.map (context : Tree Slot → Tree Slot)
    (hstep : ∀ t u, Reduces rules own t u → Reduces rules own (context t) (context u))
    (h : Reaches rules own t u) : Reaches rules own (context t) (context u) :=
  ReflTransGen.lift context hstep _ _ h

/-- The arguments of a symbol may be rewritten from left to right. -/
theorem Reaches.arguments {α : Type} {f g : α → Tree Slot} (symbol : String) :
    ∀ {as : List α} (before : List (Tree Slot)), (∀ a ∈ as, Reaches rules own (f a) (g a)) →
      Reaches rules own (.fn symbol (before ++ as.map f)) (.fn symbol (before ++ as.map g))
  | [], _, _ => .refl
  | a :: as, before, h => by
    have hfirst := (h a List.mem_cons_self).map (fun t => .fn symbol (before ++ t :: as.map f))
      fun _ _ => Tree.mem_reducts_fn
    have hrest := arguments (g := g) symbol (before ++ [g a]) fun b hb => h b (List.mem_cons_of_mem _ hb)
    rw [List.append_assoc, List.append_assoc, List.singleton_append, List.singleton_append] at hrest
    exact ReflTransGen.trans hfirst hrest

/-- A level may be rewritten child by child. -/
theorem Reaches.of_shape {α : Type} {f g : α → Tree Slot} {s : Shape α}
    (h : ∀ a ∈ s.children, Reaches rules own (f a) (g a)) :
    Reaches rules own (.ofShape (s.map f)) (.ofShape (s.map g)) := by
  cases s with
  | fn symbol args => exact arguments symbol [] h
  | app function argument =>
    have hf := h function List.mem_cons_self
    have ha := h argument (List.mem_cons_of_mem _ List.mem_cons_self)
    exact ReflTransGen.trans (hf.map (.app · _) fun _ _ => Tree.mem_reducts_function)
      (ha.map (.app _) fun _ _ => Tree.mem_reducts_argument)
  | lambda body => exact (h body List.mem_cons_self).map .lambda fun _ _ => Tree.mem_reducts_body
  | _ => exact .refl

/-! ## Endless sequences -/

/-- No sequence of steps from the tree goes on forever. -/
def Terminates (rules : List Rule) (own : Nat) (t : Tree Slot) : Prop := Acc (fun u t => Reduces rules own t u) t

/-- **A tree that does not terminate starts an endless sequence of steps.** -/
theorem not_terminates_iff : ¬ Terminates rules own t ↔
    ∃ f : Nat → Tree Slot, f 0 = t ∧ ∀ i, Reduces rules own (f i) (f (i + 1)) :=
  not_acc_iff_exists_descending_chain

/-- One step, or down to a child. -/
def Descends (rules : List Rule) (own : Nat) (t u : Tree Slot) : Prop := Reduces rules own t u ∨ u ∈ t.children

theorem Term.tree_mem_children {t c : Term} (hc : c ∈ t.children) : c.tree ∈ t.tree.children := by
  rw [Term.children_tree]
  exact List.mem_map_of_mem hc

theorem Descends.of_child {t c : Term} (hc : c ∈ t.children) : Descends rules own t.tree c.tree :=
  Or.inr (Term.tree_mem_children hc)

theorem Reaches.descends (h : Reaches rules own t u) : ReflTransGen (Descends rules own) t u :=
  ReflTransGen.mono (fun _ _ => Or.inl) _ _ h

theorem descends_of_reduces (h : TransGen (Reduces rules own) t u) : TransGen (Descends rules own) t u :=
  TransGen.mono (fun _ _ => Or.inl) _ _ h

/-- A tree ends if whatever one step makes of it does: below the root, a step of a part is a step of the whole. -/
theorem acc_of_reducts (t : Tree Slot)
    (h : ∀ u, Reduces rules own t u → Acc (fun u t => Descends rules own t u) u) :
    Acc (fun u t => Descends rules own t u) t := by
  refine ⟨t, fun c hc => hc.elim (h c) fun hmem => acc_of_reducts c fun d hd => ?_⟩
  obtain ⟨u, hu, hdu⟩ := Tree.exists_reduct_of_child hmem hd
  exact (h u hu).inv (Or.inr hdu)
termination_by sizeOf t
decreasing_by exact Tree.sizeOf_child hmem

/-- **A tree that terminates does so even if descents are counted as steps.** -/
theorem Terminates.descends (h : Terminates rules own t) : Acc (fun u t => Descends rules own t u) t := by
  induction h with
  | intro t _ ih => exact acc_of_reducts t ih

/-- What can be come to from a tree that terminates does so, too. -/
theorem Terminates.of_descends (h : Terminates rules own t) (hu : ReflTransGen (Descends rules own) t u) :
    Terminates rules own u := by
  have hacc : Acc (fun u t => Descends rules own t u) u := by
    induction hu with
    | refl => exact h.descends
    | tail _ hstep ih => exact ih.inv hstep
  exact hacc.recOn fun t _ ih => ⟨t, fun u hu => ih u (Or.inl hu)⟩

/-- A tree that is met again does not terminate. -/
theorem not_terminates_of_loop (h : TransGen (Descends rules own) t t) : ¬ Terminates rules own t := by
  intro hterm
  have hacc : Acc (TransGen fun u t => Descends rules own t u) t := hterm.descends.transGen
  have hback : TransGen (fun u t => Descends rules own t u) t t := transGen_swap.mpr h
  clear hterm h
  induction hacc with
  | intro t _ ih => exact ih t hback hback

/-! ## Rules that make trees smaller -/

theorem sizeOf_middle_lt (before after : List (Tree Slot)) (h : sizeOf u < sizeOf t) :
    sizeOf (before ++ u :: after) < sizeOf (before ++ t :: after) := by
  induction before with
  | nil => simpa using h
  | cons v before ih => simpa using ih

/-- What is made smaller at the root is made smaller anywhere. -/
theorem Tree.sizeOf_reducts {root : Tree Slot → List (Tree Slot)} (hroot : ∀ t, ∀ u ∈ root t, sizeOf u < sizeOf t)
    (t : Tree Slot) : ∀ u ∈ t.reducts root, sizeOf u < sizeOf t := by
  induction t using Tree.induction with
  | fn f args ih =>
    intro u hu
    rw [reducts, List.mem_append, List.mem_map] at hu
    rcases hu with hu | ⟨_, hus, rfl⟩
    · exact hroot _ u hu
    · obtain ⟨before, t, after, v, rfl, hv, rfl⟩ := mem_reductsAll.mp hus
      have hlt := ih t (List.mem_append_right _ List.mem_cons_self) v hv
      have hargs := sizeOf_middle_lt before after hlt
      simp only [fn.sizeOf_spec]
      omega
  | app f a ihf iha =>
    intro u hu
    rw [reducts, List.mem_append, List.mem_append, List.mem_map, List.mem_map] at hu
    rcases hu with hu | ⟨v, hv, rfl⟩ | ⟨v, hv, rfl⟩
    · exact hroot _ u hu
    · have hlt := ihf v hv
      simp only [app.sizeOf_spec]
      omega
    · have hlt := iha v hv
      simp only [app.sizeOf_spec]
      omega
  | lambda body ih =>
    intro u hu
    rw [reducts, List.mem_append, List.mem_map] at hu
    rcases hu with hu | ⟨v, hv, rfl⟩
    · exact hroot _ u hu
    · have hlt := ih v hv
      simp only [lambda.sizeOf_spec]
      omega
  | _ => exact hroot _

/-- If every rule makes trees smaller, every tree terminates. -/
theorem terminates_of_shrinking
    (h : ∀ rule ∈ rules, ∀ t u, rule.reduct? own t = some u → sizeOf u < sizeOf t) (t : Tree Slot) :
    Terminates rules own t := by
  refine Subrelation.accessible (fun {u s} hu => Tree.sizeOf_reducts (fun s u hu => ?_) s u hu)
    (InvImage.accessible (fun t : Tree Slot => sizeOf t) (Nat.lt_wfRel.wf.apply _))
  obtain ⟨rule, hr, hreduct⟩ := List.mem_filterMap.mp hu
  exact h rule hr s u hreduct

/-! ## Bounds -/

/-- Fewer than so many steps and descents follow each other from the tree. -/
def Bounded (rules : List Rule) (own : Nat) : Nat → Tree Slot → Prop
  | 0, _ => False
  | n + 1, t => ∀ u, Descends rules own t u → Bounded rules own n u

theorem Bounded.mono (h : Bounded rules own n t) (hle : n ≤ m) : Bounded rules own m t := by
  induction n generalizing m t with
  | zero => exact h.elim
  | succ n ih =>
    obtain ⟨m, rfl⟩ : ∃ k, m = k + 1 := ⟨m - 1, by omega⟩
    exact fun u hu => ih (h u hu) (by omega)

/-- Where the number of steps is bounded no sequence is endless. -/
theorem Bounded.terminates (h : Bounded rules own n t) : Terminates rules own t := by
  induction n generalizing t with
  | zero => exact h.elim
  | succ n ih => exact ⟨t, fun u hu => ih (h u (Or.inl hu))⟩

/-- The bound gets smaller on the way. -/
theorem Bounded.descends (h : Bounded rules own (n + 1) t) (hu : TransGen (Descends rules own) t u) :
    Bounded rules own n u := by
  induction hu with
  | single hu => exact h _ hu
  | tail _ hu ih =>
    cases n with
    | zero => exact ih.elim
    | succ n => exact (ih _ hu).mono (Nat.le_succ n)

/-- **From a tree that terminates the number of steps and descents is bounded**, since each can be continued in
finitely many ways. -/
theorem Terminates.exists_bounded (h : Terminates rules own t) : ∃ n, Bounded rules own n t := by
  have hall : ∀ us : List (Tree Slot), (∀ u ∈ us, ∃ n, Bounded rules own n u) → ∃ n, ∀ u ∈ us, Bounded rules own n u := by
    intro us hus
    induction us with
    | nil => exact ⟨0, by simp⟩
    | cons u us ih =>
      obtain ⟨hu, hus⟩ := List.forall_mem_cons.mp hus
      obtain ⟨n, hn⟩ := hu
      obtain ⟨m, hm⟩ := ih hus
      exact ⟨max n m, List.forall_mem_cons.mpr
        ⟨hn.mono (Nat.le_max_left n m), fun v hv => (hm v hv).mono (Nat.le_max_right n m)⟩⟩
  have hacc := h.descends
  induction hacc with
  | intro t _ ih =>
    have hnext : ∀ u, Descends rules own t u → ∃ n, Bounded rules own n u := fun u hu =>
      ih u hu (h.of_descends (.single hu))
    obtain ⟨n, hn⟩ := hall _ fun u hu => hnext u (Or.inl hu)
    obtain ⟨m, hm⟩ := hall _ fun u hu => hnext u (Or.inr hu)
    refine ⟨max n m + 1, fun u hu => ?_⟩
    rcases hu with hu | hu
    · exact (hn u hu).mono (Nat.le_max_left n m)
    · exact (hm u hu).mono (Nat.le_max_right n m)

/-! ## Rules that contain themselves -/

namespace Tree

variable {scope : Nat} {p q s : Tree Slot} {σ : Assignment}

/-- What is done to the bound variables of an instance is done to what the variables stand for. -/
theorem instance?_mapBound (f : Nat → Slot → Tree Slot) (depth : Nat) (h : p.instance? σ = some s) :
    p.instance? (fun x => (σ x).map (mapBound f depth)) = some (s.mapBound f depth) := by
  induction p using Tree.induction generalizing s with
  | var x => rw [instance?, show σ x = some s from h, Option.map_some]
  | const a =>
    cases h
    rfl
  | fn g ps ih =>
    rw [instance?, Option.map_eq_some_iff] at h
    obtain ⟨ss, hss, rfl⟩ := h
    rw [instance?, mapBound, mapBoundAll_eq_map, Option.map_eq_some_iff]
    refine ⟨_, instanceAll?_eq_some_iff.mpr ?_, rfl⟩
    rw [instanceAll?_eq_some_iff] at hss
    rw [List.forall₂_map_right_iff]
    exact ((List.forall₂_and_left _ _).mpr ⟨fun q hq => hq, hss⟩).imp fun q s hqs => ih q hqs.1 hqs.2
  | app g a ihg iha =>
    simp only [instance?, Option.bind_eq_some_iff, Option.map_eq_some_iff] at h
    obtain ⟨g', hg, a', ha, rfl⟩ := h
    simp only [instance?, ihg hg, iha ha, Option.bind_some, Option.map_some, mapBound]
  | lambda _ _ => cases h
  | bound _ => cases h

/-- A pattern matches exactly the trees that are its instances. -/
theorem match?_isSome_iff_instance? : (p.match? s .empty).isSome = true ↔ ∃ σ, p.instance? σ = some s := by
  constructor
  · intro h
    obtain ⟨σ, hσ⟩ := Option.isSome_iff_exists.mp h
    exact ⟨σ, (instance?_of_match? hσ).2⟩
  · rintro ⟨σ, hσ⟩
    obtain ⟨τ, hτ, -⟩ := match?_of_extends (σ := .empty) (fun x t hx => by cases hx) hσ
    rw [hτ, Option.isSome_some]

/-- So many levels below the root of the tree there is an instance of the pattern. -/
inductive Contains (p : Tree Slot) : Nat → Tree Slot → Prop
  | here {t : Tree Slot} {σ : Assignment} (h : p.instance? σ = some t) : Contains p 0 t
  | inside {n : Nat} {t c : Tree Slot} (mem : c ∈ t.children) (h : Contains p n c) : Contains p (n + 1) t

theorem children_mapBound (f : Nat → Slot → Tree Slot) (depth : Nat) (hc : c ∈ t.children) :
    ∃ k, c.mapBound f k ∈ (t.mapBound f depth).children := by
  cases t with
  | fn g args =>
    refine ⟨depth, ?_⟩
    rw [mapBound, mapBoundAll_eq_map]
    exact List.mem_map_of_mem hc
  | app g a =>
    refine ⟨depth, ?_⟩
    rcases List.mem_cons.mp hc with rfl | hc
    · exact List.mem_cons_self
    · rw [List.mem_singleton.mp hc]
      exact List.mem_cons_of_mem _ List.mem_cons_self
  | lambda body =>
    refine ⟨depth + 1, ?_⟩
    rw [List.mem_singleton.mp hc]
    exact List.mem_cons_self
  | _ => exact absurd hc List.not_mem_nil

namespace Contains

/-- Instances remain when bound variables change. -/
theorem mapBound (f : Nat → Slot → Tree Slot) (h : Contains p n t) (depth : Nat) :
    Contains p n (t.mapBound f depth) := by
  induction h generalizing depth with
  | here h => exact .here (instance?_mapBound f depth h)
  | inside mem _ ih =>
    obtain ⟨k, hk⟩ := children_mapBound f depth mem
    exact .inside hk (ih k)

/-- **Where a pattern occurs, an instance of it is left**, below whatever binders, and not at the root unless the
pattern is all there was. -/
theorem instantiate (hne : scope ≠ own) (hp : p.instance? σ = some s) :
    p.occurs q = true → ∃ n, Contains p n (q.instantiate own scope σ) ∧ (n = 0 → p = q) := by
  have hself : Contains p 0 (p.instantiate own scope σ) := .here (instantiate_of_instance? own scope hp ▸ hp)
  induction q using Tree.induction with
  | fn f args ih =>
    intro hocc
    simp only [occurs, Bool.or_eq_true, decide_eq_true_eq, occursAny_iff] at hocc
    rcases hocc with rfl | ⟨a, ha, hocc⟩
    · exact ⟨0, hself, fun _ => rfl⟩
    · obtain ⟨n, hn, -⟩ := ih a ha hocc
      rw [Tree.instantiate, instantiateAll_eq_map]
      exact ⟨n + 1, .inside (List.mem_map_of_mem ha) hn, by simp⟩
  | app f a ihf iha =>
    intro hocc
    simp only [occurs, Bool.or_eq_true, decide_eq_true_eq] at hocc
    rcases hocc with rfl | hocc | hocc
    · exact ⟨0, hself, fun _ => rfl⟩
    · obtain ⟨n, hn, -⟩ := ihf hocc
      exact ⟨n + 1, .inside List.mem_cons_self hn, by simp⟩
    · obtain ⟨n, hn, -⟩ := iha hocc
      exact ⟨n + 1, .inside (List.mem_cons_of_mem _ List.mem_cons_self) hn, by simp⟩
  | lambda body ih =>
    intro hocc
    simp only [occurs, Bool.or_eq_true, decide_eq_true_eq] at hocc
    rcases hocc with rfl | hocc
    · exact ⟨0, hself, fun _ => rfl⟩
    · obtain ⟨n, hn, -⟩ := ih hocc
      rw [Tree.instantiate, rebind_eq hne]
      exact ⟨n + 1, .inside List.mem_cons_self (hn.mapBound _ _), by simp⟩
  | _ =>
    intro hocc
    simp only [occurs, decide_eq_true_eq] at hocc
    subst hocc
    exact ⟨0, hself, fun _ => rfl⟩

/-- An instance lies no deeper than the tree is great. -/
theorem le_sizeOf (h : Contains p n t) : n ≤ sizeOf t := by
  induction h with
  | here _ => exact Nat.zero_le _
  | inside mem _ ih => exact Nat.lt_of_le_of_lt ih (sizeOf_child mem)

/-- **A rule with its own pattern in its template applies again**, and further below unless the template is the
pattern. -/
theorem step {rule : PatternRule} (hr : .pattern rule ∈ rules) (hne : rule.store.scope ≠ own)
    (hocc : rule.pattern.tree.occurs rule.template.tree = true) (h : Contains rule.pattern.tree n t) :
    ∃ u m, Reduces rules own t u ∧ Contains rule.pattern.tree m u ∧ n ≤ m ∧
      (m = n → rule.pattern.tree = rule.template.tree) := by
  induction h with
  | here h =>
    obtain ⟨σ, hσ⟩ := Option.isSome_iff_exists.mp (match?_isSome_iff_instance?.mpr ⟨_, h⟩)
    obtain ⟨m, hm, hroot⟩ := instantiate (rule.scope_template ▸ hne) (instance?_of_match? hσ).2 hocc
    exact ⟨_, m, .of_rule hr (by rw [Rule.reduct?, PatternRule.reduct?, hσ, Option.map_some]), hm, Nat.zero_le m, hroot⟩
  | inside mem _ ih =>
    obtain ⟨d, m, hstep, hm, hle, hroot⟩ := ih
    obtain ⟨u, hu, hdu⟩ := exists_reduct_of_child mem hstep
    exact ⟨u, m + 1, hu, .inside hdu hm, Nat.succ_le_succ hle, fun heq => hroot (Nat.succ.inj heq)⟩

end Contains

end Tree

/-- **A tree that a rule with its own pattern in its template applies to does not terminate**: each reduct has a
tree in it that the rule applies to again. -/
theorem PatternRule.not_terminates {rule : PatternRule} (hr : .pattern rule ∈ rules) (hne : rule.store.scope ≠ own)
    (hocc : rule.pattern.tree.occurs rule.template.tree = true)
    (hm : (rule.pattern.tree.match? t .empty).isSome = true) : ¬ Terminates rules own t := by
  intro hterm
  obtain ⟨σ, hσ⟩ := Tree.match?_isSome_iff_instance?.mp hm
  have hcontains : rule.pattern.tree.Contains 0 t := .here hσ
  clear hm hσ
  generalize 0 = n at hcontains
  induction hterm generalizing n with
  | intro t _ ih =>
    obtain ⟨u, m, hstep, hm, -⟩ := hcontains.step hr hne hocc
    exact ih u hstep m hm

end TermGraph
