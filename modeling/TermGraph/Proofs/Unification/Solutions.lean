import Mathlib.Data.Set.Finite.Basic
import Mathlib.Order.Filter.AtTopBot.Basic
import Mathlib.Order.Filter.Finite
import TermGraph.Proofs.Matching.Listed
import TermGraph.Proofs.Unification.Copies
import TermGraph.Proofs.Unification.Expression

/-!
# Applying solutions

The solutions of a unification give each bound variable the term it is bound to, which may hold bound variables again.
They are applied until none is left. What a term is then is `Bindings.Reads`: only variables are replaced, and the
bindings of other nodes do not count.

Terms of one group of the agreement that the bindings stand for are read as the same tree. For two variables that is
because each is read as what the chain from it ends in, and of two ends in one group neither can be a variable.

## Main statements

* `Bindings.Groups.reads_congr` — **terms of one group are read as the same tree**
* `Bindings.Groups.exists_reads` — a term of a grounded group is read as a tree
* `Bindings.Groups.eventually_substN` — the solutions applied often enough give what is read
-/

namespace TermGraph

open Filter

namespace Bindings

variable {b : Bindings} {t u v next : Term} {e e' : Expression NodeId}

/-! ## Solutions -/

/-- What a node is replaced by when the solutions are applied once. -/
def solution (b : Bindings) (x : NodeId) : Expression NodeId :=
  match b.solutions.find? fun p => p.1.id = x with
  | some p => p.2.expression
  | none => .var x

/-- What a node is replaced by when the solutions are applied so many times. -/
def solved (b : Bindings) (n : Nat) (x : NodeId) : Expression NodeId := Expression.substN b.solution n (.var x)

/-- The solutions have been applied until no bound variable is left. -/
def Settled (b : Bindings) (e : Expression NodeId) : Prop := ∀ x ∈ e.vars, ∀ p ∈ b.solutions, p.1.id ≠ x

/-- A node is the variable of a solution or not. -/
theorem solution_cases (b : Bindings) (x : NodeId) :
    (∀ p ∈ b.solutions, p.1.id ≠ x) ∨ ∃ p ∈ b.solutions, p.1.id = x := by
  rw [← or_comm, or_iff_not_imp_left]
  exact fun h p hp hid => h ⟨p, hp, hid⟩

theorem solution_of_forall_ne {x : NodeId} (h : ∀ p ∈ b.solutions, p.1.id ≠ x) : b.solution x = .var x := by
  have hnone : (b.solutions.find? fun p => p.1.id = x) = none :=
    List.find?_eq_none.mpr fun p hp => by simp [h p hp]
  rw [solution, hnone]

/-- A solution puts its value in the place of its variable. -/
theorem solution_of_mem {p : Term × Term} (hp : p ∈ b.solutions) : b.solution p.1.id = p.2.expression := by
  rw [solution]
  cases hfind : b.solutions.find? fun q => q.1.id = p.1.id with
  | none => exact absurd (decide_eq_true rfl) (List.find?_eq_none.mp hfind p hp)
  | some q =>
    have hid : q.1.id = p.1.id := by simpa using List.find?_some hfind
    have hq := (mem_solutions.mp (List.mem_of_find?_eq_some hfind)).2.2
    have hpb := (mem_solutions.mp hp).2.2
    rw [binding?, hid, ← binding?, hpb] at hq
    rw [Option.some.inj hq]

/-- What unification has bound is on the trail. -/
theorem Groups.isListed {P : Term → Prop} {R : Term → Term → Prop} (h : b.Groups P R) : b.Listed P :=
  ⟨h.trail, h.listed⟩

/-! ## What terms are read as -/

/-- With bound variables replaced by what they are bound to until none is left, the term is the tree. -/
inductive Reads (b : Bindings) : Term → Expression NodeId → Prop
  | linked {t next : Term} {e : Expression NodeId} (var : t.isVar = true) (link : b.binding? t = some next)
      (rest : Reads b next e) : Reads b t e
  | node {t : Term} (f : Term → Expression NodeId) (stays : t.isVar = true → b.binding? t = none)
      (rest : ∀ c ∈ t.children, Reads b c (f c)) : Reads b t (.ofShape t.id (t.shape.map f))

/-- A node that is no bound variable is read as a tree if its children are. -/
theorem Reads.of_children (hstays : t.isVar = true → b.binding? t = none) (hc : ∀ c ∈ t.children, ∃ e, b.Reads c e) :
    ∃ e, b.Reads t e := by
  have hf : ∀ c : Term, ∃ e, c ∈ t.children → b.Reads c e := fun c => by
    by_cases hct : c ∈ t.children
    · obtain ⟨e, he⟩ := hc c hct
      exact ⟨e, fun _ => he⟩
    · exact ⟨.var c.id, fun hct' => absurd hct' hct⟩
  choose f hf using hf
  exact ⟨_, .node f hstays hf⟩

/-- Alike nodes are read as the same tree if their children are. -/
theorem ofShape_eq_of_alike {R : Term → Term → Prop} {f g : Term → Expression NodeId} (h : Term.Alike R u v)
    (hrefl : ∀ c ∈ u.children, R c c) (hfg : ∀ c ∈ u.children, ∀ d ∈ v.children, R c d → f c = g d) :
    Expression.ofShape u.id (u.shape.map f) = .ofShape v.id (v.shape.map g) := by
  cases h with
  | same => rw [Shape.map_congr fun c hc => hfg c hc c hc (hrefl c hc)]
  | const => rfl
  | fn symbol related => exact congrArg (Expression.fn symbol) (map_eq_of_forall₂ related hfg)
  | app functions arguments =>
    have hsnd : ∀ {x y : Term}, y ∈ [x, y] := List.mem_cons_of_mem _ List.mem_cons_self
    exact congrArg₂ Expression.app (hfg _ List.mem_cons_self _ List.mem_cons_self functions)
      (hfg _ hsnd _ hsnd arguments)

namespace Groups

variable {P : Term → Prop} {R : Term → Term → Prop} {s : Term}

/-- Only variables are among the solutions, and only bound ones. -/
theorem ne_of_stays (h : b.Groups P R) (hP : Term.Family P) (ht : P t)
    (hstays : t.isVar = true → b.binding? t = none) : ∀ p ∈ b.solutions, p.1.id ≠ t.id := by
  intro p hp hid
  obtain ⟨htrail, hvar, hb⟩ := Bindings.mem_solutions.mp hp
  obtain rfl := hP.unique (h.trail p.1 htrail) ht hid
  rw [hstays hvar] at hb
  cases hb

/-- In what is read there is no bound variable. -/
theorem settled_of_reads (h : b.Groups P R) (hP : Term.Family P) (hread : b.Reads t e) : P t → b.Settled e := by
  induction hread with
  | linked _ link _ ih => exact fun _ => ih (h.values _ _ link)
  | node f stays _ ih =>
    intro ht x hx
    rcases Expression.mem_vars_ofShape hx with rfl | ⟨e, he, hxe⟩
    · exact h.ne_of_stays hP ht stays
    · rw [Shape.children_map] at he
      obtain ⟨c, hc, rfl⟩ := List.mem_map.mp he
      exact ih c hc (hP.child ht hc) x hxe

/-- A term of a grounded group is read as a tree. -/
theorem exists_reads (h : b.Groups P R) (hP : Term.Family P) (hground : Grounded R s) :
    ∀ u, R s u → ∃ e, b.Reads u e := by
  refine h.descend hP (fun u hu hlinked hchildren => ?_) hground
  cases hb : b.binding? u with
  | none => exact Reads.of_children (fun _ => hb) hchildren
  | some v =>
    cases hvar : u.isVar with
    | false => exact Reads.of_children (fun hvar' => absurd (hvar.symm.trans hvar') Bool.noConfusion) hchildren
    | true =>
      obtain ⟨e, he⟩ := hlinked v ⟨hu, hb⟩
      exact ⟨e, .linked hvar hb he⟩

/-- In one group, terms that are no bound variables are alike. -/
theorem alike_of_stays (h : b.Groups P R) (huv : R u v) (hu : u.isVar = true → b.binding? u = none)
    (hv : v.isVar = true → b.binding? v = none) : Term.Alike R u v := by
  by_cases he : u = v
  · exact he ▸ .same u
  cases hnu : u.isVar with
  | true =>
    obtain ⟨hnv, hbv⟩ := h.free huv hnu (hu hnu) he
    exact absurd (hv hnv) hbv
  | false =>
    cases hnv : v.isVar with
    | true => exact absurd (hnu.symm.trans (h.isVar_of_free hnv (hv hnv) (h.agreement.symm huv))) Bool.noConfusion
    | false => exact h.agreement.alike huv hnu hnv

/-- At the end of the chain of bound variables there is a node that stays and is read as the same. -/
theorem exists_end (h : b.Groups P R) (hv : b.Reads v e) : P v → ∃ w f, R v w ∧
    (w.isVar = true → b.binding? w = none) ∧ (∀ c ∈ w.children, b.Reads c (f c)) ∧
      e = .ofShape w.id (w.shape.map f) := by
  induction hv with
  | linked _ hb _ ih =>
    intro hpv
    have hlink := h.linked ⟨hpv, hb⟩
    obtain ⟨w, f, hw, hend⟩ := ih (h.agreement.inside_right hlink)
    exact ⟨w, f, h.agreement.trans hlink hw, hend⟩
  | node f stays rest => exact fun hpv => ⟨_, f, h.agreement.refl hpv, stays, rest, rfl⟩

/-- **Terms of one group are read as the same tree.** -/
theorem reads_congr (h : b.Groups P R) (hP : Term.Family P) (hu : b.Reads u e) :
    ∀ {v : Term} {e' : Expression NodeId}, R u v → b.Reads v e' → e = e' := by
  induction hu with
  | linked _ hb _ ih =>
    intro v e' huv hv
    have hlink := h.linked ⟨h.agreement.inside huv, hb⟩
    exact ih (h.agreement.trans (h.agreement.symm hlink) huv) hv
  | @node u f stays _ ih =>
    intro v e' huv hv
    obtain ⟨w, g, hvw, hstays, hrest, rfl⟩ := h.exists_end hv (h.agreement.inside_right huv)
    refine ofShape_eq_of_alike (h.alike_of_stays (h.agreement.trans huv hvw) stays hstays) ?_ ?_
    · exact fun c hc => h.agreement.refl (hP.child (h.agreement.inside huv) hc)
    · exact fun c hc d hd hcd => ih c hc hcd (hrest d hd)

/-! ### Applied often enough -/

theorem eventually_forall_mem {α : Type} {Q : Nat → α → Prop} {as : List α} (h : ∀ a ∈ as, ∀ᶠ n in atTop, Q n a) :
    ∀ᶠ n in atTop, ∀ a ∈ as, Q n a :=
  (eventually_all_finite (List.finite_toSet as)).mpr h

/-- The solutions applied often enough give what is read. -/
theorem eventually_substN (h : b.Groups P R) (hP : Term.Family P) (hread : b.Reads t e) :
    P t → ∀ᶠ n in atTop, t.expression.substN b.solution n = e := by
  induction hread with
  | @linked t next e var link _ ih =>
    intro ht
    obtain ⟨k, hk⟩ := eventually_atTop.mp (ih (h.values _ _ link))
    refine eventually_atTop.mpr ⟨k + 1, fun n hn => ?_⟩
    obtain ⟨m, rfl⟩ : ∃ m, n = m + 1 := ⟨n - 1, by omega⟩
    rw [Term.expression_of_isVar var, Expression.substN, Expression.subst,
      solution_of_mem (h.isListed.mem_solutions hP ht var link)]
    exact hk m (by omega)
  | @node t f stays _ ih =>
    intro ht
    have hstays := solution_of_forall_ne (h.ne_of_stays hP ht stays)
    refine (eventually_forall_mem fun c hc => ih c hc (hP.child ht hc)).mono fun n hn => ?_
    rw [Term.expression_eq_ofShape, Expression.substN_ofShape hstays, Shape.map_map]
    exact congrArg _ (Shape.map_congr hn)

end Groups

end Bindings

end TermGraph
