import TermGraph.Proofs.Furnished
import TermGraph.Proofs.Matching.Match
import TermGraph.Proofs.Matching.Trail
import TermGraph.Proofs.Tree.Variables

/-!
# One match after another

A matcher may be used for several patterns of one store, one after another, against subjects of another store. What
was bound by the earlier matches stays bound and limits the later ones. Between the matches the bindings of the
variables say everything: any other node is bound to its own instance, and a match without success leaves no trace.

## Main statements

* `Tree.match?_isSome_iff` — on trees, matching succeeds exactly if what the variables stand for can be extended
* `World.Matches.tracks` — what the bindings are after any number of matches
* `World.Matches.tryMatch_iff` — **what one more match does after any number of matches**
-/

namespace TermGraph

/-! ## Matching on top of an assignment -/

namespace Tree

variable {σ : Assignment} {θ : Substitution} {p s : Tree Slot} {own scope : Nat}

/-- A pattern that a substitution makes the subject matches on top of a part of the substitution. -/
theorem match?_of_fill (hp : p.binderFree = true) (hext : σ.Extends (.of θ)) (heq : p.fill own scope θ 0 = s) :
    ∃ σ', p.match? s σ = some σ' ∧ σ'.Extends (.of θ) := by
  have hi : instance? (.of θ) p = some (p.fill own scope θ 0) := instance?_of_binderFree hp
  rw [heq] at hi
  exact match?_of_extends hext hi

/-- **Matching on top of an assignment succeeds exactly if a substitution extends the assignment and makes the
pattern the subject.** -/
theorem match?_isSome_iff : (p.match? s σ).isSome = true ↔
    p.binderFree = true ∧ ∃ θ : Substitution, σ.Extends (.of θ) ∧ p.fill own scope θ 0 = s := by
  constructor
  · intro hsome
    obtain ⟨σ', hm⟩ := Option.isSome_iff_exists.mp hsome
    obtain ⟨hext, hi⟩ := instance?_of_match? hm
    exact ⟨binderFree_of_instance? hi, σ'.total, hext.trans (extends_total σ'), fill_of_instance? hi⟩
  · rintro ⟨hp, θ, hext, heq⟩
    obtain ⟨σ', hm, -⟩ := match?_of_fill hp hext heq
    rw [hm, Option.isSome_some]

end Tree

namespace World

variable {world : World} {source scope : Nat} {b : Bindings} {σ : Assignment} {θ : Substitution} {p s : Term}

/-! ## Sequences of matches -/

/-- The bindings that matches of patterns of the store `source` against subjects of the store `scope` lead to, one
after another and each with or without success. A match does not look at stores, so those that were made before the
world was as it is now are among them. -/
inductive Matches (world : World) (source scope : Nat) : Bindings → Prop
  | start : Matches world source scope .empty
  | call {b : Bindings} {p s : Term} (before : Matches world source scope b) (pattern : world.Has p)
      (from_source : p.scope = source) (subject : world.Has s) (in_scope : s.scope = scope) :
      Matches world source scope (b.tryMatch p s).2

/-- The substitution puts in the place of every variable that is bound what the variable is bound to. -/
def Respects (world : World) (source : Nat) (b : Bindings) (θ : Substitution) : Prop :=
  ∀ (q v : Term) (x : String), world.Has q → q.scope = source → q.tree = .var x → b.binding? q = some v →
    θ x = v.tree

/-- A match does in a world what matching does on trees. -/
theorem Sound.tryMatch_agrees (h : world.Sound) (hne : source ≠ scope)
    (htracks : b.Tracks h.custody (world.stores scope) source σ) (hp : world.Has p) (hps : p.scope = source)
    (hs : world.Has s) (hss : s.scope = scope) :
    Attempt.Agrees h.custody (world.stores scope) source (fun b => b.tryMatch p s) b (p.tree.match? s.tree σ) :=
  Bindings.tryMatch_agrees (h.stores scope).1 (by rw [(h.stores scope).2]; exact hne)
    ((h.holds_iff scope).mpr hp) hps (hs.owns hss) htracks

/-- After any number of matches, nodes are bound to the instances of their trees. -/
theorem Matches.tracks (hb : world.Matches source scope b) (h : world.Sound) (hne : source ≠ scope) :
    ∃ σ, b.Tracks h.custody (world.stores scope) source σ := by
  induction hb with
  | start => exact ⟨.empty, .empty _ _ _⟩
  | @call b p s _ hp hps hs hss ih =>
    obtain ⟨σ, ih⟩ := ih
    have hagrees := h.tryMatch_agrees hne ih hp hps hs hss
    cases hm : p.tree.match? s.tree σ with
    | some σ' => exact ⟨σ', hagrees.tracks σ' hm⟩
    | none =>
      have hfalse : (b.tryMatch p s).1 = false := by rw [hagrees.success, hm, Option.isSome_none]
      rw [Bindings.tryMatch_restores hfalse]
      exact ⟨σ, ih⟩

/-- A substitution respects the bindings exactly if it extends the assignment that they stand for. -/
theorem Sound.respects_iff (h : world.Sound) (htracks : b.Tracks h.custody (world.stores scope) source σ) :
    world.Respects source b θ ↔ σ.Extends (.of θ) := by
  constructor
  · intro hθ x t hx
    obtain ⟨q, v, hq, hqs, hqx, hb⟩ := htracks.assigned x t hx
    obtain ⟨-, hi⟩ := htracks.instance_eq (h.stores scope).1 hq hb
    rw [hqx, Tree.instance?, hx, Option.some.injEq] at hi
    rw [Assignment.of, hθ q v x ((h.holds_iff scope).mp hq) hqs hqx hb, hi]
  · intro hext q v x hq _ hqx hb
    obtain ⟨-, hi⟩ := htracks.instance_eq (h.stores scope).1 ((h.holds_iff scope).mpr hq) hb
    rw [hqx, Tree.instance?] at hi
    exact Option.some.inj (hext x v.tree hi)

/-! ## One more match -/

/-- **What one more match does after any number of matches.** It succeeds exactly if the pattern has no binders and
what its variables are bound to can be extended to a substitution that makes the pattern the subject. Then, by any such
substitution: the variables of the pattern are bound to what it puts in their places, what was bound before is bound to
the same, and every node that is bound is a node of the patterns' store and bound to the node of the subjects' store
that it becomes. Without success the bindings and their trail are what they were. -/
theorem Matches.tryMatch_iff (hb : world.Matches source scope b) (h : world.Reachable) (hne : source ≠ scope)
    (hp : world.Has p) (hps : p.scope = source) (hs : world.Has s) (hss : s.scope = scope) :
    ((b.tryMatch p s).1 = true ↔ p.tree.binderFree = true ∧
      ∃ θ, world.Respects source b θ ∧ p.tree.fill scope source θ 0 = s.tree) ∧
    ((b.tryMatch p s).1 = true → ∀ θ, world.Respects source b θ → p.tree.fill scope source θ 0 = s.tree →
      (∀ x ∈ p.tree.vars, ∃ q v, world.Has q ∧ q.scope = source ∧ q.tree = .var x ∧
        (b.tryMatch p s).2.binding? q = some v ∧ v.tree = θ x) ∧
      (∀ q v, b.binding? q = some v → (b.tryMatch p s).2.binding? q = some v) ∧
      ∀ q v, world.Has q → (b.tryMatch p s).2.binding? q = some v →
        q.scope = source ∧ world.Has v ∧ v.scope = scope ∧ q.tree.fill scope source θ 0 = v.tree) ∧
    ((b.tryMatch p s).1 = false → (b.tryMatch p s).2 = b) := by
  have hsound := h.sound
  obtain ⟨σ, htracks⟩ := hb.tracks hsound hne
  have hagrees := hsound.tryMatch_agrees hne htracks hp hps hs hss
  have hrespects : ∀ θ, world.Respects source b θ ↔ σ.Extends (.of θ) := fun θ => hsound.respects_iff htracks
  have hsuccess : (b.tryMatch p s).1 = true ↔ p.tree.binderFree = true ∧
      ∃ θ, world.Respects source b θ ∧ p.tree.fill scope source θ 0 = s.tree := by
    rw [show (b.tryMatch p s).1 = (p.tree.match? s.tree σ).isSome from hagrees.success]
    simp only [hrespects]
    exact Tree.match?_isSome_iff
  refine ⟨hsuccess, fun htrue θ hθ heq => ?_, Bindings.tryMatch_restores⟩
  -- the match on trees finds a part of the substitution that has the whole pattern as an instance
  obtain ⟨σ', hm, hext⟩ := Tree.match?_of_fill (hsuccess.mp htrue).1 ((hrespects θ).mp hθ) heq
  have htracks' := hagrees.tracks σ' hm
  refine ⟨fun x hx => ?_, hagrees.keeps (by rw [hm, Option.isSome_some]), fun q v hq hbq => ?_⟩
  · obtain ⟨t, ht, -⟩ := Tree.assigned_of_instance? (Tree.instance?_of_match? hm).2
      (Tree.every_true : s.tree.Every _ 0) x hx
    obtain ⟨q, v, hq, hqs, hqx, hbq⟩ := htracks'.assigned x t ht
    have hqhas := (hsound.holds_iff scope).mp hq
    exact ⟨q, v, hqhas, hqs, hqx, hbq, ((hsound.respects_iff htracks').mpr hext q v x hqhas hqs hqx hbq).symm⟩
  · obtain ⟨hv, hi⟩ := htracks'.instance_eq (hsound.stores scope).1 ((hsound.holds_iff scope).mpr hq) hbq
    have hfill : Tree.instance? (.of θ) q.tree = some (q.tree.fill scope source θ 0) :=
      Tree.instance?_of_binderFree (Tree.binderFree_of_instance? hi)
    obtain ⟨hvhas, hvs⟩ := hsound.has_of_owns hv
    exact ⟨htracks'.scope_eq hbq, hvhas, hvs, Option.some.inj (hfill.symm.trans (Tree.instance?_of_extends hext hi))⟩

/-- `f(x, g(y))` has matched `f(a, g(b))`. Then `h(g(y), z)` matches `h(g(b), c)`: `g(y)` is bound as a whole already,
and `z` is bound to `c`. -/
theorem matched_after_match :
    let trees : List (Nat × Tree Index) := [(1, .fn "f" [.var "x", .fn "g" [.var "y"]]),
      (1, .fn "h" [.fn "g" [.var "y"], .var "z"]), (0, .fn "f" [.fn "a" [], .fn "g" [.fn "b" []]]),
      (0, .fn "h" [.fn "g" [.fn "b" []], .fn "c" []])]
    let world := stocked trees
    ∃ p s q t, p.tree = .fn "f" [.var "x", .fn "g" [.var "y"]] ∧ s.tree = .fn "f" [.fn "a" [], .fn "g" [.fn "b" []]] ∧
      q.tree = .fn "h" [.fn "g" [.var "y"], .var "z"] ∧ t.tree = .fn "h" [.fn "g" [.fn "b" []], .fn "c" []] ∧
      world.Matches 1 0 (Bindings.empty.tryMatch p s).2 ∧ ((Bindings.empty.tryMatch p s).2.tryMatch q t).1 = true ∧
      ∃ z v, z.tree = .var "z" ∧ ((Bindings.empty.tryMatch p s).2.tryMatch q t).2.binding? z = some v ∧
        v.tree = .fn "c" [] := by
  intro trees world
  have hreach : world.Reachable := stocked_reachable trees
  obtain ⟨p, hp, hps, hptree⟩ := stocked_has (show (1, _) ∈ trees from List.mem_cons_self)
  obtain ⟨q, hq, hqs, hqtree⟩ := stocked_has (show (1, _) ∈ trees from List.mem_cons_of_mem _ List.mem_cons_self)
  obtain ⟨s, hs, hss, hstree⟩ :=
    stocked_has (show (0, .fn "f" [.fn "a" [], .fn "g" [.fn "b" []]]) ∈ trees by simp [trees])
  obtain ⟨t, ht, hts, httree⟩ :=
    stocked_has (show (0, .fn "h" [.fn "g" [.fn "b" []], .fn "c" []]) ∈ trees by simp [trees])
  let θ : Substitution := fun x => if x = "x" then .fn "a" [] else if x = "y" then .fn "b" [] else .fn "c" []
  have hpθ : p.tree.fill 0 1 θ 0 = s.tree := by rw [hptree, hstree]; rfl
  have hqθ : q.tree.fill 0 1 θ 0 = t.tree := by rw [hqtree, httree]; rfl
  obtain ⟨hfirst, hbound, -⟩ := Matches.tryMatch_iff .start hreach one_ne_zero hp hps hs hss
  have hstart : world.Respects 1 .empty θ := fun _ _ _ _ _ _ hb => by simp [Bindings.empty, Bindings.binding?] at hb
  have hmatched := hfirst.mpr ⟨by rw [hptree]; rfl, θ, hstart, hpθ⟩
  have hb : world.Matches 1 0 (Bindings.empty.tryMatch p s).2 := .call .start hp hps hs hss
  have hrespects : world.Respects 1 (Bindings.empty.tryMatch p s).2 θ := by
    intro u v x hu _ hux hbu
    have hfill := ((hbound hmatched θ hstart hpθ).2.2 u v hu hbu).2.2.2
    rw [← hfill, hux, Tree.fill, Tree.raise_zero]
  obtain ⟨hsecond, hbound', -⟩ := hb.tryMatch_iff hreach one_ne_zero hq hqs ht hts
  have hmatched' := hsecond.mpr ⟨by rw [hqtree]; rfl, θ, hrespects, hqθ⟩
  obtain ⟨z, v, -, -, hz, hbz, hv⟩ := (hbound' hmatched' θ hrespects hqθ).1 "z" (by rw [hqtree]; decide)
  exact ⟨p, s, q, t, hptree, hstree, hqtree, httree, hb, hmatched', z, v, hz, hbz, hv⟩

end World

end TermGraph
