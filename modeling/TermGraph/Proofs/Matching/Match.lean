import TermGraph.Proofs.Matching.Values
import TermGraph.Proofs.Tree.Matching

/-!
# Matching of nodes and matching of trees

Matching a node of a rule's store against a node of another store succeeds exactly if the tree of the one
matches the tree of the other. The bindings remember more than the variables do, since every node that has
matched is bound; but a node that is bound has an instance, and by `Tree.match?_of_instance?` remembering
it makes no difference.

## Main statements

* `Bindings.Tracks` — what bindings have to do with the variables of the trees
* `Bindings.tryMatch_agrees` — **nodes match exactly if their trees do**
-/

namespace TermGraph

namespace Bindings

/-- Nodes are bound to the instances of their trees, and every variable that stands for something has a node
that is bound. All nodes that are bound belong to the scope, and what they are bound to belongs to the
store. -/
structure Tracks (C : Custody) (store : Store) (scope : Nat) (b : Bindings) (σ : Assignment) : Prop where
  bound : ∀ u v : Term, b.binding? u = some v → ∃ p, C.has store p ∧ p.id = u.id ∧ p.scope = scope ∧
    store.Owns v ∧ p.tree.instance? σ = some v.tree
  assigned : ∀ (x : String) (t : Tree Slot), σ x = some t →
    ∃ p v, C.has store p ∧ p.scope = scope ∧ p.tree = .var x ∧ b.binding? p = some v

variable {C : Custody} {store store' : Store} {scope : Nat} {b : Bindings} {σ σ' : Assignment}
  {p s v : Term}

theorem Tracks.empty (C : Custody) (store : Store) (scope : Nat) :
    Bindings.empty.Tracks C store scope .empty where
  bound u v hb := by simp [Bindings.empty, binding?] at hb
  assigned x t hx := by cases hx

theorem Tracks.mono (h : b.Tracks C store scope σ) (hle : store ≤ store') :
    b.Tracks C store' scope σ where
  bound u v hb := by
    obtain ⟨p, hp, hid, hs, hv, hi⟩ := h.bound u v hb
    exact ⟨p, C.mono hle hp, hid, hs, hv.mono hle, hi⟩
  assigned x t hx := by
    obtain ⟨p, v, hp, hs, ht, hb⟩ := h.assigned x t hx
    exact ⟨p, v, C.mono hle hp, hs, ht, hb⟩

theorem Tracks.scope_eq (h : b.Tracks C store scope σ) (hb : b.binding? p = some v) :
    p.scope = scope := by
  obtain ⟨q, -, hid, hs, -, -⟩ := h.bound p v hb
  exact (Term.scope_congr hid).symm.trans hs

/-- No node of the store is bound if the bound nodes are those of another. -/
theorem Tracks.unbound_of_owns (h : b.Tracks C store scope σ) (hcanon : store.Canonical) (hne : scope ≠ store.scope)
    (hv : store.Owns v) : b.binding? v = none := by
  cases hb : b.binding? v with
  | none => rfl
  | some w => exact absurd ((h.scope_eq hb).symm.trans (hcanon.scope_eq hv)) hne

/-- What a node is bound to is an instance of its tree. -/
theorem Tracks.instance_eq (h : b.Tracks C store scope σ) (hcanon : store.Canonical)
    (hp : C.has store p) (hb : b.binding? p = some v) :
    store.Owns v ∧ p.tree.instance? σ = some v.tree := by
  obtain ⟨q, hq, hid, -, hv, hi⟩ := h.bound p v hb
  have hqp : q = p := C.unique hcanon hq hp hid
  subst hqp
  exact ⟨hv, hi⟩

/-- A variable whose node is not bound stands for nothing. -/
theorem Tracks.unassigned (h : b.Tracks C store scope σ) (hcanon : store.Canonical)
    (hp : C.has store p) (hs : p.scope = scope) {x : String} (hx : p.tree = .var x)
    (hb : b.binding? p = none) : σ x = none := by
  cases hσ : σ x with
  | none => rfl
  | some t =>
    obtain ⟨q, v, hq, hqs, hqx, hqb⟩ := h.assigned x t hσ
    have hqp : q = p := C.eq_of_tree_eq hcanon hq hp (hqs.trans hs.symm) (hqx.trans hx.symm)
    rw [hqp, hb] at hqb
    cases hqb

/-- Another node may be bound to its instance. Should it be a variable, it may stand for more than before. -/
theorem Tracks.bind (h : b.Tracks C store scope σ) (hp : C.has store p) (hs : p.scope = scope)
    (ho : store.Owns s) (hext : σ.Extends σ') (hi : p.tree.instance? σ' = some s.tree)
    (hnew : ∀ (x : String) (t : Tree Slot), σ' x = some t → σ x = some t ∨ p.tree = .var x) :
    (b.bind p s).Tracks C store scope σ' where
  bound u v hb := by
    rw [binding?_bind] at hb
    split at hb
    · next hid =>
      cases hb
      exact ⟨p, hp, hid, hs, ho, hi⟩
    · obtain ⟨q, hq, hid, hqs, hv, hqi⟩ := h.bound u v hb
      exact ⟨q, hq, hid, hqs, hv, Tree.instance?_of_extends hext hqi⟩
  assigned x t hx := by
    rcases hnew x t hx with hx | hx
    · obtain ⟨q, v, hq, hqs, hqx, hqb⟩ := h.assigned x t hx
      by_cases hid : p.id = q.id
      · exact ⟨q, s, hq, hqs, hqx, by rw [binding?_bind, if_pos hid]⟩
      · exact ⟨q, v, hq, hqs, hqx, by rw [binding?_bind, if_neg hid, hqb]⟩
    · exact ⟨p, s, hp, hs, hx, by rw [binding?_bind, if_pos rfl]⟩

/-- A node that was bound before another was bound for the first time is bound to the same afterwards. -/
theorem binding?_bind_of_ne {b b' : Bindings} {u : Term} (hp : b.binding? p = none)
    (hu : b.binding? u = some v) (h : b'.binding? u = some v) : (b'.bind p s).binding? u = some v := by
  rw [binding?_bind, if_neg, h]
  intro hid
  rw [binding?, hid] at hp
  rw [binding?, hp] at hu
  cases hu

end Bindings

/-- The attempt succeeds exactly if there is an assignment. Then it binds nodes accordingly and takes no binding
back. -/
structure Attempt.Agrees (C : Custody) (store : Store) (scope : Nat) (attempt : Attempt) (b : Bindings)
    (r : Option Assignment) : Prop where
  success : (attempt b).1 = r.isSome
  tracks : ∀ σ, r = some σ → (attempt b).2.Tracks C store scope σ
  keeps : r.isSome = true → ∀ u v, b.binding? u = some v → (attempt b).2.binding? u = some v

namespace Attempt.Agrees

variable {C : Custody} {store : Store} {scope : Nat} {b : Bindings} {σ : Assignment}
  {attempt next : Attempt} {r : Option Assignment} {p s : Term}

theorem succeed (h : b.Tracks C store scope σ) : Agrees C store scope (return true) b (some σ) where
  success := rfl
  tracks τ hτ := by
    cases hτ
    exact h
  keeps _ u v hb := hb

theorem fail : Agrees C store scope (return false) b none where
  success := rfl
  tracks τ hτ := by cases hτ
  keeps h := by cases h

theorem orUndo (h : Agrees C store scope attempt b r) : Agrees C store scope attempt.orUndo b r where
  success := by
    rw [Attempt.orUndo_apply]
    exact h.success
  tracks τ hτ := by
    have htrue : (attempt b).1 = true := by rw [h.success, hτ, Option.isSome_some]
    rw [Attempt.orUndo_apply, if_pos htrue]
    exact h.tracks τ hτ
  keeps hr := by
    rw [Attempt.orUndo_apply, if_pos (h.success.trans hr)]
    exact h.keeps hr

/-- One attempt after another. -/
theorem andThen {f : Assignment → Option Assignment} (h : Agrees C store scope attempt b r)
    (hnext : ∀ τ, r = some τ → Agrees C store scope next (attempt b).2 (f τ)) :
    Agrees C store scope (do if ← attempt then next else return false) b (r.bind f) := by
  have he : (do if ← attempt then next else return false : Attempt) b =
      if (attempt b).1 = true then next (attempt b).2 else (false, (attempt b).2) := by
    change (fun r : Bool × Bindings => (if r.1 then next else return false : Attempt) r.2) (attempt b) = _
    cases attempt b with
    | mk success b' => cases success <;> rfl
  cases hr : r with
  | none =>
    have hfalse : (attempt b).1 = false := by rw [h.success, hr, Option.isSome_none]
    refine ⟨?_, fun τ hτ => (by cases hτ), fun h => (by cases h)⟩
    rw [he, hfalse]
    rfl
  | some τ =>
    have htrue : (attempt b).1 = true := by rw [h.success, hr, Option.isSome_some]
    have hthen := hnext τ hr
    refine ⟨?_, fun τ' hτ' => ?_, fun hsome u v hb => ?_⟩
    · rw [he, if_pos htrue]
      exact hthen.success
    · rw [he, if_pos htrue]
      exact hthen.tracks τ' hτ'
    · rw [he, if_pos htrue]
      exact hthen.keeps hsome u v (h.keeps (by rw [hr, Option.isSome_some]) u v hb)

/-- The node that has matched is bound. -/
theorem thenBind (hp : C.has store p) (hs : p.scope = scope) (ho : store.Owns s)
    (hb : b.binding? p = none) (h : Agrees C store scope attempt b (p.tree.match? s.tree σ)) :
    Agrees C store scope (attempt.thenBind p s) b (p.tree.match? s.tree σ) where
  success := by
    rw [Attempt.thenBind_apply]
    exact h.success
  tracks τ hτ := by
    have htrue : (attempt b).1 = true := by rw [h.success, hτ, Option.isSome_some]
    rw [Attempt.thenBind_apply, if_pos htrue]
    exact (h.tracks τ hτ).bind hp hs ho (.refl τ) (Tree.instance?_of_match? hτ).2
      fun x t hx => Or.inl hx
  keeps hr u v hu := by
    rw [Attempt.thenBind_apply, if_pos (h.success.trans hr)]
    exact Bindings.binding?_bind_of_ne hb hu (h.keeps hr u v hu)

end Attempt.Agrees

namespace Bindings

variable {C : Custody} {store : Store} {scope : Nat} {b : Bindings} {σ : Assignment} {p s : Term}

/-- A node that is bound matches what it is bound to, and any other is compared. -/
theorem matchNode_agrees (hcanon : store.Canonical) (hne : scope ≠ store.scope) {inside : Attempt}
    (hp : C.has store p) (hscope : p.scope = scope) (hs : store.Owns s) (h : b.Tracks C store scope σ)
    (hinside : b.binding? p = none →
      Attempt.Agrees C store scope (inside.thenBind p s) b (p.tree.match? s.tree σ)) :
    Attempt.Agrees C store scope (matchNode p s inside) b (p.tree.match? s.tree σ) := by
  have hid : p.id ≠ s.id := fun hid =>
    hne (hscope.symm.trans ((Term.scope_congr hid).trans (hcanon.scope_eq hs)))
  cases hb : b.binding? p with
  | none =>
    obtain ⟨h1, h2, h3⟩ := hinside hb
    have he : matchNode p s inside b = inside.thenBind p s b := matchNode_of_unbound hid hb
    exact ⟨by rw [he]; exact h1, fun τ hτ => by rw [he]; exact h2 τ hτ,
      fun hsome => by rw [he]; exact h3 hsome⟩
  | some v =>
    obtain ⟨hv, hi⟩ := h.instance_eq hcanon hp hb
    have he : matchNode p s inside b = (decide (v.id = s.id), b) := matchNode_of_bound hid hb
    rw [Tree.match?_of_instance? s.tree hi]
    -- both belong to the store, so they have the same tree only if they are the same node
    by_cases hvs : v.id = s.id
    · have hsv : s = v := (hv.eq_of_id_eq hs hvs).symm
      rw [if_pos (by rw [hsv])]
      refine ⟨by rw [he]; simp [hvs], fun τ hτ => ?_, fun _ u w hu => ?_⟩
      · cases hτ
        rw [he]
        exact h
      · rw [he]
        exact hu
    · have hsv : s.tree ≠ v.tree := fun ht => hvs (by rw [hcanon.eq_of_tree_eq hs hv ht])
      rw [if_neg hsv]
      exact ⟨by rw [he]; simp [hvs], fun τ hτ => (by cases hτ),
        fun hsome => (by cases hsome)⟩

mutual

theorem matchTerm_agrees (hcanon : store.Canonical) (hne : scope ≠ store.scope) :
    ∀ (p s : Term) {b : Bindings} {σ : Assignment}, C.has store p → p.scope = scope →
      store.Owns s → b.Tracks C store scope σ →
      Attempt.Agrees C store scope (matchTerm p s) b (p.tree.match? s.tree σ)
  | p@(.var stamp x), s, b, σ, hp, hscope, hs, h =>
    matchNode_agrees hcanon hne hp hscope hs h fun hb => by
      -- a variable that stood for something would have its node bound
      have hx : σ x = none := h.unassigned hcanon hp hscope (x := x) rfl hb
      have hm : (Term.var stamp x).tree.match? s.tree σ = some (σ.set x s.tree) := by
        simp only [Term.tree, Tree.match?, hx]
      rw [hm]
      refine ⟨rfl, fun τ hτ => ?_, fun _ u v hu => binding?_bind_of_ne hb hu hu⟩
      cases hτ
      refine h.bind hp hscope hs (.set hx) (Tree.instance?_of_match? hm).2 fun y t hy => ?_
      by_cases hxy : x = y
      · exact Or.inr (by rw [hxy, Term.tree])
      · rw [Assignment.set, if_neg hxy] at hy
        exact Or.inl hy
  | .const _ a, s, b, σ, hp, hscope, hs, h =>
    matchNode_agrees hcanon hne hp hscope hs h fun hb => .thenBind hp hscope hs hb <| by
      cases s with
      | const stamp c =>
        simp only [Term.tree, Tree.match?]
        by_cases hac : a = c
        · simpa [hac] using .succeed h
        · simpa [hac] using .fail
      | _ => simpa [Term.tree, Tree.match?] using .fail
  | .fn _ f ps, s, b, σ, hp, hscope, hs, h =>
    matchNode_agrees hcanon hne hp hscope hs h fun hb => .thenBind hp hscope hs hb <| by
      cases s with
      | fn stamp g ss =>
        simp only [Term.tree, Tree.match?, Term.trees_eq_map, List.length_map]
        split
        · next he =>
          rw [← Term.trees_eq_map, ← Term.trees_eq_map]
          exact (matchAll_agrees hcanon hne ps ss (fun c hc => C.child hcanon hp hc)
            (fun c hc => (C.scope_child hcanon hp hc).trans hscope)
            (fun c hc => hcanon.owns_child hs hc) h).orUndo
        · exact .fail
      | _ => simpa [Term.tree, Tree.match?] using .fail
  | .app _ f a, s, b, σ, hp, hscope, hs, h =>
    matchNode_agrees hcanon hne hp hscope hs h fun hb => .thenBind hp hscope hs hb <| by
      have hchild : ∀ c ∈ [f, a], C.has store c ∧ c.scope = scope := fun c hc =>
        ⟨C.child hcanon hp hc, (C.scope_child hcanon hp hc).trans hscope⟩
      cases s with
      | app stamp g c =>
        have hg : store.Owns g := hcanon.owns_child hs (by simp [Term.children, Term.shape, Shape.children])
        have hc : store.Owns c := hcanon.owns_child hs (by simp [Term.children, Term.shape, Shape.children])
        obtain ⟨hf, hfs⟩ := hchild f (by simp)
        obtain ⟨ha, has⟩ := hchild a (by simp)
        simp only [Term.tree, Tree.match?]
        have hfirst := matchTerm_agrees hcanon hne f g hf hfs hg h
        exact (hfirst.andThen fun τ hτ =>
          matchTerm_agrees hcanon hne a c ha has hc (hfirst.tracks τ hτ)).orUndo
      | _ => simpa [Term.tree, Tree.match?] using .fail
  | .lambda _ _, s, b, σ, hp, hscope, hs, h =>
    matchNode_agrees hcanon hne hp hscope hs h fun hb => .thenBind hp hscope hs hb <| by
      simpa [Term.tree, Tree.match?] using .fail
  | .bound _ _ _, s, b, σ, hp, hscope, hs, h =>
    matchNode_agrees hcanon hne hp hscope hs h fun hb => .thenBind hp hscope hs hb <| by
      simpa [Term.tree, Tree.match?] using .fail

theorem matchAll_agrees (hcanon : store.Canonical) (hne : scope ≠ store.scope) :
    ∀ (ps ss : List Term) {b : Bindings} {σ : Assignment}, (∀ p ∈ ps, C.has store p) →
      (∀ p ∈ ps, p.scope = scope) → (∀ s ∈ ss, store.Owns s) → b.Tracks C store scope σ →
      Attempt.Agrees C store scope (matchAll ps ss) b (Tree.matchAll? (Term.trees ps) (Term.trees ss) σ)
  | [], _, b, σ, _, _, _, h => by
    simpa [matchAll, Term.trees, Tree.matchAll?] using .succeed h
  | _ :: _, [], b, σ, _, _, _, h => by
    simpa [matchAll, Term.trees, Tree.matchAll?] using .succeed h
  | p :: ps, s :: ss, b, σ, hp, hscope, hs, h => by
    simp only [Term.trees, Tree.matchAll?]
    rw [matchAll]
    have hfirst := matchTerm_agrees hcanon hne p s (hp p List.mem_cons_self)
      (hscope p List.mem_cons_self) (hs s List.mem_cons_self) h
    refine hfirst.andThen fun τ hτ => ?_
    exact matchAll_agrees hcanon hne ps ss (fun c hc => hp c (List.mem_cons_of_mem _ hc))
      (fun c hc => hscope c (List.mem_cons_of_mem _ hc))
      (fun c hc => hs c (List.mem_cons_of_mem _ hc)) (hfirst.tracks τ hτ)

end

/-- **A node of a rule matches a node of the store exactly if its tree matches the other's tree.** -/
theorem tryMatch_agrees (hcanon : store.Canonical) (hne : scope ≠ store.scope) (hp : C.has store p)
    (hscope : p.scope = scope) (hs : store.Owns s) (h : b.Tracks C store scope σ) :
    Attempt.Agrees C store scope (fun b => b.tryMatch p s) b (p.tree.match? s.tree σ) :=
  (matchTerm_agrees hcanon hne p s hp hscope hs h).orUndo

/-- A pattern that has matched from scratch is bound to the whole subject. -/
theorem tryMatch_whole (hne : scope ≠ store.scope) (hscope : p.scope = scope)
    (hcanon : store.Canonical) (hs : store.Owns s) (h : (empty.tryMatch p s).1 = true) :
    (empty.tryMatch p s).2.binding? p = some s := by
  have hid : p.id ≠ s.id := fun hid =>
    hne (hscope.symm.trans ((Term.scope_congr hid).trans (hcanon.scope_eq hs)))
  obtain ⟨inside, hinside, -⟩ := matchTerm_inside (P := fun _ => True) (fun _ _ _ _ _ => trivial) p s
    fun _ _ _ => trivial
  have hrun : empty.tryMatch p s = (matchNode p s inside).orUndo empty := by rw [← hinside]; rfl
  have hnode : matchNode p s inside empty = inside.thenBind p s empty := by
    rw [matchNode, if_neg hid]
    rfl
  rw [hrun, Attempt.orUndo_apply] at h ⊢
  rw [if_pos h]
  rw [hnode, Attempt.thenBind_apply] at h ⊢
  rw [if_pos h, binding?_bind, if_pos rfl]

end Bindings

end TermGraph
